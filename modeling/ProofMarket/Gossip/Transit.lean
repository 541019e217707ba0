import Mathlib.Data.Multiset.OrderedMonoid
import ProofMarket.Gossip.Fabric

/-!
# What is in transit

An envelope on its way from one end of a connection to the other is in one of six places: it is to
be queued by the run loop or by a `broadcast` call, it is in the queue of its connection, on the
stream, held by the task that has read it, or in the queue of the receiver's run loop.

Broadcasts and `process_incoming` aside, every step moves an envelope on from one place to the next,
or loses it (`Drifts`).
-/

/-! ## What remains -/

/-- `a` is what remains of `b`: all of it, unless there may be losses. -/
structure Remains {α : Type*} [LE α] (lossy : Prop) (a b : α) : Prop where
  le : a ≤ b
  eq : ¬ lossy → a = b

namespace Remains

variable {α : Type*} [PartialOrder α] {p q : Prop} {a b c d : α}

theorem of_eq (h : a = b) : Remains p a b := ⟨h.le, fun _ => h⟩

theorem mono (h : Remains p a b) (hpq : p → q) : Remains q a b := ⟨h.le, fun hq => h.eq (mt hpq hq)⟩

theorem trans (h : Remains p a b) (h' : Remains p b c) : Remains p a c :=
  ⟨h.le.trans h'.le, fun hp => (h.eq hp).trans (h'.eq hp)⟩

theorem add [AddCommMonoid α] [IsOrderedAddMonoid α] (h : Remains p a b) (h' : Remains p c d) :
    Remains p (a + c) (b + d) :=
  ⟨add_le_add h.le h'.le, fun hp => by rw [h.eq hp, h'.eq hp]⟩

theorem of_add [AddCommMonoid α] [IsOrderedCancelAddMonoid α] (h : Remains p (a + c) (b + c)) :
    Remains p a b :=
  ⟨le_of_add_le_add_right h.le, fun hp => add_right_cancel (h.eq hp)⟩

end Remains

namespace ProofMarket

open Streams (other)

/-! ## Places -/

/-- What of the sends goes to the connection. -/
def along (c : ConnectionId) (sends : List (ConnectionId × GossipEnvelope)) :
    Multiset GossipEnvelope :=
  ↑((sends.filter fun x => x.1 = c).map Prod.snd)

@[simp] theorem along_nil (c : ConnectionId) : along c [] = 0 := rfl

@[simp] theorem along_cons (c : ConnectionId) (x : ConnectionId × GossipEnvelope)
    (sends : List (ConnectionId × GossipEnvelope)) :
    along c (x :: sends) = (if x.1 = c then {x.2} else 0) + along c sends := by
  unfold along
  by_cases hx : x.1 = c <;> simp [hx]

@[simp] theorem along_append (c : ConnectionId)
    (sends more : List (ConnectionId × GossipEnvelope)) :
    along c (sends ++ more) = along c sends + along c more := by
  simp [along]

theorem along_map {cs : List ConnectionId} (hcs : cs.Nodup) (c : ConnectionId)
    (e : GossipEnvelope) :
    along c (cs.map fun d => (d, e)) = if c ∈ cs then {e} else 0 := by
  induction cs with
  | nil => simp
  | cons d cs ih =>
    obtain ⟨hd, hcs⟩ := List.nodup_cons.1 hcs
    rw [List.map_cons, along_cons, ih hcs]
    by_cases hdc : d = c
    · subst hdc
      simp [hd]
    · simp [hdc, Ne.symm hdc]

theorem along_flatten {calls : List (List (ConnectionId × GossipEnvelope))} {i : Nat}
    {x : ConnectionId × GossipEnvelope} {rest : List (ConnectionId × GossipEnvelope)}
    (h : calls[i]? = some (x :: rest)) (c : ConnectionId) :
    along c calls.flatten = along c [x] + along c (calls.set i rest).flatten := by
  induction calls generalizing i with
  | nil => cases h
  | cons call calls ih =>
    cases i with
    | zero =>
      cases h
      simp
    | succ i =>
      rw [List.set_cons_succ, List.flatten_cons, List.flatten_cons, along_append, along_append,
        ih h, add_left_comm]

namespace Tasks

/-- What is on its way out to the connection. -/
def outbound (s : Tasks) (c : ConnectionId) : Multiset GossipEnvelope :=
  along c s.pending + ↑(s.task c).queued

/-- What has come in on the connection and is not processed. -/
def inbound (s : Tasks) (c : ConnectionId) : Multiset GossipEnvelope :=
  ↑(s.task c).held + along c (s.incoming.items.map Prod.swap)

variable {verifier : Verifier} {s t : Tasks} {c d : ConnectionId} {e : GossipEnvelope}

theorem outbound_setTask (s : Tasks) (c : ConnectionId) (r : ConnectionTask) (d : ConnectionId) :
    (s.setTask c r).outbound d =
      along d s.pending + ↑(if d = c then r.queued else (s.task d).queued) := by
  unfold outbound
  split_ifs with h
  · subst h
    rw [setTask_self]
    rfl
  · rw [setTask_of_ne h]
    rfl

theorem inbound_setTask (s : Tasks) (c : ConnectionId) (r : ConnectionTask) (d : ConnectionId) :
    (s.setTask c r).inbound d =
      ↑(if d = c then r.held else (s.task d).held) + along d (s.incoming.items.map Prod.swap) := by
  unfold inbound
  split_ifs with h
  · subst h
    rw [setTask_self]
    rfl
  · rw [setTask_of_ne h]
    rfl

/-- **What is sent is queued**, unless the task is over. -/
theorem outbound_offer (h : s.offer c e = some t) (d : ConnectionId) :
    Remains (t.task d = .ended) (t.outbound d) (s.outbound d + along d [(c, e)]) := by
  obtain ⟨r, rfl, -, hqueued⟩ := of_offer h
  by_cases hd : d = c
  · subst hd
    rw [outbound_setTask, if_pos rfl, setTask_self]
    rcases hqueued with ⟨htask, rfl⟩ | ⟨-, hmore⟩
    · refine ⟨?_, fun hlive => absurd rfl hlive⟩
      simp [outbound, htask]
    · refine .of_eq ?_
      simp [hmore, outbound, ← Multiset.coe_add, add_assoc]
  · refine .of_eq ?_
    rw [outbound_setTask, if_neg hd]
    simp [outbound, Ne.symm hd]

theorem inbound_offer (h : s.offer c e = some t) (d : ConnectionId) :
    t.inbound d = s.inbound d := by
  obtain ⟨r, rfl, hheld, -⟩ := of_offer h
  rw [inbound_setTask, hheld]
  by_cases hd : d = c
  · subst hd
    simp [inbound]
  · simp [hd, inbound]

theorem over_offer (h : s.offer c e = some t) {d : ConnectionId} (hd : s.task d = .ended) :
    t.task d = .ended := by
  obtain ⟨r, rfl, -, ⟨-, rfl⟩ | ⟨hlive, -⟩⟩ := of_offer h
  · by_cases hdc : d = c
    · rw [hdc, setTask_self]
    · rwa [setTask_of_ne hdc]
  · rwa [setTask_of_ne]
    rintro rfl
    exact hlive hd

theorem node_offer (h : s.offer c e = some t) : t.node = s.node := by
  obtain ⟨r, rfl, -⟩ := of_offer h
  rfl

/-- The same node, and its tasks do not come back. -/
structure Stays (s t : Tasks) : Prop where
  node : t.node = s.node
  ended : ∀ c, s.task c = .ended → t.task c = .ended

theorem Stays.of_setTask {c : ConnectionId} {r : ConnectionTask} (h : s.task c ≠ .ended)
    (hnode : t.node = s.node) (htask : t.task = s.task) : Stays s (t.setTask c r) := by
  refine ⟨hnode, fun d hd => ?_⟩
  rw [setTask_of_ne, htask, hd]
  rintro rfl
  exact h hd

/-- What is only moved, at a node: nothing comes in, and what is to go out stays, unless the task of
the connection is over. -/
structure Keeps (s t : Tasks) : Prop extends Stays s t where
  outbound : ∀ c, Remains (t.task c = .ended) (t.outbound c) (s.outbound c)
  inbound : ∀ c, t.inbound c = s.inbound c

theorem Keeps.refl (s : Tasks) : Keeps s s :=
  ⟨⟨rfl, fun _ => id⟩, fun _ => .of_eq rfl, fun _ => rfl⟩

theorem keeps_send (h : s.step verifier .send = some t) : Keeps s t := by
  obtain ⟨c, e, rest, hpending, hoffer⟩ := of_step_send h
  have hnode : t.node = _ := node_offer hoffer
  have hinbound : ∀ d, t.inbound d = _ := inbound_offer hoffer
  refine ⟨⟨hnode, fun d hd => over_offer hoffer hd⟩, fun d => ?_, hinbound⟩
  refine (outbound_offer hoffer d).trans (.of_eq ?_)
  simp only [outbound, hpending, along_cons, along_nil, add_zero]
  rw [add_right_comm, add_comm (along d rest)]

theorem keeps_enqueue (h : s.step verifier (.enqueue c) = some t) : Keeps s t := by
  obtain ⟨e, outgoing, incoming, htask, hitems, rfl⟩ := of_step_enqueue h
  refine ⟨.of_setTask (by simp [htask]) rfl rfl, fun d => .of_eq ?_, fun d => ?_⟩
  · rw [outbound_setTask]
    by_cases hd : d = c
    · subst hd
      simp [outbound, htask, ConnectionTask.queued]
    · simp [outbound, hd]
  · rw [inbound_setTask]
    by_cases hd : d = c
    · subst hd
      simp [inbound, htask, hitems, ConnectionTask.held, add_comm]
    · simp [inbound, hd, hitems, Ne.symm hd]

theorem keeps_closed (h : s.step verifier (.closed c) = some t) :
    Keeps s t ∧ t.task c = .ended := by
  obtain ⟨outgoing, htask, rfl⟩ := of_step_closed h
  refine ⟨⟨.of_setTask (by simp [htask]) rfl rfl, fun d => ?_, fun d => ?_⟩, setTask_self ..⟩
  · by_cases hd : d = c
    · subst hd
      refine ⟨?_, fun hlive => absurd (setTask_self ..) hlive⟩
      rw [outbound_setTask, if_pos rfl]
      exact add_le_add le_rfl (Multiset.zero_le _)
    · refine .of_eq ?_
      rw [outbound_setTask, if_neg hd, outbound]
  · rw [inbound_setTask]
    by_cases hd : d = c
    · subst hd
      simp [inbound, htask, ConnectionTask.held]
    · simp [inbound, hd]

theorem stays_write (h : s.step verifier (.write c) = some t)
    (hhead : (s.task c).queued.head? = some e) :
    Stays s t ∧ (∀ d, t.outbound d + (if d = c then {e} else 0) = s.outbound d) ∧
      ∀ d, t.inbound d = s.inbound d := by
  obtain ⟨outgoing, d, rest, htask, hitems, rfl⟩ := of_step_write h
  rw [htask, ConnectionTask.queued, hitems] at hhead
  cases hhead
  refine ⟨.of_setTask (by simp [htask]) rfl rfl, fun d => ?_, fun d => ?_⟩
  · rw [outbound_setTask]
    by_cases hd : d = c
    · subst hd
      simp only [if_pos, outbound, htask, ConnectionTask.queued, hitems]
      rw [add_assoc, ← Multiset.cons_coe, ← Multiset.singleton_add, add_comm ({e} : Multiset _)]
    · rw [if_neg hd, if_neg hd, add_zero, outbound]
  · rw [inbound_setTask]
    by_cases hd : d = c
    · subst hd
      simp [inbound, htask, ConnectionTask.held]
    · simp [inbound, hd]

theorem stays_read (h : s.step verifier (.read c e) = some t) :
    Stays s t ∧ (∀ d, t.outbound d = s.outbound d) ∧
      ∀ d, t.inbound d = s.inbound d + if d = c then {e} else 0 := by
  obtain ⟨outgoing, htask, rfl⟩ := of_step_read h
  refine ⟨.of_setTask (by simp [htask]) rfl rfl, fun d => ?_, fun d => ?_⟩
  · rw [outbound_setTask]
    by_cases hd : d = c
    · subst hd
      simp [outbound, htask, ConnectionTask.queued]
    · simp [outbound, hd]
  · rw [inbound_setTask]
    by_cases hd : d = c
    · subst hd
      simp [inbound, htask, ConnectionTask.held, add_comm]
    · simp [inbound, hd]

end Tasks

namespace Streams

variable {κ : Type}

/-- What has been written at an end and not been taken off at the other. -/
def between (s : Streams κ) (x : κ × Bool) : Multiset GossipEnvelope :=
  ↑((s x).written.drop (s (other x)).delivered.length)

theorem between_congr {s t : Streams κ}
    (h : ∀ y, (t y).delivered = (s y).delivered ∧ (t y).written = (s y).written) (y : κ × Bool) :
    t.between y = s.between y := by
  unfold between
  rw [(h y).2, (h (other y)).1]

variable [DecidableEq κ] {format : FrameFormat} {s t : Streams κ} {x : κ × Bool}

theorem between_leave (s : Streams κ) (x y : κ × Bool) :
    between (Function.update s x (s x).leave) y = s.between y := by
  refine between_congr (fun z => ?_) y
  by_cases hz : z = x
  · subst hz
    rw [Function.update_self]
    exact ⟨rfl, rfl⟩
  · rw [Function.update_of_ne hz]
    exact ⟨rfl, rfl⟩

theorem between_lost (h : step format s (x, .lost) = some t) (y : κ × Bool) :
    t.between y = s.between y := by
  cases h
  exact between_leave s x y

theorem between_arrive {n : Nat} (h : step format s (x, .arrive n) = some t) (y : κ × Bool) :
    t.between y = s.between y := by
  obtain ⟨buffer, -, h⟩ := Option.bind_eq_some_iff.1 h
  cases h
  refine between_congr (fun z => ?_) y
  by_cases hother : z = other x
  · subst hother
    rw [Function.update_self]
    exact ⟨rfl, rfl⟩
  · rw [Function.update_of_ne hother]
    by_cases hz : z = x
    · subst hz
      rw [Function.update_self]
      exact ⟨rfl, rfl⟩
    · rw [Function.update_of_ne hz]
      exact ⟨rfl, rfl⟩

/-- **What is written is on the stream**, unless the task gives up. -/
theorem between_outgoing {ν : Type} {owner : κ × Bool → ν} {e : SizedEnvelope}
    (hs : Inv format owner (fun _ => true) s) (h : step format s (x, .outgoing e) = some t)
    (y : κ × Bool) :
    Remains (y = x ∧ (t x).buffer = none) (t.between y)
      (s.between y + if y = x then {e.1} else 0) := by
  simp only [step, Option.ite_none_right_eq_some] at h
  obtain ⟨-, h⟩ := h
  cases h
  unfold StreamTask.send
  cases format.write (Wire.envelope.encode e.1) with
  | none =>
    rw [between_leave]
    refine ⟨Multiset.le_add_right _ _, fun hlive => ?_⟩
    rw [if_neg, add_zero]
    rintro rfl
    refine hlive ⟨rfl, ?_⟩
    rw [Function.update_self]
    rfl
  | some bytes =>
    have hdelivered : ∀ z, (Function.update s x ((s x).put bytes [e.1]) z).delivered =
        (s z).delivered := by
      intro z
      by_cases hz : z = x
      · subst hz
        rw [Function.update_self]
        rfl
      · rw [Function.update_of_ne hz]
    refine .of_eq ?_
    unfold between
    rw [hdelivered]
    split_ifs with hy
    · subst hy
      have hall : (s (other y)).delivered.length ≤ (s y).written.length := by
        have hprefix := hs.delivery.inOrder (other y) rfl
        rw [other_other] at hprefix
        exact hprefix.length_le
      rw [Function.update_self]
      show (↑(((s y).written ++ [e.1]).drop _) : Multiset GossipEnvelope) = _
      rw [List.drop_append_of_le_length hall, ← Multiset.coe_add]
      rfl
    · rw [Function.update_of_ne hy, add_zero]

/-- **What is taken off** was on the stream. -/
theorem between_next {ν : Type} {owner : κ × Bool → ν} (hs : Inv format owner (fun _ => true) s)
    (h : step format s (x, .next) = some t) :
    ((t x).buffer = none ∧ ∀ y, t.between y = s.between y) ∨
      ∃ e, (t x).buffer.isSome = true ∧ (t x).delivered.getLast? = some e ∧
        ∀ y, t.between y + (if other y = x then {e} else 0) = s.between y := by
  have hallowed : Allowed owner (fun _ => true) s (x, .next) := trivial
  have ht : Inv format owner (fun _ => true) t := hs.step hallowed h
  obtain ⟨buffer, hbuffer, h⟩ := Option.bind_eq_some_iff.1 h
  obtain ⟨task, htask, h⟩ := Option.bind_eq_some_iff.1 h
  cases h
  unfold StreamTask.next at htask
  split at htask
  · cases htask
  · cases htask
    refine .inl ⟨?_, between_leave s x⟩
    rw [Function.update_self]
    rfl
  · rename_i e rest hscan
    cases htask
    set t := Function.update s x
      { s x with buffer := some rest, delivered := (s x).delivered ++ [e] } with htdef
    have hx : t x = { s x with buffer := some rest, delivered := (s x).delivered ++ [e] } :=
      Function.update_self ..
    have hwritten : ∀ y, (t y).written = (s y).written := by
      intro y
      by_cases hy : y = x
      · rw [hy, hx]
      · rw [htdef, Function.update_of_ne hy]
    refine .inr ⟨e, by rw [hx]; rfl, by rw [hx]; simp, fun y => ?_⟩
    unfold between
    rw [hwritten]
    split_ifs with hy
    · -- The next envelope that was written.
      subst hy
      obtain ⟨more, hmore⟩ := ht.delivery.inOrder (other y) rfl
      rw [other_other, hx, hwritten] at hmore
      have hrest : ((s y).written).drop ((s (other y)).delivered ++ [e]).length = more := by
        rw [← hmore, List.drop_left]
      have hnext : ((s y).written).drop (s (other y)).delivered.length = e :: more := by
        rw [← hmore, List.append_assoc, List.drop_left]
        rfl
      rw [hx, hrest, hnext, ← Multiset.cons_coe, ← Multiset.singleton_add, add_comm]
    · rw [htdef, Function.update_of_ne hy, add_zero]

end Streams

/-! ## Transit -/

namespace BusyNode

/-- What is on its way out to the connection. -/
def outbound (n : BusyNode) (c : ConnectionId) : Multiset GossipEnvelope :=
  n.tasks.outbound c + along c n.calls.flatten

end BusyNode

namespace Fabric

variable {κ ν : Type} {K : Cabling κ ν} {s t : Fabric κ ν}

/-- What is underway from an end to the other. -/
def transit (K : Cabling κ ν) (s : Fabric κ ν) (x : κ × Bool) : Multiset GossipEnvelope :=
  (s.nodes (K.place x).1).outbound (K.place x).2 + s.streams.between x +
    (s.nodes (K.place (other x)).1).tasks.inbound (K.place (other x)).2

/-- The task at an end is over. -/
def Over (K : Cabling κ ν) (s : Fabric κ ν) (x : κ × Bool) : Prop :=
  (s.nodes (K.place x).1).tasks.task (K.place x).2 = .ended

/-- A step that processes nothing: envelopes are moved on, or lost where a task is over. -/
structure Drifts (K : Cabling κ ν) (s t : Fabric κ ν) : Prop where
  node : ∀ v, (t.nodes v).tasks.node = (s.nodes v).tasks.node
  delivered : ∀ v, (t.nodes v).delivered = (s.nodes v).delivered
  ended : ∀ x, s.Over K x → t.Over K x
  transit : ∀ x, Remains (t.Over K x) (t.transit K x) (s.transit K x)
  unwired : ∀ v c, K.endAt v c = none →
    (t.nodes v).tasks.inbound c = (s.nodes v).tasks.inbound c

variable [DecidableEq ν]

/-- One node goes on, and streams do: `a` goes from its queues onto the streams, and `b` from the
streams into its tasks. -/
theorem Drifts.of {v : ν} {n : BusyNode} {streams : Streams κ}
    (a b : κ × Bool → Multiset GossipEnvelope) (hstays : (s.nodes v).tasks.Stays n.tasks)
    (hdelivered : n.delivered = (s.nodes v).delivered)
    (hout : ∀ x, (K.place x).1 = v → Remains (n.tasks.task (K.place x).2 = .ended)
      (n.outbound (K.place x).2 + a x) ((s.nodes v).outbound (K.place x).2))
    (hbetween : ∀ x, Remains (Over K ⟨Function.update s.nodes v n, streams⟩ x)
      (streams.between x + b x) (s.streams.between x + a x))
    (hin : ∀ x, (K.place (other x)).1 = v → n.tasks.inbound (K.place (other x)).2 =
      (s.nodes v).tasks.inbound (K.place (other x)).2 + b x)
    (hnone : ∀ x, ((K.place x).1 ≠ v → a x = 0) ∧ ((K.place (other x)).1 ≠ v → b x = 0))
    (hunwired : ∀ c, K.endAt v c = none → n.tasks.inbound c = (s.nodes v).tasks.inbound c) :
    Drifts K s ⟨Function.update s.nodes v n, streams⟩ := by
  constructor
  · intro w
    by_cases hw : w = v
    · subst hw
      simpa using hstays.node
    · simp [hw]
  · intro w
    by_cases hw : w = v
    · subst hw
      simpa using hdelivered
    · simp [hw]
  · intro x hx
    unfold Over at hx ⊢
    by_cases hv : (K.place x).1 = v
    · rw [hv] at hx ⊢
      simpa using hstays.ended _ hx
    · simpa [hv] using hx
  · intro x
    have hsend : Remains (Over K ⟨Function.update s.nodes v n, streams⟩ x)
        ((Function.update s.nodes v n (K.place x).1).outbound (K.place x).2 + a x)
        ((s.nodes (K.place x).1).outbound (K.place x).2) := by
      by_cases hx : (K.place x).1 = v
      · have hover : Over K ⟨Function.update s.nodes v n, streams⟩ x ↔
            n.tasks.task (K.place x).2 = .ended := by
          show (Function.update s.nodes v n (K.place x).1).tasks.task _ = _ ↔ _
          rw [hx, Function.update_self]
        rw [hx, Function.update_self]
        exact (hout x hx).mono hover.2
      · rw [Function.update_of_ne hx, (hnone x).1 hx, add_zero]
        exact .of_eq rfl
    have hreceive : (Function.update s.nodes v n (K.place (other x)).1).tasks.inbound
        (K.place (other x)).2 =
          (s.nodes (K.place (other x)).1).tasks.inbound (K.place (other x)).2 + b x := by
      by_cases hx : (K.place (other x)).1 = v
      · rw [hx, Function.update_self]
        exact hin x hx
      · rw [Function.update_of_ne hx, (hnone x).2 hx, add_zero]
    have hmoved := (hsend.add (hbetween x)).add (.of_eq
      (rfl : (s.nodes (K.place (other x)).1).tasks.inbound (K.place (other x)).2 = _))
    refine .of_add (c := a x) ?_
    unfold Fabric.transit
    rw [hreceive]
    convert hmoved using 1 <;> ac_rfl
  · intro w c hc
    by_cases hw : w = v
    · subst hw
      simpa using hunwired c hc
    · simp [hw]

section Steps

variable [DecidableEq κ] {format : FrameFormat} {verifier : Verifier} {x : κ × Bool} {v : ν}

/-- The invariant of the streams: all nodes run this code. -/
abbrev Orderly (format : FrameFormat) (K : Cabling κ ν) (streams : Streams κ) : Prop :=
  Streams.Inv format (fun x => (K.place x).1) (fun _ => true) streams

omit [DecidableEq κ] in
theorem Drifts.of_keeps {tasks : Tasks} {streams : Streams κ}
    (h : (s.nodes v).tasks.Keeps tasks)
    (hbetween : ∀ x, streams.between x = s.streams.between x) :
    Drifts K s ⟨Function.update s.nodes v { s.nodes v with tasks }, streams⟩ := by
  refine .of (fun _ => 0) (fun _ => 0) h.toStays rfl ?_ ?_ ?_
    (fun _ => ⟨fun _ => rfl, fun _ => rfl⟩) fun c _ => h.inbound c
  · intro x _
    rw [add_zero]
    exact (h.outbound _).add (.of_eq rfl)
  · intro x
    rw [hbetween]
    exact .of_eq rfl
  · intro x _
    rw [add_zero]
    exact h.inbound _

theorem drifts_post {i : Nat} (h : s.step format verifier K (.post v i) = some t) :
    Drifts K s t ∧ t.streams = s.streams := by
  obtain ⟨n, hn, rfl⟩ := Option.map_eq_some_iff.1 h
  unfold BusyNode.post at hn
  split at hn
  · rename_i c e rest hcall
    obtain ⟨tasks, hoffer, rfl⟩ := Option.map_eq_some_iff.1 hn
    refine ⟨.of (fun _ => 0) (fun _ => 0)
      ⟨Tasks.node_offer hoffer, fun _ => Tasks.over_offer hoffer⟩ rfl ?_ (fun _ => .of_eq rfl) ?_
      (fun _ => ⟨fun _ => rfl, fun _ => rfl⟩) fun c _ => Tasks.inbound_offer hoffer c, rfl⟩
    · intro x _
      rw [add_zero, BusyNode.outbound, BusyNode.outbound, along_flatten hcall, ← add_assoc]
      exact (Tasks.outbound_offer hoffer _).add (.of_eq rfl)
    · intro x _
      rw [add_zero]
      exact Tasks.inbound_offer hoffer _
  · cases hn

theorem drifts_send (h : s.step format verifier K (.send v) = some t) :
    Drifts K s t ∧ t.streams = s.streams := by
  obtain ⟨tasks, htasks, rfl⟩ := Option.map_eq_some_iff.1 h
  exact ⟨.of_keeps (Tasks.keeps_send htasks) fun _ => rfl, rfl⟩

theorem drifts_enqueue (h : s.step format verifier K (.enqueue x) = some t) :
    Drifts K s t ∧ t.streams = s.streams := by
  obtain ⟨tasks, htasks, rfl⟩ := Option.map_eq_some_iff.1 h
  exact ⟨.of_keeps (Tasks.keeps_enqueue htasks) fun _ => rfl, rfl⟩

theorem drifts_arrive {n : Nat} (hs : Orderly format K s.streams)
    (h : s.step format verifier K (.arrive x n) = some t) :
    Drifts K s t ∧ Orderly format K t.streams := by
  obtain ⟨streams, hstreams, rfl⟩ := Option.map_eq_some_iff.1 h
  have hbetween : ∀ y, streams.between y = s.streams.between y := Streams.between_arrive hstreams
  have hallowed : Streams.Allowed (fun x => (K.place x).1) (fun _ => true) s.streams
      (x, .arrive n) := trivial
  refine ⟨⟨fun _ => rfl, fun _ => rfl, fun _ => id, fun y => .of_eq ?_, fun _ _ _ => rfl⟩,
    hs.step hallowed hstreams⟩
  unfold Fabric.transit
  rw [hbetween]

theorem drifts_lost (hs : Orderly format K s.streams)
    (h : s.step format verifier K (.lost x) = some t) :
    Drifts K s t ∧ Orderly format K t.streams := by
  simp only [step] at h
  obtain ⟨streams, hstreams, h⟩ := Option.bind_eq_some_iff.1 h
  obtain ⟨tasks, htasks, h⟩ := Option.bind_eq_some_iff.1 h
  cases h
  have hallowed : Streams.Allowed (fun x => (K.place x).1) (fun _ => true) s.streams
      (x, .lost) := trivial
  exact ⟨.of_keeps (Tasks.keeps_closed htasks).1 (Streams.between_lost hstreams),
    hs.step hallowed hstreams⟩

/-- A write moves the envelope from the queue onto the stream, or the task ends. -/
theorem drifts_write {e : SizedEnvelope} (hs : Orderly format K s.streams)
    (h : s.step format verifier K (.write x e) = some t) :
    Drifts K s t ∧ Orderly format K t.streams := by
  simp only [step, Option.ite_none_right_eq_some] at h
  obtain ⟨hhead, h⟩ := h
  obtain ⟨tasks, htasks, h⟩ := Option.bind_eq_some_iff.1 h
  obtain ⟨streams, hstreams, h⟩ := Option.bind_eq_some_iff.1 h
  obtain ⟨tasks', htasks', h⟩ := Option.bind_eq_some_iff.1 h
  cases h
  obtain ⟨hstays, hout, hin⟩ := Tasks.stays_write htasks hhead
  have hlast : tasks.Keeps tasks' ∧
      ((streams x).buffer = none → tasks'.task (K.place x).2 = .ended) := by
    unfold Tasks.settle at htasks'
    split_ifs at htasks' with hbuffer
    · cases htasks'
      exact ⟨.refl tasks, fun hnone => by simp [hnone] at hbuffer⟩
    · exact ⟨(Tasks.keeps_closed htasks').1, fun _ => (Tasks.keeps_closed htasks').2⟩
  obtain ⟨hkeeps, hover⟩ := hlast
  have hallowed : Streams.Allowed (fun x => (K.place x).1) (fun _ => true) s.streams
      (x, .outgoing e) := rfl
  refine ⟨.of (fun y => if y = x then {e.1} else 0) (fun _ => 0)
    ⟨hkeeps.node.trans hstays.node, fun c hc => hkeeps.ended c (hstays.ended c hc)⟩ rfl ?_ ?_ ?_ ?_
    fun c _ => (hkeeps.inbound c).trans (hin c), hs.step hallowed hstreams⟩
  · intro y hy
    have hplace : (if y = x then {e.1} else 0 : Multiset GossipEnvelope) =
        if (K.place y).2 = (K.place x).2 then {e.1} else 0 := by
      refine if_congr ⟨fun hyx => by rw [hyx], fun hyx => ?_⟩ rfl rfl
      exact K.place_injective (Prod.ext hy hyx)
    show Remains _ (tasks'.outbound _ + _ + _) ((s.nodes _).tasks.outbound _ + _)
    rw [add_right_comm, hplace, ← hout]
    exact ((hkeeps.outbound _).add (.of_eq rfl)).add (.of_eq rfl)
  · intro y
    rw [add_zero]
    refine (Streams.between_outgoing hs hstreams y).mono ?_
    rintro ⟨rfl, hnone⟩
    show (Function.update s.nodes _ _ _).tasks.task _ = _
    rw [Function.update_self]
    exact hover hnone
  · intro y _
    rw [add_zero]
    exact (hkeeps.inbound _).trans (hin _)
  · intro y
    refine ⟨fun hy => if_neg ?_, fun _ => rfl⟩
    rintro rfl
    exact hy rfl

/-- A frame is taken off the stream and held, or the task ends. -/
theorem drifts_read (hs : Orderly format K s.streams)
    (h : s.step format verifier K (.read x) = some t) :
    Drifts K s t ∧ Orderly format K t.streams := by
  simp only [step] at h
  obtain ⟨streams, hstreams, h⟩ := Option.bind_eq_some_iff.1 h
  obtain ⟨tasks, htasks, h⟩ := Option.bind_eq_some_iff.1 h
  cases h
  unfold Tasks.take at htasks
  have hallowed : Streams.Allowed (fun x => (K.place x).1) (fun _ => true) s.streams
      (x, .next) := trivial
  refine ⟨?_, hs.step hallowed hstreams⟩
  rcases Streams.between_next hs hstreams with ⟨hnone, hbetween⟩ | ⟨e, hsome, hlast, hbetween⟩
  · have hover : ¬ (streams x).buffer.isSome = true := by simp [hnone]
    rw [if_neg hover] at htasks
    exact .of_keeps (Tasks.keeps_closed htasks).1 hbetween
  · rw [if_pos hsome, hlast, Option.bind_some] at htasks
    obtain ⟨hstays, hout, hin⟩ := Tasks.stays_read htasks
    refine .of (fun _ => 0) (fun y => if other y = x then {e} else 0) hstays rfl ?_ ?_ ?_ ?_ ?_
    · intro y _
      rw [add_zero]
      show Remains _ (tasks.outbound _ + _) (_ + _)
      rw [hout]
      exact .of_eq rfl
    · intro y
      rw [add_zero]
      exact .of_eq (hbetween y)
    · intro y hy
      show tasks.inbound _ = _
      rw [hin]
      congr 1
      refine if_congr ⟨fun hplace => ?_, fun hyx => by rw [hyx]⟩ rfl rfl
      exact K.place_injective (Prod.ext hy hplace)
    · intro y
      refine ⟨fun _ => rfl, fun hy => if_neg ?_⟩
      rintro rfl
      exact hy rfl
    · intro c hc
      show tasks.inbound c = _
      rw [hin, if_neg, add_zero]
      rintro rfl
      rw [K.endAt_place] at hc
      cases hc

end Steps

end Fabric

end ProofMarket
