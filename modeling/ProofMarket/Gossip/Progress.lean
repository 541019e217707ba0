import Mathlib.Data.Finset.Card
import Mathlib.Data.Finset.Range
import ProofMarket.Gossip.Queues
import ProofMarket.Lib.Transition

/-!
# When a node comes to a standstill

The only way to get stuck is a circle: the run loop waits for room in the full queue of a
connection, and the task of this connection waits for room in `incoming`, which is full as well.

**Theorem (`tasks_progress`).** There is no circle while the remotes are paced: a frame is read only
as long as the run loop keeps up, or the queues of the tasks that wait for it have places left. The
fill levels that make a circle impossible are kept by everything a node does by itself. Beyond them
it may run into a circle by itself (`exists_circle`).

The circle is within reach of two connections (`standstill`): one remote sends fast enough, and the
task of the other connection reads a frame at the wrong moment.
-/

namespace ProofMarket.Tasks

/-- The connection's task waits for room in `incoming` and leaves its own queue full. -/
def Jammed (s : Tasks) (c : ConnectionId) : Prop :=
  ∃ e outgoing, s.task c = .holding e outgoing ∧ outgoing.Full ∧ s.incoming.Full

/-- The run loop waits for room in the queue of a task that waits for the run loop. -/
def Circle (s : Tasks) : Prop := ∃ c e rest, s.pending = (c, e) :: rest ∧ s.Jammed c

/-- Something is queued somewhere. -/
def Busy (s : Tasks) : Prop := s.incoming.items ≠ [] ∨ ∃ c, (s.task c).queued ≠ []

variable {verifier : Verifier} {s t : Tasks} {c : ConnectionId} {r : ConnectionTask}

theorem setTask_self (t : ConnectionTask) : (s.setTask c t).task c = t :=
  Function.update_self ..

theorem setTask_of_ne {d : ConnectionId} (h : d ≠ c) (t : ConnectionTask) :
    (s.setTask c t).task d = s.task d :=
  Function.update_of_ne h ..

theorem setTask_task (h : s.task c = r) : s.setTask c r = s := by
  subst h
  rw [setTask, Function.update_eq_self]

/-- The run loop gets on while there is a place in the queue. -/
theorem exists_send (verifier : Verifier) {e : GossipEnvelope}
    {rest : List (ConnectionId × GossipEnvelope)} (hpending : s.pending = (c, e) :: rest)
    (hroom : (s.task c).queued.length < 64) :
    ∃ r, s.step verifier .send = some ({ s with pending := rest }.setTask c r) := by
  cases htask : s.task c with
  | ended =>
    have hkept : { s with pending := rest }.setTask c .ended = { s with pending := rest } :=
      setTask_task htask
    exact ⟨.ended, by simp only [step, hpending, htask, hkept]⟩
  | selecting outgoing =>
    rw [htask] at hroom
    obtain ⟨q, hpush⟩ := Channel.exists_push (Nat.ne_of_lt hroom) e
    exact ⟨.selecting q, by simp only [step, hpending, htask, hpush]; rfl⟩
  | holding held outgoing =>
    rw [htask] at hroom
    obtain ⟨q, hpush⟩ := Channel.exists_push (Nat.ne_of_lt hroom) e
    exact ⟨.holding held q, by simp only [step, hpending, htask, hpush]; rfl⟩

theorem step_write (verifier : Verifier) {outgoing : Channel 64 GossipEnvelope}
    (h : s.task c = .selecting outgoing) (hne : outgoing.items ≠ []) :
    ∃ q, outgoing.items.length = q.items.length + 1 ∧
      s.step verifier (.write c) = some (s.setTask c (.selecting q)) := by
  obtain ⟨e, rest, hpop⟩ := Channel.exists_pop hne
  refine ⟨rest, ?_, by simp only [step, h, hpop]; rfl⟩
  rw [Channel.pop_eq_some hpop, List.length_cons]

theorem step_enqueue (verifier : Verifier) {e : GossipEnvelope}
    {outgoing : Channel 64 GossipEnvelope} (h : s.task c = .holding e outgoing)
    (hroom : ¬ s.incoming.Full) : ∃ t, s.step verifier (.enqueue c) = some t := by
  obtain ⟨incoming, hpush⟩ := Channel.exists_push hroom (e, c)
  simp [step, h, hpush]

theorem exists_step_of_queued (hne : (s.task c).queued ≠ []) (hroom : ¬ s.incoming.Full) :
    ∃ l t, l.internal = true ∧ s.step verifier l = some t := by
  cases htask : s.task c with
  | selecting outgoing =>
    rw [htask] at hne
    obtain ⟨q, -, ht⟩ := step_write verifier htask hne
    exact ⟨.write c, _, rfl, ht⟩
  | holding e outgoing =>
    obtain ⟨t, ht⟩ := step_enqueue verifier htask hroom
    exact ⟨.enqueue c, t, rfl, ht⟩
  | ended =>
    rw [htask] at hne
    exact absurd rfl hne

/-- **No circle, no standstill.** -/
theorem exists_step (hbusy : s.Busy) (hcircle : ¬ s.Circle) :
    ∃ l t, l.internal = true ∧ s.step verifier l = some t := by
  cases hpending : s.pending with
  | nil =>
    -- The run loop is in its select.
    by_cases hempty : s.incoming.items = []
    · have hroom : ¬ s.incoming.Full := by
        unfold Channel.Full
        rw [hempty]
        decide
      rcases hbusy with hin | ⟨c, hc⟩
      · exact absurd hempty hin
      · exact exists_step_of_queued hc hroom
    · obtain ⟨⟨e, source⟩, incoming, hpop⟩ := Channel.exists_pop hempty
      exact ⟨.receive .trivial, _, rfl, by simp only [step, hpending, hpop]; rfl⟩
  | cons x rest =>
    obtain ⟨c, e⟩ := x
    by_cases hroom : (s.task c).queued.length < 64
    · obtain ⟨r, hsend⟩ := exists_send verifier hpending hroom
      exact ⟨.send, _, rfl, hsend⟩
    · -- The run loop waits for the task.
      cases htask : s.task c with
      | ended =>
        rw [htask] at hroom
        exact absurd (Nat.zero_lt_succ 63) hroom
      | selecting outgoing =>
        rw [htask] at hroom
        have hfull : outgoing.Full := Channel.full_of_not_lt hroom
        obtain ⟨q, -, ht⟩ := step_write verifier htask (hfull.ne_nil (by decide))
        exact ⟨.write c, _, rfl, ht⟩
      | holding held outgoing =>
        rw [htask] at hroom
        have hin : ¬ s.incoming.Full := fun hin =>
          hcircle ⟨c, e, rest, hpending, held, outgoing, htask, Channel.full_of_not_lt hroom, hin⟩
        obtain ⟨t, ht⟩ := step_enqueue verifier htask hin
        exact ⟨.enqueue c, t, rfl, ht⟩

/-! ## Fill levels -/

/-- The connections whose tasks hold a frame. -/
def holders (s : Tasks) : Finset ConnectionId :=
  (Finset.range s.nextConnectionId).filter fun c => (s.task c).holds

/-- The frames that have been read and that the run loop has not received. -/
def unprocessed (s : Tasks) : ℕ := s.incoming.items.length + s.holders.card

/-- The envelopes that a task has to write, with those that the run loop has yet to send to it. -/
def waiting (s : Tasks) (c : ConnectionId) : ℕ :=
  (s.pending.map Prod.fst).count c + (s.task c).queued.length

/-- No task that holds a frame can be caught in a circle: `incoming` has a place for its frame, or
the run loop will have got down to this before the task's own queue is full. -/
def Roomy (s : Tasks) : Prop :=
  s.unprocessed ≤ 256 ∨ ∀ c, (s.task c).holds → s.waiting c + s.unprocessed ≤ 321

/-- A remote may have its next frame read if, with this frame, at most 256 are unprocessed, or if
for every task that then holds a frame they come to at most 321 together with what is waiting for
it. -/
def Paced (s : Tasks) : Label → Prop
  | .read c _ => s.unprocessed < 256 ∨
      ∀ d, d = c ∨ (s.task d).holds → s.waiting d + s.unprocessed < 321
  | _ => True

/-- What the steps keep: the run loop sends to each connection once, a task starts with its
connection, and there is room. -/
structure Ready (s : Tasks) : Prop where
  distinct : (s.pending.map Prod.fst).Nodup
  started : ∀ c, s.nextConnectionId ≤ c → s.task c = .ended
  roomy : s.Roomy

theorem Ready.lt (hs : s.Ready) (h : s.task c ≠ .ended) : c < s.nextConnectionId := by
  by_contra hnot
  exact h (hs.started c (Nat.not_lt.1 hnot))

theorem Ready.mem_holders (hs : s.Ready) (h : (s.task c).holds = true) : c ∈ s.holders := by
  have hne : s.task c ≠ .ended := by
    intro hended
    rw [hended] at h
    cases h
  exact Finset.mem_filter.2 ⟨Finset.mem_range.2 (hs.lt hne), h⟩

/-- **There is no circle where there is room.** A circle takes 257 frames that are unprocessed, and
65 envelopes that are waiting. -/
theorem Ready.not_circle (hs : s.Ready) : ¬ s.Circle := by
  rintro ⟨c, e, rest, hpending, held, outgoing, htask, hfull, hin⟩
  have hholds : (s.task c).holds = true := by
    rw [htask]
    rfl
  have hframes : 257 ≤ s.unprocessed := by
    have hpos := Finset.card_pos.2 ⟨c, hs.mem_holders hholds⟩
    have hlength : s.incoming.items.length = 256 := hin
    unfold unprocessed
    omega
  have hwaiting : 65 ≤ s.waiting c := by
    have hlength : outgoing.items.length = 64 := hfull
    simp only [waiting, hpending, htask, List.map_cons, List.count_cons_self,
      ConnectionTask.queued]
    omega
  rcases hs.roomy with hframes' | hsum
  · omega
  · have hc := hsum c hholds
    omega

/-- Room is kept while no frames are read. -/
theorem Roomy.mono (h : s.Roomy) (hframes : t.unprocessed ≤ s.unprocessed)
    (htask : ∀ c, (t.task c).holds = true → (s.task c).holds = true ∧
      t.waiting c + t.unprocessed ≤ s.waiting c + s.unprocessed) : t.Roomy := by
  rcases h with h | h
  · exact .inl (hframes.trans h)
  · right
    intro c hc
    obtain ⟨hold, hle⟩ := htask c hc
    exact hle.trans (h c hold)

theorem nodup_relays {node : GossipNode} {rng : Shuffle} {e : GossipEnvelope}
    {source : ConnectionId} : (node.relays rng e source).Nodup := by
  unfold GossipNode.relays GossipNode.pickPeers
  have heligible := node.distinct.filter fun id => some id ≠ some source
  split_ifs
  · dsimp only
    split_ifs
    · exact ((rng.perm _).nodup_iff.2 heligible).sublist (List.take_sublist _ _)
    · exact heligible
  · exact List.nodup_nil

theorem nodup_sends {node : GossipNode} {rng : Shuffle} {source : ConnectionId}
    {d : Option GossipEnvelope} : ((sends node rng source d).map Prod.fst).Nodup := by
  cases d with
  | none => exact List.nodup_nil
  | some e =>
    have hfst : ((node.relays rng e source).map fun c => (c, e.countDown)).map Prod.fst =
        node.relays rng e source := by
      rw [List.map_map]
      exact List.map_id _
    show (((node.relays rng e source).map fun c => (c, e.countDown)).map Prod.fst).Nodup
    rw [hfst]
    exact nodup_relays

/-! ### What a step changes -/

theorem holders_setTask {r : ConnectionTask} (hr : r.holds = false) :
    (s.setTask c r).holders = s.holders.erase c := by
  ext d
  by_cases hd : d = c
  · subst hd
    simp [holders, setTask_self, hr]
  · simp only [holders, Finset.mem_filter, Finset.mem_erase, setTask_of_ne hd]
    exact ⟨fun h => ⟨hd, h⟩, fun h => h.2⟩

theorem holders_congr (hnext : t.nextConnectionId = s.nextConnectionId)
    (htask : ∀ c, (t.task c).holds = (s.task c).holds) : t.holders = s.holders := by
  simp only [holders, hnext, htask]

theorem Ready.setTask (hs : s.Ready) {r : ConnectionTask} (hc : c < s.nextConnectionId)
    (hold : (s.task c).holds = false) (hr : r.holds = false) : (s.setTask c r).Ready := by
  have hholders : (s.setTask c r).holders = s.holders := by
    rw [holders_setTask hr, Finset.erase_eq_of_notMem]
    intro hmem
    rw [(Finset.mem_filter.1 hmem).2] at hold
    cases hold
  have hframes : (s.setTask c r).unprocessed = s.unprocessed := by
    simp only [unprocessed, hholders]
    rfl
  refine ⟨hs.distinct, ?_, hs.roomy.mono hframes.le ?_⟩
  · intro d hd
    have hne : d ≠ c := (hc.trans_le hd).ne'
    rw [setTask_of_ne hne]
    exact hs.started d hd
  · intro d hd
    have hne : d ≠ c := by
      rintro rfl
      rw [setTask_self, hr] at hd
      cases hd
    rw [setTask_of_ne hne] at hd
    refine ⟨hd, ?_⟩
    rw [hframes]
    simp only [waiting, setTask_of_ne hne]
    exact Nat.le_refl _

/-- What the run loop does with the next envelope. -/
theorem send_cases (h : s.step verifier .send = some t) :
    ∃ c e rest r, s.pending = (c, e) :: rest ∧ t = { s with pending := rest }.setTask c r ∧
      (s.task c = .ended → r = .ended) ∧ r.holds = (s.task c).holds ∧
      r.queued.length ≤ (s.task c).queued.length + 1 := by
  simp only [step] at h
  split at h
  · cases h
  · rename_i c e rest hpending
    cases htask : s.task c with
    | ended =>
      rw [htask] at h
      cases h
      have hkept : { s with pending := rest }.setTask c .ended = { s with pending := rest } :=
        setTask_task htask
      exact ⟨c, e, rest, .ended, hpending, hkept.symm, fun _ => rfl, by rw [htask],
        Nat.zero_le _⟩
    | selecting outgoing =>
      rw [htask] at h
      obtain ⟨q, hpush, h⟩ := Option.bind_eq_some_iff.1 h
      cases h
      refine ⟨c, e, rest, .selecting q, hpending, rfl, ?_, by rw [htask]; rfl, ?_⟩
      · rw [htask]
        rintro ⟨⟩
      · rw [htask, ConnectionTask.queued, (Channel.push_eq_some hpush).2, List.length_append]
        exact Nat.le_refl _
    | holding held outgoing =>
      rw [htask] at h
      obtain ⟨q, hpush, h⟩ := Option.bind_eq_some_iff.1 h
      cases h
      refine ⟨c, e, rest, .holding held q, hpending, rfl, ?_, by rw [htask]; rfl, ?_⟩
      · rw [htask]
        rintro ⟨⟩
      · rw [htask, ConnectionTask.queued, (Channel.push_eq_some hpush).2, List.length_append]
        exact Nat.le_refl _

theorem Ready.sent (hs : s.Ready) {e : GossipEnvelope} {rest : List (ConnectionId × GossipEnvelope)}
    (hpending : s.pending = (c, e) :: rest) (hended : s.task c = .ended → r = .ended)
    (hholds : r.holds = (s.task c).holds)
    (hqueued : r.queued.length ≤ (s.task c).queued.length + 1) :
    ({ s with pending := rest }.setTask c r).Ready := by
  have hfst : s.pending.map Prod.fst = c :: rest.map Prod.fst := by
    rw [hpending, List.map_cons]
  have hnodup := hs.distinct
  rw [hfst] at hnodup
  have hsame : ∀ d, (({ s with pending := rest }.setTask c r).task d).holds =
      (s.task d).holds := by
    intro d
    by_cases hdc : d = c
    · subst hdc
      rw [setTask_self, hholds]
    · rw [setTask_of_ne hdc]
  have hframes : ({ s with pending := rest }.setTask c r).unprocessed = s.unprocessed := by
    have hholders : ({ s with pending := rest }.setTask c r).holders = s.holders :=
      holders_congr rfl hsame
    rw [unprocessed, unprocessed, hholders]
    rfl
  refine ⟨(List.nodup_cons.1 hnodup).2, ?_, hs.roomy.mono hframes.le ?_⟩
  · intro d hd
    by_cases hdc : d = c
    · subst hdc
      rw [setTask_self]
      exact hended (hs.started d hd)
    · rw [setTask_of_ne hdc]
      exact hs.started d hd
  · intro d hd
    rw [hsame] at hd
    refine ⟨hd, ?_⟩
    rw [hframes]
    by_cases hdc : d = c
    · subst hdc
      simp only [waiting, hfst, setTask_self, List.count_cons_self]
      show (rest.map Prod.fst).count d + r.queued.length + _ ≤ _
      omega
    · simp only [waiting, hfst, setTask_of_ne hdc, List.count_cons_of_ne (Ne.symm hdc)]
      exact Nat.le_refl _

theorem Ready.spawnConnection (hs : s.Ready) : s.spawnConnection.Ready := by
  have hnew : s.spawnConnection.task s.nextConnectionId = .selecting .empty :=
    Function.update_self ..
  have hold : ∀ d, d ≠ s.nextConnectionId → s.spawnConnection.task d = s.task d :=
    fun d hd => Function.update_of_ne hd ..
  have hholders : s.spawnConnection.holders = s.holders := by
    ext d
    constructor
    · intro hd
      obtain ⟨hlt, hholds⟩ := Finset.mem_filter.1 hd
      have hne : d ≠ s.nextConnectionId := by
        rintro rfl
        rw [hnew] at hholds
        cases hholds
      rw [hold d hne] at hholds
      have hle := Nat.le_of_lt_succ (Finset.mem_range.1 hlt)
      exact Finset.mem_filter.2 ⟨Finset.mem_range.2 (Nat.lt_of_le_of_ne hle hne), hholds⟩
    · intro hd
      obtain ⟨hlt, hholds⟩ := Finset.mem_filter.1 hd
      have hlt' := Finset.mem_range.1 hlt
      refine Finset.mem_filter.2 ⟨Finset.mem_range.2 (Nat.lt_succ_of_lt hlt'), ?_⟩
      rw [hold d hlt'.ne]
      exact hholds
  have hframes : s.spawnConnection.unprocessed = s.unprocessed := by
    rw [unprocessed, unprocessed, hholders]
    rfl
  refine ⟨hs.distinct, ?_, hs.roomy.mono hframes.le ?_⟩
  · intro d hd
    have hlt : s.nextConnectionId < d := hd
    rw [hold d hlt.ne']
    exact hs.started d hlt.le
  · intro d hd
    have hne : d ≠ s.nextConnectionId := by
      rintro rfl
      rw [hnew] at hd
      cases hd
    rw [hold d hne] at hd
    refine ⟨hd, ?_⟩
    rw [hframes, waiting, waiting, hold d hne]
    exact Nat.le_refl _

/-- The run loop has received an envelope. There is one frame less, and at most one envelope more
for each connection. -/
theorem Ready.received (hs : s.Ready) {x : GossipEnvelope × ConnectionId}
    (hpending : s.pending = []) (hin : s.incoming.items = x :: t.incoming.items)
    (hnext : t.nextConnectionId = s.nextConnectionId) (htask : t.task = s.task)
    (hdistinct : (t.pending.map Prod.fst).Nodup) : t.Ready := by
  have hholders : t.holders = s.holders := holders_congr hnext fun d => by rw [htask]
  have hframes : t.unprocessed + 1 = s.unprocessed := by
    rw [unprocessed, unprocessed, hholders, hin, List.length_cons]
    omega
  refine ⟨hdistinct, ?_, hs.roomy.mono (by omega) ?_⟩
  · rw [hnext, htask]
    exact hs.started
  · intro d hd
    rw [htask] at hd
    refine ⟨hd, ?_⟩
    have honce : (t.pending.map Prod.fst).count d ≤ 1 := List.nodup_iff_count_le_one.1 hdistinct d
    simp only [waiting, hpending, htask, List.map_nil, List.count_nil]
    omega

theorem Ready.readFrame (hs : s.Ready) {e : GossipEnvelope} {outgoing : Channel 64 GossipEnvelope}
    (htask : s.task c = .selecting outgoing) (hpaced : s.Paced (.read c e)) :
    (s.setTask c (.holding e outgoing)).Ready := by
  have hc : c < s.nextConnectionId := hs.lt (by rw [htask]; rintro ⟨⟩)
  have hframes : (s.setTask c (.holding e outgoing)).unprocessed ≤ s.unprocessed + 1 := by
    have hsub : (s.setTask c (.holding e outgoing)).holders ⊆ insert c s.holders := by
      intro d hd
      by_cases hdc : d = c
      · exact Finset.mem_insert.2 (.inl hdc)
      · obtain ⟨hlt, hholds⟩ := Finset.mem_filter.1 hd
        rw [setTask_of_ne hdc] at hholds
        exact Finset.mem_insert_of_mem (Finset.mem_filter.2 ⟨hlt, hholds⟩)
    have hcard := (Finset.card_le_card hsub).trans (Finset.card_insert_le c s.holders)
    show s.incoming.items.length + (s.setTask c (.holding e outgoing)).holders.card ≤
      s.incoming.items.length + s.holders.card + 1
    omega
  have hwaiting : ∀ d, (s.setTask c (.holding e outgoing)).waiting d = s.waiting d := by
    intro d
    by_cases hdc : d = c
    · subst hdc
      simp only [waiting, setTask_self, htask]
      rfl
    · simp only [waiting, setTask_of_ne hdc]
      rfl
  refine ⟨hs.distinct, ?_, ?_⟩
  · intro d hd
    have hne : d ≠ c := (hc.trans_le hd).ne'
    rw [setTask_of_ne hne]
    exact hs.started d hd
  · rcases hpaced with hroom | hsum
    · exact .inl (by omega)
    · right
      intro d hd
      rw [hwaiting]
      have hlt : s.waiting d + s.unprocessed < 321 := by
        by_cases hdc : d = c
        · exact hsum d (.inl hdc)
        · rw [setTask_of_ne hdc] at hd
          exact hsum d (.inr hd)
      omega

/-- A frame in `incoming` is as unprocessed as one that a task holds. -/
theorem unprocessed_enqueued {e : GossipEnvelope} {outgoing : Channel 64 GossipEnvelope}
    {incoming : Channel 256 (GossipEnvelope × ConnectionId)} (hmem : c ∈ s.holders)
    (hin : incoming.items = s.incoming.items ++ [(e, c)]) :
    ({ s with incoming := incoming }.setTask c (.selecting outgoing)).unprocessed =
      s.unprocessed := by
  have hcard := Finset.card_erase_add_one hmem
  rw [unprocessed, unprocessed, holders_setTask rfl]
  show incoming.items.length + (s.holders.erase c).card = _
  rw [hin, List.length_append, List.length_singleton]
  omega

theorem Ready.enqueued (hs : s.Ready) {e : GossipEnvelope}
    {outgoing : Channel 64 GossipEnvelope} {incoming : Channel 256 (GossipEnvelope × ConnectionId)}
    (htask : s.task c = .holding e outgoing)
    (hin : incoming.items = s.incoming.items ++ [(e, c)]) :
    ({ s with incoming := incoming }.setTask c (.selecting outgoing)).Ready := by
  have hholds : (s.task c).holds = true := by
    rw [htask]
    rfl
  have hframes := @unprocessed_enqueued _ _ e outgoing incoming (hs.mem_holders hholds) hin
  refine ⟨hs.distinct, ?_, hs.roomy.mono hframes.le ?_⟩
  · intro d hd
    have hne : d ≠ c := by
      rintro rfl
      rw [hs.started d hd] at htask
      cases htask
    rw [setTask_of_ne hne]
    exact hs.started d hd
  · intro d hd
    have hne : d ≠ c := by
      rintro rfl
      rw [setTask_self] at hd
      cases hd
    rw [setTask_of_ne hne] at hd
    refine ⟨hd, ?_⟩
    rw [hframes]
    simp only [waiting, setTask_of_ne hne]
    exact Nat.le_refl _

/-- **Every step leaves room**, if the remotes are paced. -/
theorem Ready.step (hs : s.Ready) {l : Label} (hl : s.Paced l) (h : s.step verifier l = some t) :
    t.Ready := by
  cases l with
  | opened =>
    cases h
    exact hs.spawnConnection
  | receive rng =>
    simp only [Tasks.step] at h
    split at h
    · rename_i e source incoming hpending hpop
      cases h
      exact hs.received hpending (Channel.pop_eq_some hpop) rfl rfl nodup_sends
    · cases h
  | send =>
    obtain ⟨c, e, rest, r, hpending, rfl, hended, hholds, hqueued⟩ := send_cases h
    exact hs.sent hpending hended hholds hqueued
  | read c e =>
    simp only [Tasks.step] at h
    split at h
    · rename_i outgoing htask
      cases h
      exact hs.readFrame htask hl
    · cases h
  | enqueue c =>
    simp only [Tasks.step] at h
    split at h
    · rename_i e outgoing htask
      obtain ⟨incoming, hpush, h⟩ := Option.bind_eq_some_iff.1 h
      cases h
      exact hs.enqueued htask (Channel.push_eq_some hpush).2
    · cases h
  | write c =>
    simp only [Tasks.step] at h
    split at h
    · rename_i outgoing htask
      obtain ⟨⟨e, q⟩, -, h⟩ := Option.bind_eq_some_iff.1 h
      cases h
      refine hs.setTask (hs.lt ?_) ?_ rfl
      · rw [htask]
        rintro ⟨⟩
      · rw [htask]
        rfl
    · cases h
  | closed c =>
    simp only [Tasks.step] at h
    split at h
    · rename_i outgoing htask
      cases h
      refine hs.setTask (hs.lt ?_) ?_ rfl
      · rw [htask]
        rintro ⟨⟩
      · rw [htask]
        rfl
    · cases h

theorem ready_new (peerId : PeerId) (config : GossipConfig) : (new peerId config).Ready :=
  ⟨List.nodup_nil, fun _ _ => rfl, .inl (Nat.zero_le 256)⟩

/-- **The tasks get on** in every state of a run whose remotes are paced. -/
theorem tasks_progress (verifier : Verifier) (peerId : PeerId) (config : GossipConfig) {s : Tasks}
    (hrun : Transition.Steps (Tasks.step verifier) Paced (new peerId config) s) :
    (s.Busy → ∃ l t, l.internal = true ∧ s.step verifier l = some t) ∧ ¬ s.Circle := by
  have hready : s.Ready :=
    hrun.invariant (I := Ready) (fun s l t hs hl h => hs.step hl h) (ready_new peerId config)
  exact ⟨fun hbusy => exists_step hbusy hready.not_circle, hready.not_circle⟩

/-! ### Without room -/

/-- A run of the node by itself. -/
abbrev Alone (verifier : Verifier) : Tasks → Tasks → Prop :=
  Transition.Steps (Tasks.step verifier) fun _ l => l.internal = true

/-- The other tasks fill `incoming` up. -/
theorem exists_full (verifier : Verifier) {e : GossipEnvelope} {q : Channel 64 GossipEnvelope}
    (m : ℕ) : ∀ {s : Tasks}, s.task c = .holding e q → s.incoming.items.length + m = 256 →
      257 ≤ s.unprocessed → ∃ t, Alone verifier s t ∧ t.incoming.Full ∧ t.task c = .holding e q ∧
        t.pending = s.pending := by
  induction m with
  | zero =>
    intro s htask hlength _
    exact ⟨s, .refl, hlength, htask, rfl⟩
  | succ m ih =>
    intro s htask hlength hframes
    have htwo : 1 < s.holders.card := by
      unfold unprocessed at hframes
      omega
    obtain ⟨d, hmem, hne⟩ := Finset.exists_mem_ne htwo c
    have hroom : ¬ s.incoming.Full := by
      unfold Channel.Full
      omega
    cases hd : s.task d with
    | selecting | ended =>
      have hholds := (Finset.mem_filter.1 hmem).2
      rw [hd] at hholds
      cases hholds
    | holding f outgoing =>
      obtain ⟨incoming, hpush⟩ := Channel.exists_push hroom (f, d)
      have hitems := (Channel.push_eq_some hpush).2
      let u := { s with incoming := incoming }.setTask d (.selecting outgoing)
      have henqueue : s.step verifier (.enqueue d) = some u := by
        simp only [step, hd, hpush]
        rfl
      have hcu : u.task c = .holding e q := (setTask_of_ne hne.symm _).trans htask
      have hlength' : u.incoming.items.length + m = 256 := by
        show incoming.items.length + m = 256
        rw [hitems, List.length_append, List.length_singleton]
        omega
      have hframes' : 257 ≤ u.unprocessed :=
        hframes.trans (unprocessed_enqueued hmem hitems).ge
      obtain ⟨t, hut, hfull, hct, hpending⟩ := ih hcu hlength' hframes'
      exact ⟨t, .cons (.enqueue d) rfl henqueue hut, hfull, hct, hpending⟩

/-- The run loop gets on to the full queue, or to another one that nobody empties. -/
theorem exists_circle_of_full (verifier : Verifier) {e : GossipEnvelope}
    {q : Channel 64 GossipEnvelope} (hfull : q.Full) :
    ∀ (rest : List (ConnectionId × GossipEnvelope)) {s : Tasks}, s.pending = rest →
      s.task c = .holding e q → s.incoming.Full → c ∈ rest.map Prod.fst →
        ∃ t, Alone verifier s t ∧ t.Circle := by
  intro rest
  induction rest with
  | nil =>
    intro s _ _ _ hmem
    cases hmem
  | cons x rest ih =>
    obtain ⟨d, f⟩ := x
    intro s hpending htask hin hmem
    by_cases hdc : d = c
    · subst hdc
      exact ⟨s, .refl, d, f, rest, hpending, e, q, htask, hfull, hin⟩
    · have hrest : c ∈ rest.map Prod.fst := (List.mem_cons.1 hmem).resolve_left (Ne.symm hdc)
      -- With a place in the other queue, the envelope goes in.
      have hroomy : ∀ {u : Tasks}, u.pending = (d, f) :: rest → u.task c = .holding e q →
          u.incoming.Full → (u.task d).queued.length < 64 →
            ∃ t, Alone verifier u t ∧ t.Circle := by
        intro u hup huc huin hroom
        obtain ⟨r, hsend⟩ := exists_send verifier hup hroom
        obtain ⟨t, ht, hcircle⟩ := ih (s := { u with pending := rest }.setTask d r) rfl
          ((setTask_of_ne (Ne.symm hdc) r).trans huc) huin hrest
        exact ⟨t, .cons .send rfl hsend ht, hcircle⟩
      by_cases hroom : (s.task d).queued.length < 64
      · exact hroomy hpending htask hin hroom
      · cases hd : s.task d with
        | ended =>
          rw [hd] at hroom
          exact absurd (Nat.zero_lt_succ 63) hroom
        | holding held outgoing =>
          rw [hd] at hroom
          exact ⟨s, .refl, d, f, rest, hpending, held, outgoing, hd, Channel.full_of_not_lt hroom,
            hin⟩
        | selecting outgoing =>
          rw [hd] at hroom
          have hfull' : outgoing.Full := Channel.full_of_not_lt hroom
          obtain ⟨r, hlength, hwrite⟩ := step_write verifier hd (hfull'.ne_nil (by decide))
          have hroom' : ((s.setTask d (.selecting r)).task d).queued.length < 64 := by
            have hbound := outgoing.bounded
            rw [setTask_self]
            show r.items.length < 64
            omega
          obtain ⟨t, ht, hcircle⟩ := hroomy (u := s.setTask d (.selecting r)) hpending
            ((setTask_of_ne (Ne.symm hdc) _).trans htask) hin hroom'
          exact ⟨t, .cons (.write d) rfl hwrite ht, hcircle⟩

/-- **Without room** a node may run into a circle by itself: 257 frames are unprocessed, and the run
loop is on its way to the full queue of a task that holds one of them. -/
theorem exists_circle (verifier : Verifier) {e : GossipEnvelope} {q : Channel 64 GossipEnvelope}
    (htask : s.task c = .holding e q) (hfull : q.Full) (hpending : c ∈ s.pending.map Prod.fst)
    (hframes : 257 ≤ s.unprocessed) : ∃ t, Alone verifier s t ∧ t.Circle := by
  have hlength : s.incoming.items.length + (256 - s.incoming.items.length) = 256 :=
    Nat.add_sub_of_le s.incoming.bounded
  obtain ⟨u, hsu, hin, huc, hup⟩ := exists_full verifier _ htask hlength hframes
  obtain ⟨t, hut, hcircle⟩ := exists_circle_of_full verifier hfull _ hup huc hin hpending
  exact ⟨t, hsu.trans hut, hcircle⟩

/-! ## A standstill -/

section Standstill

open Transition LittleEndian

/-- Every signature is valid. -/
abbrev valid : Verifier := fun _ _ _ => true

/-- Runs of a node on which its remotes put any load. -/
abbrev Reaches (s t : Tasks) : Prop := Steps (Tasks.step valid) Any s t

def floodId (n : ℕ) : MessageId := ⟨.ofBytes 32 (toLe 32 n)⟩

/-- What the remote of connection 1 sends. -/
def flood (n : ℕ) : GossipEnvelope :=
  ⟨floodId n, ⟨.fill 32 1⟩, 3, .claimRejected ⟨.fill 32 7⟩ "", .fill 64 0⟩

theorem floodId_inj {m n : ℕ} (hm : m < 256 ^ 32) (hn : n < 256 ^ 32)
    (h : floodId m = floodId n) : m = n := by
  have hval : (floodId m).bytes.val = (floodId n).bytes.val := by rw [h]
  have hbytes : ∀ k, (floodId k).bytes.val = toLe 32 k := fun k =>
    FixedBytes.ofBytes_val (length_toLe 32 k)
  rw [hbytes, hbytes] at hval
  rw [← ofLe_toLe_of_lt hm, hval, ofLe_toLe_of_lt hn]

/-- A task reads a frame and gets it into `incoming`. -/
theorem reaches_flood {q : Channel 64 GossipEnvelope} (htask : s.task c = .selecting q)
    (hroom : ¬ s.incoming.Full) (e : GossipEnvelope) :
    ∃ t, Reaches s t ∧ t.node = s.node ∧ t.pending = s.pending ∧ t.task = s.task ∧
      t.incoming.items = s.incoming.items ++ [(e, c)] := by
  obtain ⟨incoming, hpush⟩ := Channel.exists_push hroom (e, c)
  let u := s.setTask c (.holding e q)
  let t := { u with incoming := incoming }.setTask c (.selecting q)
  have hread : s.step valid (.read c e) = some u := by
    simp only [step, htask]
    rfl
  have henqueue : u.step valid (.enqueue c) = some t := by
    have hu : u.task c = .holding e q := setTask_self _
    have hpush' : u.incoming.push (e, c) = some incoming := hpush
    simp only [step, hu, hpush']
    rfl
  refine ⟨t, .cons _ trivial hread (.cons _ trivial henqueue .refl), rfl, rfl, ?_,
    (Channel.push_eq_some hpush).2⟩
  funext d
  by_cases hd : d = c
  · subst hd
    rw [htask]
    exact setTask_self _
  · exact (setTask_of_ne hd _).trans (setTask_of_ne hd _)

theorem reaches_floods {q : Channel 64 GossipEnvelope} (e : GossipEnvelope) (m : ℕ) :
    ∀ {s : Tasks}, s.task c = .selecting q → s.incoming.items.length + m ≤ 256 →
      ∃ t, Reaches s t ∧ t.node = s.node ∧ t.pending = s.pending ∧ t.task = s.task ∧
        t.incoming.items = s.incoming.items ++ List.replicate m (e, c) := by
  induction m with
  | zero =>
    intro s _ _
    exact ⟨s, .refl, rfl, rfl, rfl, by simp⟩
  | succ m ih =>
    intro s htask hlength
    have hroom : ¬ s.incoming.Full := by
      unfold Channel.Full
      omega
    obtain ⟨u, hsu, hnode, hpending, htasks, hitems⟩ := reaches_flood htask hroom e
    have hmore : u.incoming.items.length + m ≤ 256 := by
      rw [hitems, List.length_append, List.length_singleton]
      omega
    obtain ⟨t, hut, hnode', hpending', htasks', hitems'⟩ := ih (htasks ▸ htask) hmore
    refine ⟨t, hsu.trans hut, hnode'.trans hnode, hpending'.trans hpending,
      htasks'.trans htasks, ?_⟩
    rw [hitems', hitems, List.append_assoc, List.replicate_succ]
    rfl

/-- Two connections; `n` envelopes from 1 wait to be written on 0, and the run loop has nothing to
do. -/
structure Flooded (n : ℕ) (s : Tasks) : Prop where
  ids : s.node.ids = [0, 1]
  config : s.node.config = .new
  seen : ∀ id ∈ s.node.seen, ∃ m < n, id = floodId m
  idle : s.pending = []
  slow : ∃ q, s.task 0 = .selecting q ∧ q.items.length = n
  fast : ∃ q, s.task 1 = .selecting q ∧ q.items = []
  rest : ∀ c, c ≠ 0 → c ≠ 1 → s.task c = .ended

/-- The run loop takes a new envelope from connection 1, which it has to send on connection 0. -/
theorem Flooded.receive {n : ℕ} (hs : Flooded n s) (hn : n < 256 ^ 32)
    {more : List (GossipEnvelope × ConnectionId)}
    (hin : s.incoming.items = (flood n, 1) :: more) :
    ∃ t, Reaches s t ∧ t.task = s.task ∧ t.incoming.items = more ∧
      t.pending = [(0, (flood n).countDown)] ∧ t.node.ids = [0, 1] ∧ t.node.config = .new ∧
      ∀ id ∈ t.node.seen, ∃ m < n + 1, id = floodId m := by
  have hunseen : (flood n).id ∉ s.node.seen := by
    intro hmem
    obtain ⟨m, hm, hid⟩ := hs.seen _ hmem
    have hmn := floodId_inj hn (hm.trans hn) hid
    omega
  have hnew : (s.node.processIncoming valid .trivial (flood n) 1).2 = some (flood n) ∧
      (s.node.processIncoming valid .trivial (flood n) 1).1.seen =
        GossipNode.putSeen s.node.config.seenCacheSize (flood n).id s.node.seen :=
    GossipNode.processIncoming_new rfl hunseen
  have hne : s.incoming.items ≠ [] := by simp [hin]
  obtain ⟨x, incoming, hpop⟩ := Channel.exists_pop hne
  have hitems := Channel.pop_eq_some hpop
  rw [hin] at hitems
  obtain ⟨rfl, hmore⟩ := List.cons.inj hitems
  have hrelays : s.node.relays .trivial (flood n) 1 = [0] := by
    have hids : s.node.connections.map ConnectionHandle.id = [0, 1] := hs.ids
    simp [GossipNode.relays, GossipNode.pickPeers, hids, hs.config, flood, GossipConfig.new]
  let outcome := s.node.processIncoming valid .trivial (flood n) 1
  let t : Tasks :=
    { s with
      node := outcome.1
      fresh := by
        rw [GossipNode.ids_processIncoming]
        exact s.fresh
      incoming := incoming
      pending := sends s.node .trivial 1 outcome.2 }
  have hreceive : s.step valid (.receive .trivial) = some t := by
    simp only [step, hs.idle, hpop]
    rfl
  refine ⟨t, .cons _ trivial hreceive .refl, rfl, hmore.symm, ?_, ?_, ?_, ?_⟩
  · show sends s.node .trivial 1 outcome.2 = _
    rw [show outcome.2 = some (flood n) from hnew.1]
    simp [sends, hrelays]
  · exact GossipNode.ids_processIncoming.trans hs.ids
  · exact GossipNode.config_processIncoming.trans hs.config
  · intro id hid
    rw [show t.node.seen = _ from hnew.2] at hid
    rcases List.mem_cons.1 (List.mem_of_mem_take hid) with rfl | hold
    · exact ⟨n, Nat.lt_succ_self n, rfl⟩
    · obtain ⟨m, hm, hidm⟩ := hs.seen id (List.mem_of_mem_erase hold)
      exact ⟨m, Nat.lt_succ_of_lt hm, hidm⟩

theorem Flooded.grow {n : ℕ} (hs : Flooded n s) (hn : n < 64) (hin : s.incoming.items = []) :
    ∃ t, Reaches s t ∧ Flooded (n + 1) t ∧ t.incoming.items = [] := by
  obtain ⟨q, hfast, hq⟩ := hs.fast
  have hroom : ¬ s.incoming.Full := by simp [Channel.Full, hin]
  obtain ⟨u, hsu, hnode, hpending, htask, hitems⟩ := reaches_flood hfast hroom (flood n)
  rw [hin, List.nil_append] at hitems
  have hu : Flooded n u :=
    ⟨hnode ▸ hs.ids, hnode ▸ hs.config, hnode ▸ hs.seen, hpending.trans hs.idle, htask ▸ hs.slow,
      htask ▸ hs.fast, htask ▸ hs.rest⟩
  obtain ⟨v, huv, hvtask, hvin, hvpending, hvids, hvconfig, hvseen⟩ :=
    hu.receive (hn.trans (by decide)) hitems
  obtain ⟨slow, hslow, hlength⟩ := hu.slow
  have hfree : ¬ slow.Full := by
    rw [Channel.Full, hlength]
    omega
  obtain ⟨slow', hpush⟩ := Channel.exists_push hfree (flood n).countDown
  let t := { v with pending := [] }.setTask 0 (.selecting slow')
  have hsend : v.step valid .send = some t := by
    have hv : v.task 0 = .selecting slow := by
      rw [hvtask]
      exact hslow
    simp only [step, hvpending, hv, hpush]
    rfl
  refine ⟨t, hsu.trans (huv.trans (Steps.cons _ trivial hsend .refl)), ?_, hvin⟩
  refine ⟨hvids, hvconfig, hvseen, rfl, ⟨slow', setTask_self _, ?_⟩, ⟨q, ?_, hq⟩, ?_⟩
  · rw [(Channel.push_eq_some hpush).2, List.length_append, hlength]
    rfl
  · refine (setTask_of_ne (by decide) _).trans ?_
    show v.task 1 = _
    rw [hvtask, htask]
    exact hfast
  · intro c h0 h1
    refine (setTask_of_ne h0 _).trans ?_
    show v.task c = _
    rw [hvtask]
    exact hu.rest c h0 h1

/-- Connection 0 has never been written on. -/
theorem exists_flooded (n : ℕ) (hn : n ≤ 64) :
    ∃ s, Reaches (new ⟨.fill 32 9⟩ .new) s ∧ Flooded n s ∧ s.incoming.items = [] := by
  induction n with
  | zero =>
    refine ⟨_, .cons .opened trivial rfl (.cons .opened trivial rfl .refl), ?_, rfl⟩
    refine ⟨rfl, rfl, ?_, rfl, ⟨.empty, rfl, rfl⟩, ⟨.empty, rfl, rfl⟩, ?_⟩
    · intro id hid
      cases hid
    · intro c h0 h1
      exact (Function.update_of_ne h1 _ _).trans (Function.update_of_ne h0 _ _)
  | succ n ih =>
    obtain ⟨s, hs, hflooded, hin⟩ := ih (by omega)
    obtain ⟨t, hst, ht, hin'⟩ := hflooded.grow (by omega) hin
    exact ⟨t, hs.trans hst, ht, hin'⟩

/-- Nothing can move: the run loop waits for connection 0, and both tasks hold a frame for which
`incoming` has no room. -/
structure Still (s : Tasks) : Prop where
  full : s.incoming.Full
  waits : ∃ e rest, s.pending = (0, e) :: rest
  slow : ∃ e q, s.task 0 = .holding e q ∧ q.Full
  fast : ∃ e q, s.task 1 = .holding e q
  rest : ∀ c, c ≠ 0 → c ≠ 1 → s.task c = .ended

theorem Still.stuck (hs : Still s) {l : Label} (hl : l.internal = true) :
    s.step verifier l = none := by
  obtain ⟨e, rest, hpending⟩ := hs.waits
  obtain ⟨held, q, hslow, hfull⟩ := hs.slow
  obtain ⟨held', q', hfast⟩ := hs.fast
  cases l with
  | receive rng => simp [step, hpending]
  | send => simp [step, hpending, hslow, Channel.push_of_full hfull]
  | enqueue c =>
    by_cases h0 : c = 0
    · simp [step, h0, hslow, Channel.push_of_full hs.full]
    · by_cases h1 : c = 1
      · simp [step, h1, hfast, Channel.push_of_full hs.full]
      · simp [step, hs.rest c h0 h1]
  | write c =>
    by_cases h0 : c = 0
    · simp [step, h0, hslow]
    · by_cases h1 : c = 1
      · simp [step, h1, hfast]
      · simp [step, hs.rest c h0 h1]
  | opened => cases hl
  | read c e => cases hl
  | closed c => cases hl

theorem exists_still : ∃ s, Reaches (new ⟨.fill 32 9⟩ .new) s ∧ Still s := by
  obtain ⟨s, hs, hflooded, hin⟩ := exists_flooded 64 le_rfl
  obtain ⟨q, hfast, -⟩ := hflooded.fast
  -- The remote of connection 1 fills `incoming`.
  obtain ⟨u, hsu, hnode, hpending, htask, hitems⟩ :=
    reaches_floods (flood 64) 256 hfast (by simp [hin])
  rw [hin, List.nil_append] at hitems
  have hu : Flooded 64 u :=
    ⟨hnode ▸ hflooded.ids, hnode ▸ hflooded.config, hnode ▸ hflooded.seen,
      hpending.trans hflooded.idle, htask ▸ hflooded.slow, htask ▸ hflooded.fast,
      htask ▸ hflooded.rest⟩
  -- The run loop takes an envelope and waits for connection 0, and the place is taken again.
  obtain ⟨v, huv, hvtask, hvin, hvpending, -, -, -⟩ := hu.receive (by decide) hitems
  have hvfast : v.task 1 = .selecting q := by
    rw [hvtask, htask]
    exact hfast
  have hvroom : ¬ v.incoming.Full := by
    rw [Channel.Full, hvin, List.length_replicate]
    decide
  obtain ⟨w, hvw, -, hwpending, hwtask, hwitems⟩ := reaches_flood hvfast hvroom (flood 64)
  obtain ⟨slow, hslow, hlength⟩ := hu.slow
  have hwslow : w.task 0 = .selecting slow := by
    rw [hwtask, hvtask]
    exact hslow
  have hwfull : w.incoming.Full := by
    rw [Channel.Full, hwitems, hvin, List.length_append, List.length_replicate]
    rfl
  -- Both tasks read another frame.
  let x := w.setTask 0 (.holding (flood 0) slow)
  let y := x.setTask 1 (.holding (flood 0) q)
  have hreadSlow : w.step valid (.read 0 (flood 0)) = some x := by
    simp only [step, hwslow]
    rfl
  have hreadFast : x.step valid (.read 1 (flood 0)) = some y := by
    have hx : x.task 1 = .selecting q := by
      refine (setTask_of_ne (by decide) _).trans ?_
      rw [hwtask]
      exact hvfast
    simp only [step, hx]
    rfl
  refine ⟨y, hs.trans (hsu.trans (huv.trans (hvw.trans
    (Steps.cons _ trivial hreadSlow (Steps.cons _ trivial hreadFast .refl))))), hwfull,
    ⟨(flood 64).countDown, [], hwpending.trans hvpending⟩, ⟨flood 0, slow, ?_, hlength⟩,
    ⟨flood 0, q, setTask_self _⟩, ?_⟩
  · exact (setTask_of_ne (by decide) _).trans (setTask_self _)
  · intro c h0 h1
    refine (setTask_of_ne h1 _).trans ((setTask_of_ne h0 _).trans ?_)
    rw [hwtask, hvtask]
    exact hu.rest c h0 h1

/-- **Standstill**: the queues are full, and no task can take a step. -/
theorem standstill :
    ¬ ∀ s, Reaches (new ⟨.fill 32 9⟩ .new) s →
      (s.Busy → ∃ l t, l.internal = true ∧ s.step valid l = some t) ∧ ¬ s.Circle := by
  intro hall
  obtain ⟨s, hrun, hstill⟩ := exists_still
  have hbusy : s.Busy := .inl (hstill.full.ne_nil (by decide))
  obtain ⟨l, t, hl, hstep⟩ := (hall s hrun).1 hbusy
  rw [hstill.stuck hl] at hstep
  cases hstep

/-- One remote sends a frame, and the run loop can take it. -/
theorem tasks_progress_read :
    ∃ s, Steps (Tasks.step valid) Paced (new ⟨.fill 32 9⟩ .new) s ∧ s.Busy ∧
      ∃ l t, l.internal = true ∧ s.step valid l = some t := by
  let a := (new ⟨.fill 32 9⟩ .new).spawnConnection
  let b := a.setTask 0 (.holding (flood 0) .empty)
  let s := { b with incoming := ⟨[(flood 0, 0)], by decide⟩ }.setTask 0 (.selecting .empty)
  have hrun : Steps (Tasks.step valid) Paced (new ⟨.fill 32 9⟩ .new) s := by
    refine Steps.cons .opened trivial rfl (Steps.cons (.read 0 (flood 0)) ?_ rfl
      (Steps.cons (.enqueue 0) trivial rfl .refl))
    exact .inl (by decide)
  have hbusy : s.Busy := .inl (List.cons_ne_nil _ _)
  exact ⟨s, hrun, hbusy, (tasks_progress valid ⟨.fill 32 9⟩ .new hrun).1 hbusy⟩

end Standstill

end ProofMarket.Tasks
