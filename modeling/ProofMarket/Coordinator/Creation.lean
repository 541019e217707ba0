import ProofMarket.Coordinator.Completions
import ProofMarket.Coordinator.Requests

/-!
# `create_job` across the chain and the coordinator

A request moves ETH into the registry, writes the job map and sends a message, in this order, and
the first cannot be undone. Atomic would be: all of it and an answer, or none of it and an error.

`submit_job` takes any receipt for a success and any failure of `get_receipt` for a failure. The
registry executes a submission if its id is free, it carries ETH and it is in time. So a request is
atomic exactly when its transaction met such a registry, or one that held the same job already, if
there is a receipt, and did not if there is none (`Accurate`): `creation_atomic`. `creation_torn`
has a request with either discrepancy.
-/

namespace ProofMarket

open Registry (Deployment World Act Msg Submission)

open Coordinator

/-! ## What the registry does with a submission -/

/-- What `submitJobCall` submits. -/
def submission (job : Job) (msg : Msg) : Submission where
  msg := msg
  jobId := job.id
  payload := job.payload
  deadline := job.deadline.toNat

/-- What `submitJob` asks for: a free id, ETH, and that it is in time. -/
def Submittable (job : Job) (msg : Msg) (w : World) : Prop :=
  (w.jobs job.id).exists = false ∧ 0 < msg.value ∧ msg.timestamp < job.deadline.toNat

instance (job : Job) (msg : Msg) (w : World) : Decidable (Submittable job msg w) :=
  inferInstanceAs (Decidable (_ ∧ _ ∧ _))

/-- **A submission is executed** when it is submittable. Otherwise it changes nothing. -/
theorem exec_submitJobCall (D : Deployment) (job : Job) (msg : Msg) (w : World) :
    (Registry.machine D).exec (submitJobCall job msg) w =
      if Submittable job msg w then (w.submit (submission job msg), true) else (w, false) := by
  unfold submitJobCall
  cases hop : (Registry.machine D).op (msg, .submitJob job.id job.payload job.deadline.toNat) w with
  | revert e =>
    rw [CallTree.Machine.exec_call_revert hop, if_neg]
    rintro ⟨hfree, hvalue, htime⟩
    have hpos := Nat.pos_iff_ne_zero.1 hvalue
    have hlate := Nat.not_le.2 htime
    simp [Registry.machine, Registry.submitJob, hfree, hpos, hlate] at hop
  | done w' =>
    obtain ⟨sub, hsub, hfree, hvalue, htime, rfl⟩ := Registry.op_done hop
    obtain ⟨msg, jobId, payload, deadline⟩ := sub
    cases hsub
    rw [CallTree.Machine.exec_call_done hop, if_pos ⟨hfree, hvalue, htime⟩]
    rfl
  | yield outer inner k =>
    obtain ⟨p, hpay, -⟩ := Registry.op_yield hop
    cases hpay

/-- Somebody's `submitJob` for the job was executed, with its payload, reward and deadline. -/
def Submitted (w : World) (job : Job) : Prop :=
  ∃ sub ∈ w.submissions, sub.jobId = job.id ∧ sub.payload = job.payload ∧
    sub.msg.value = job.reward.toNat ∧ sub.deadline = job.deadline.toNat

/-- The registry holds the job, open or closed. -/
structure Holds (w : World) (job : Job) : Prop where
  found : (w.jobs job.id).exists = true
  payload : (w.jobs job.id).payload = job.payload
  reward : (w.jobs job.id).reward = job.reward.toNat
  deadline : (w.jobs job.id).deadline = job.deadline.toNat

theorem Submitted.mono {w w' : World} (h : w.Le w') {job : Job} (hs : Submitted w job) :
    Submitted w' job := by
  obtain ⟨sub, hsub, hjob⟩ := hs
  exact ⟨sub, h.submissions.subset hsub, hjob⟩

theorem holds_iff {D : Deployment} {w : World} (h : Registry.Inv D [] w) (job : Job) :
    Holds w job ↔ Submitted w job := by
  constructor
  · intro hholds
    obtain ⟨sub, hsub, hid⟩ := List.mem_map.1 ((h.exists_iff job.id).1 hholds.found)
    have hstored := h.stored sub hsub
    rw [hid] at hstored
    have hpayload := hholds.payload
    have hreward := hholds.reward
    have hdeadline := hholds.deadline
    rw [hstored] at hpayload hreward hdeadline
    exact ⟨sub, hsub, hid, hpayload, hreward, hdeadline⟩
  · rintro ⟨sub, hsub, hid, hpayload, hreward, hdeadline⟩
    have hstored := h.stored sub hsub
    rw [hid] at hstored
    refine ⟨?_, ?_, ?_, ?_⟩ <;> rw [hstored]
    · rfl
    · exact hpayload
    · exact hreward
    · exact hdeadline

/-- What a registry holds of a job that it will hold later: the same, unless somebody submits it in
between. -/
theorem Holds.of_mono {D : Deployment} {v w : World} (hv : Registry.Inv D [] v)
    (hw : Registry.Inv D [] w) (hle : v.Le w) {job : Job} (h : Holds w job)
    (hfound : (v.jobs job.id).exists = true) : Holds v job := by
  obtain ⟨sub, hsub, hid, hjob⟩ := (holds_iff hw job).1 h
  obtain ⟨sub', hsub', hid'⟩ := List.mem_map.1 ((hv.exists_iff job.id).1 hfound)
  have hsame : sub' = sub := List.inj_on_of_nodup_map hw.submissions_nodup
    (hle.submissions.subset hsub') hsub (hid'.trans hid.symm)
  exact (holds_iff hv job).2 ⟨sub, hsame ▸ hsub', hid, hjob⟩

/-! ## What a request has done -/

namespace Tx

/-- Its transaction met a registry in which it could be executed. -/
def Executable (tx : Tx) (x : Execution) : Prop := Submittable tx.job x.msg x.world

instance (tx : Tx) (x : Execution) : Decidable (tx.Executable x) :=
  inferInstanceAs (Decidable (Submittable _ _ _))

end Tx

namespace Request

/-- The ETH that is locked for a transaction: none, unless it could be executed. -/
structure Paid (D : Deployment) (w : World) (tx : Tx) (locked : Nat) : Prop where
  pending : tx.executed = none → locked = 0
  inv : ∀ x, tx.executed = some x → Registry.Inv D [] x.world
  le : ∀ x, tx.executed = some x → x.world.Le w
  value : ∀ x, tx.executed = some x → x.msg.value = tx.job.reward.toNat
  done : ∀ x, tx.executed = some x → tx.Executable x → 0 < locked ∧ Submitted w tx.job
  reverted : ∀ x, tx.executed = some x → ¬ tx.Executable x → locked = 0

/-- The requests there can be, with a contract client. -/
inductive Sound (D : Deployment) (w : World) : Request → Prop where
  | refused (e : ErrorResponse) : Sound D w ⟨.returned (.error e), none, none, [], 0⟩
  | sending (job : Job) : Sound D w ⟨.sending job, none, none, [], 0⟩
  | awaiting {tx : Tx} {locked : Nat} : Paid D w tx locked →
      Sound D w ⟨.awaiting tx.job, some tx, none, [], locked⟩
  | lost {tx : Tx} {locked : Nat} (e : ErrorResponse) (e' : String) : Paid D w tx locked →
      Sound D w ⟨.returned (.error e), some tx, some (.error e'), [], locked⟩
  | storing {tx : Tx} {locked : Nat} : tx.executed.isSome = true → Paid D w tx locked →
      Sound D w ⟨.storing tx.job (some tx.hash), some tx, some (.ok tx.hash), [], locked⟩
  | announcing {tx : Tx} {locked : Nat} : tx.executed.isSome = true → Paid D w tx locked →
      Sound D w ⟨.announcing tx.job (some tx.hash), some tx, some (.ok tx.hash), [.stored tx.job],
        locked⟩
  | created {tx : Tx} {locked : Nat} : tx.executed.isSome = true → Paid D w tx locked →
      Sound D w ⟨.returned (.ok (createJobResponse tx.job (some tx.hash))), some tx,
        some (.ok tx.hash), [.stored tx.job, .announced tx.job], locked⟩

variable {D : Deployment} {w w' : World} {r r' : Request}

theorem Paid.mono {tx : Tx} {locked : Nat} (hle : w.Le w') (h : Paid D w tx locked) :
    Paid D w' tx locked :=
  { h with
    le := fun x hx => (h.le x hx).trans hle
    done := fun x hx hok => (h.done x hx hok).imp_right fun hs => hs.mono hle }

theorem Sound.mono (hle : w.Le w') (h : Sound D w r) : Sound D w' r := by
  cases h with
  | refused e => exact .refused e
  | sending job => exact .sending job
  | awaiting hp => exact .awaiting (hp.mono hle)
  | lost e e' hp => exact .lost e e' (hp.mono hle)
  | storing hex hp => exact .storing hex (hp.mono hle)
  | announcing hex hp => exact .announcing hex (hp.mono hle)
  | created hex hp => exact .created hex (hp.mono hle)

theorem paid_pending (D : Deployment) (w : World) (job : Job) (hash : TxHash) :
    Paid D w ⟨job, hash, none⟩ 0 :=
  ⟨fun _ => rfl, nofun, nofun, nofun, nofun, nofun⟩

theorem Sound.next {t : Turn} {l : Option Backend.Label} (h : Sound D w r)
    (hnext : Next r t r' l) : Sound D w r' := by
  cases hnext with
  | @sent job hash hs =>
    cases h <;> cases hs
    exact .awaiting (paid_pending D w job hash)
  | sendFailed hs =>
    cases h <;> cases hs
    exact .refused _
  | receipt hs htx =>
    cases h <;> cases hs
    rename_i hp
    cases htx
    exact .storing rfl hp
  | receiptFailed hs =>
    cases h <;> cases hs
    rename_i hp
    exact .lost _ _ hp
  | insert hs =>
    cases h <;> cases hs
    rename_i hex hp
    exact .announcing hex hp
  | announce hs =>
    cases h <;> cases hs
    rename_i hex hp
    exact .created hex hp

theorem paid_exec (hw : Registry.Inv D [] w) (job : Job) (hash : TxHash) (msg : Msg)
    (hvalue : msg.value = job.reward.toNat) :
    let out := (Registry.machine D).exec (submitJobCall job msg) w
    Paid D out.1 ⟨job, hash, some ⟨msg, w, out.2⟩⟩ (out.1.balance - w.balance) := by
  intro out
  have hout : out = _ := exec_submitJobCall D job msg w
  refine ⟨nofun, ?_, ?_, ?_, ?_, ?_⟩ <;> rintro _ ⟨⟩
  · exact hw
  · exact (Registry.grows D).exec _ w
  · exact hvalue
  · intro hok
    rw [hout, if_pos (show Submittable job msg w from hok)]
    refine ⟨?_, _, List.mem_append_right _ (List.mem_singleton_self _), rfl, rfl, hvalue, rfl⟩
    simpa [World.submit, submission] using hok.2.1
  · intro hno
    rw [hout, if_neg (show ¬ Submittable job msg w from hno)]
    exact Nat.sub_self _

theorem Sound.mined (h : Sound D w r) {job : Job} {hash : TxHash}
    (htx : r.tx = some ⟨job, hash, none⟩) {msg : Msg} {out : World × Bool}
    (hp : Paid D out.1 ⟨job, hash, some ⟨msg, w, out.2⟩⟩ (out.1.balance - w.balance)) :
    Sound D out.1 (r.mined job hash msg w out) := by
  cases h with
  | refused | sending => cases htx
  | awaiting =>
    cases htx
    exact .awaiting hp
  | lost e e' =>
    cases htx
    exact .lost e e' hp
  | storing hex | announcing hex | created hex =>
    cases htx
    cases hex

end Request

theorem Backend.Step.contract_eq {D : Deployment} {b b' : Backend} {l : Backend.Label}
    {ms : List GossipMessage} (h : Backend.Step D b l b' ms) : b'.contract = b.contract := by
  cases h <;> rfl

theorem Request.Next.chain_eq {D : Deployment} {r r' : Request} {t : Turn}
    {l : Option Backend.Label} (h : Next r t r' l) {b b' : Backend}
    (hstep : Api.perform D b l = some b') : b'.chain = b.chain := by
  cases h with
  | sent | receipt =>
    cases hstep
    rfl
  | sendFailed | receiptFailed | insert | announce =>
    obtain ⟨ms, hbstep⟩ := Backend.Step.of_next hstep
    cases hbstep
    rfl

/-- The transaction of a request was executed by then. -/
def Request.Before (time : Nat) (r : Request) : Prop :=
  ∀ tx, r.tx = some tx → ∀ x, tx.executed = some x → x.msg.timestamp ≤ time

/-- A transaction carries the timestamp. -/
def Entry.At (time : Nat) : Entry → Prop
  | .own _ timestamp _ => timestamp = time
  | .other tx => tx.2.All fun i => i.1.timestamp = time

namespace Api

variable {D : Deployment} {P : Parsers} {signer : Address} {s s' : Api}

/-! ## Runs -/

structure Inv (D : Deployment) (s : Api) : Prop where
  chain : s.backend.chain.Ok D
  contract : s.backend.contract = true
  sound : ∀ r ∈ s.requests, r.Sound D s.world

theorem sound_execute (n : Nat) {p : Chain × List Request}
    (h : Registry.Inv D [] p.1.world ∧ ∀ r ∈ p.2, r.Sound D p.1.world) (e : Entry) :
    let q := execute D signer n p e
    Registry.Inv D [] q.1.world ∧ ∀ r ∈ q.2, r.Sound D q.1.world := by
  rcases execute_cases D signer n p e with ⟨tx, -, he⟩ |
    ⟨i, r, job, hash, timestamp, verify, -, hr, htx, he⟩ | he
  · rw [he]
    refine ⟨CallTree.Machine.Sound.exec (Registry.Inv.sound D) h.1 tx.2, fun r hr => ?_⟩
    exact (h.2 r hr).mono ((Registry.grows D).exec tx.2 p.1.world)
  · rw [he]
    refine ⟨CallTree.Machine.Sound.exec (Registry.Inv.sound D) h.1 _, fun r' hr' => ?_⟩
    rcases List.mem_or_eq_of_mem_set hr' with hr' | rfl
    · exact (h.2 r' hr').mono ((Registry.grows D).exec _ p.1.world)
    · exact (h.2 r (List.mem_of_getElem? hr)).mined htx (Request.paid_exec h.1 job hash _ rfl)
  · rw [he]
    exact h

theorem foldl_execute {I : Chain × List Request → Prop} {n : Nat} {entries : List Entry}
    (hstep : ∀ p, ∀ e ∈ entries, I p → I (execute D signer n p e)) {p : Chain × List Request}
    (h : I p) : I (entries.foldl (execute D signer n) p) := by
  induction entries generalizing p with
  | nil => exact h
  | cons e entries ih =>
    exact ih (fun q e' he' => hstep q e' (List.mem_cons_of_mem _ he'))
      (hstep p e List.mem_cons_self h)

theorem Inv.world_le (h : Inv D s) {l : Label} (hstep : s.step D P signer l = some s') :
    s.world.Le s'.world ∧ s'.backend.chain.Ok D ∧ s'.backend.contract = s.backend.contract := by
  rcases (Step.of_step hstep).backend with hb | ⟨bl, hb⟩
  · have hworld : s'.world = s.world := congrArg (fun b : Backend => b.chain.world) hb
    rw [hworld, hb]
    exact ⟨.refl _, h.chain, rfl⟩
  · obtain ⟨ms, hbstep⟩ := Backend.Step.of_next hb
    exact ⟨(hbstep.extends h.chain).world, hbstep.chain_ok h.chain, hbstep.contract_eq⟩

theorem Inv.step (h : Inv D s) {l : Label} (hstep : s.step D P signer l = some s') : Inv D s' := by
  obtain ⟨hle, hchain, hcontract⟩ := h.world_le hstep
  refine ⟨hchain, hcontract.trans h.contract, ?_⟩
  have hold : ∀ r ∈ s.requests, r.Sound D s'.world := fun r hr => (h.sound r hr).mono hle
  have happend : ∀ new : Request, new.Sound D s'.world →
      ∀ r ∈ s.requests ++ [new], r.Sound D s'.world := by
    intro new hnew r hr
    rcases List.mem_append.1 hr with hr | hr
    · exact hold r hr
    · rw [List.mem_singleton.1 hr]
      exact hnew
  cases Step.of_step hstep with
  | refused => exact happend _ (.refused _)
  | accepted =>
    refine happend _ ?_
    rw [h.contract]
    exact .sending _
  | turn hr hnext =>
    intro q hq
    rcases List.mem_or_eq_of_mem_set hq with hq | rfl
    · exact hold q hq
    · exact (hold _ (List.mem_of_getElem? hr)).next (.of_next hnext)
  | mine =>
    exact (foldl_execute
      (I := fun p => Registry.Inv D [] p.1.world ∧ ∀ r ∈ p.2, r.Sound D p.1.world)
      (fun p e _ hp => sound_execute _ hp e) (p := (s.backend.chain, s.requests))
      ⟨h.chain.inv, h.sound⟩).2
  | rest => exact hold

/-! ## Atomicity -/

/-- All of it and an answer, or none of it and an error. -/
def Atomic (w : World) (r : Request) : Except ErrorResponse CreateJobResponse → Prop
  | .ok response => ∃ job, r.effects = [.stored job, .announced job] ∧
      (∀ j : JobId, hexId j.bytes = response.jobId ↔ j = job.id) ∧ Holds w job
  | .error _ => r.effects = [] ∧ r.locked = 0

/-- The answer of `get_receipt` fits the registry that the transaction met. With a receipt, the id
was free, the reward positive and the deadline ahead, or the registry held the same job already;
without one, the transaction is not executed yet or could not be. -/
def Accurate (r : Request) : Prop :=
  ∀ tx, r.tx = some tx → ∀ answer, r.receipt = some answer → ∀ x, tx.executed = some x →
    match answer with
    | .ok _ => tx.Executable x ∨ Holds x.world tx.job
    | .error _ => ¬ tx.Executable x

/-- A request that never got its receipt is atomic when it locked nothing. -/
theorem atomic_lost {w : World} {tx : Tx} {locked : Nat} (e : ErrorResponse) (e' : String)
    (hp : Request.Paid D w tx locked) :
    Atomic w ⟨.returned (.error e), some tx, some (.error e'), [], locked⟩ (.error e) ↔
      Accurate ⟨.returned (.error e), some tx, some (.error e'), [], locked⟩ := by
  constructor
  · rintro ⟨-, hnone⟩ _ ⟨⟩ _ ⟨⟩ x hx hok
    have hlocked : 0 < locked := (hp.done x hx hok).1
    have hzero : locked = 0 := hnone
    omega
  · intro haccurate
    refine ⟨rfl, ?_⟩
    cases hx : tx.executed with
    | none => exact hp.pending hx
    | some x => exact hp.reverted x hx (haccurate tx rfl _ rfl x hx)

/-- A request that has gone through is atomic when its transaction could be executed, or was not
needed. -/
theorem atomic_created {w : World} (hinv : Registry.Inv D [] w) {tx : Tx} {locked : Nat}
    (hex : tx.executed.isSome = true) (hp : Request.Paid D w tx locked)
    (haccurate : Accurate ⟨.returned (.ok (createJobResponse tx.job (some tx.hash))), some tx,
      some (.ok tx.hash), [.stored tx.job, .announced tx.job], locked⟩) :
    Atomic w ⟨.returned (.ok (createJobResponse tx.job (some tx.hash))), some tx,
      some (.ok tx.hash), [.stored tx.job, .announced tx.job], locked⟩
      (.ok (createJobResponse tx.job (some tx.hash))) := by
  obtain ⟨x, hx⟩ := Option.isSome_iff_exists.1 hex
  refine ⟨tx.job, rfl, fun j => hexId_eq_iff, (holds_iff hinv tx.job).2 ?_⟩
  rcases haccurate tx rfl _ rfl x hx with hok | hholds
  · exact (hp.done x hx hok).2
  · exact ((holds_iff (hp.inv x hx) tx.job).1 hholds).mono (hp.le x hx)

/-! ## In the order of time -/

/-- The transactions of a block carry its timestamp, and it is not older than a block in which a
request's transaction was executed. -/
def Timely (s : Api) : Label → Prop
  | .mine entries => ∃ time, (∀ e ∈ entries, e.At time) ∧ ∀ r ∈ s.requests, r.Before time
  | _ => True

/-- What the registry `w` has and `v` had not was submitted at `time` or later. -/
def Since (time : Nat) (v w : World) : Prop :=
  ∀ sub ∈ w.submissions, sub ∈ v.submissions ∨ time ≤ sub.msg.timestamp

theorem since_sound (D : Deployment) (v : World) {time now : Nat} (hle : time ≤ now) :
    (Registry.machine D).SoundOn (fun i => i.1.timestamp = now)
      fun (_ : Unit) w => Since time v w where
  poke _ _ _ h := h
  done := by
    intro _ i w w' hi h hop
    obtain ⟨sub, rfl, -, -, -, rfl⟩ := Registry.op_done hop
    intro other hother
    rcases List.mem_append.1 hother with hother | hother
    · exact h other hother
    · obtain rfl := List.mem_singleton.1 hother
      exact .inr (hle.trans_eq hi.symm)
  yield := by
    intro _ i w outer inner k _ h hop
    obtain ⟨p, -, -, rfl, hsent, hfailed⟩ := Registry.op_yield hop
    refine ⟨⟨(), h, ?_⟩, ?_⟩
    · intro t t' ht hk
      rw [hsent t t' hk]
      exact ht
    · intro t' hk
      rw [hfailed] at hk
      cases hk

/-- What is submitted after a request's transaction is not older. -/
def InOrder (w : World) (r : Request) : Prop :=
  ∀ tx, r.tx = some tx → ∀ x, tx.executed = some x → Since x.msg.timestamp x.world w

/-- A request that has gone through and is atomic met a registry that fits. When the id was taken
there, it was taken by the same job; when it was free, the job has been submitted since, and its
deadline was ahead even then. -/
theorem accurate_created {w : World} (hinv : Registry.Inv D [] w) {r : Request} {tx : Tx}
    {locked : Nat} (hp : Request.Paid D w tx locked) (htx : r.tx = some tx)
    (hreceipt : r.receipt = some (.ok tx.hash))
    (heffects : r.effects = [.stored tx.job, .announced tx.job]) (horder : InOrder w r)
    {response : CreateJobResponse} (h : Atomic w r (.ok response)) : Accurate r := by
  obtain ⟨job, hjob, -, hholds⟩ := h
  rw [heffects] at hjob
  obtain rfl : tx.job = job := by
    simpa using hjob
  intro tx' htx' answer hanswer x hx
  obtain rfl : tx = tx' := Option.some.inj (htx.symm.trans htx')
  obtain rfl : .ok tx.hash = answer := Option.some.inj (hreceipt.symm.trans hanswer)
  cases hfound : (x.world.jobs tx.job.id).exists with
  | true => exact .inr (hholds.of_mono (hp.inv x hx) hinv (hp.le x hx) hfound)
  | false =>
    obtain ⟨sub, hsub, hid, -, hvalue, hdeadline⟩ := (holds_iff hinv tx.job).1 hholds
    obtain ⟨hfunded, hintime⟩ := hinv.funded sub hsub
    rcases horder tx htx x hx sub hsub with hold | hlater
    · have hexists := (hp.inv x hx).exists_iff sub.jobId |>.2 (List.mem_map_of_mem hold)
      rw [hid, hfound] at hexists
      cases hexists
    · refine .inl ⟨hfound, ?_, ?_⟩
      · rw [hp.value x hx, ← hvalue]
        exact hfunded
      · rw [← hdeadline]
        exact hlater.trans_lt hintime

theorem Since.exec {v w : World} {time now : Nat} (hle : time ≤ now) {act : Act}
    (hnow : act.All fun i => i.1.timestamp = now) (h : Since time v w) :
    Since time v ((Registry.machine D).exec act w).1 :=
  CallTree.Machine.SoundOn.exec (since_sound D v hle) (p := ()) h act hnow

theorem inOrder_execute {time : Nat} (n : Nat) {p : Chain × List Request}
    (h : ∀ r ∈ p.2, InOrder p.1.world r ∧ r.Before time) {e : Entry} (he : e.At time) :
    let q := execute D signer n p e
    ∀ r ∈ q.2, InOrder q.1.world r ∧ r.Before time := by
  have hkeep : ∀ {tx : TxHash × Act}, (tx.2.All fun i => i.1.timestamp = time) → ∀ r ∈ p.2,
      InOrder (p.1.execute D n tx).world r ∧ r.Before time := by
    intro tx hnow r hr
    obtain ⟨horder, hbefore⟩ := h r hr
    refine ⟨?_, hbefore⟩
    intro tx' htx' x hx
    exact (horder tx' htx' x hx).exec (hbefore tx' htx' x hx) hnow
  rcases execute_cases D signer n p e with ⟨tx, rfl, hq⟩ |
    ⟨i, r, job, hash, timestamp, verify, rfl, hr, htx, hq⟩ | hq
  · rw [hq]
    exact hkeep he
  · obtain rfl : timestamp = time := he
    have hnow : (submitJobCall job (submitJobMsg signer job timestamp verify)).All
        fun i => i.1.timestamp = timestamp :=
      CallTree.Act.all_call.2 ⟨rfl, CallTree.Act.allIn_nil⟩
    rw [hq]
    intro q r' hr'
    rcases List.mem_or_eq_of_mem_set hr' with hr' | rfl
    · exact @hkeep (hash, _) hnow r' hr'
    · refine ⟨?_, ?_⟩ <;> rintro _ ⟨⟩ _ ⟨⟩
      · exact Since.exec (Nat.le_refl _) hnow fun sub hsub => .inl hsub
      · exact Nat.le_refl _
  · rw [hq]
    exact h

theorem inOrder_next {w : World} {r r' : Request} {t : Turn} {l : Option Backend.Label}
    (h : InOrder w r) (hnext : Request.Next r t r' l) : InOrder w r' := by
  cases hnext with
  | sent =>
    rintro _ ⟨⟩ x ⟨⟩
  | _ => exact h

theorem inOrder_step (h : ∀ r ∈ s.requests, InOrder s.world r) {l : Label} (hl : Timely s l)
    (hstep : s.step D P signer l = some s') : ∀ r ∈ s'.requests, InOrder s'.world r := by
  have happend : ∀ new : Request, new.tx = none →
      ∀ r ∈ s.requests ++ [new], InOrder s.world r := by
    intro new hnew r hr
    rcases List.mem_append.1 hr with hr | hr
    · exact h r hr
    · obtain rfl := List.mem_singleton.1 hr
      intro tx htx
      rw [hnew] at htx
      cases htx
  cases Step.of_step hstep with
  | refused => exact happend _ rfl
  | accepted _ hb =>
    cases hb
    exact happend _ rfl
  | @turn i t r r' l b hr hnext hb =>
    have hworld : b.chain.world = s.world := by
      rw [(Request.Next.of_next hnext).chain_eq hb]
    intro q hq
    show InOrder b.chain.world q
    rw [hworld]
    rcases List.mem_or_eq_of_mem_set hq with hq | rfl
    · exact h q hq
    · exact inOrder_next (h _ (List.mem_of_getElem? hr)) (.of_next hnext)
  | mine =>
    obtain ⟨time, htimes, hbefore⟩ := hl
    have hfold : ∀ r ∈ (s.mine D signer _).requests, InOrder (s.mine D signer _).world r ∧
        r.Before time :=
      foldl_execute (I := fun p => ∀ r ∈ p.2, InOrder p.1.world r ∧ r.Before time)
        (fun p e he hp => inOrder_execute _ hp (htimes e he)) fun r hr => ⟨h r hr, hbefore r hr⟩
    exact fun r hr => (hfold r hr).1
  | rest hrest hb =>
    obtain ⟨ms, hbstep⟩ := Backend.Step.of_next hb
    cases hbstep with
    | mine => cases hrest
    | _ => exact h

theorem inv_start (D : Deployment) (prefunded : Nat) (blocks : List (List (TxHash × Act)))
    (defaultDeadlineSecs : UInt64) (m : JobMap) (startBlock : Nat) :
    Inv D (start (Backend.start (Chain.after D prefunded blocks) true defaultDeadlineSecs m
      startBlock)) :=
  ⟨Chain.ok_after D prefunded blocks, rfl, fun _ hr => absurd hr List.not_mem_nil⟩

/-- **A request that has returned was atomic** if the answer of `get_receipt` fits the registry that
its transaction met, and, as long as the clock of the chain does not go back, only then. -/
theorem creation_atomic (D : Deployment) (P : Parsers) (signer : Address) (prefunded : Nat)
    (blocks : List (List (TxHash × Act))) (defaultDeadlineSecs : UInt64) (m : JobMap)
    (startBlock : Nat) (s : Api) (r : Request)
    (result : Except ErrorResponse CreateJobResponse) (hr : r ∈ s.requests)
    (hresult : r.stage = .returned result) :
    let start := start (Backend.start (Chain.after D prefunded blocks) true
      defaultDeadlineSecs m startBlock)
    (Steps D P signer start s → Accurate r → Atomic s.world r result) ∧
      (Transition.Steps (step D P signer) Timely start s → Atomic s.world r result →
        Accurate r) := by
  intro start
  have hstart : Inv D start := inv_start D prefunded blocks defaultDeadlineSecs m startBlock
  constructor
  · intro h haccurate
    have hinv : Inv D s :=
      Transition.Steps.invariant (fun _ _ _ hs _ hst => hs.step hst) h hstart
    cases hinv.sound r hr with
    | sending | awaiting | storing | announcing => cases hresult
    | refused e =>
      cases hresult
      exact ⟨rfl, rfl⟩
    | lost e e' hp =>
      cases hresult
      exact (atomic_lost e e' hp).2 haccurate
    | created hex hp =>
      cases hresult
      exact atomic_created hinv.chain.inv hex hp haccurate
  · intro h hatomic
    obtain ⟨hinv, horder⟩ : Inv D s ∧ ∀ r ∈ s.requests, InOrder s.world r := by
      refine Transition.Steps.invariant
        (I := fun s => Inv D s ∧ ∀ r ∈ s.requests, InOrder s.world r) ?_ h
        ⟨hstart, fun r hr => absurd hr List.not_mem_nil⟩
      rintro s l s' ⟨hs, ho⟩ hl hst
      exact ⟨hs.step hst, inOrder_step ho hl hst⟩
    have hordered := horder r hr
    cases hinv.sound r hr with
    | sending | awaiting | storing | announcing => cases hresult
    | refused e =>
      rintro _ ⟨⟩
    | lost e e' hp =>
      cases hresult
      exact (atomic_lost e e' hp).1 hatomic
    | created hex hp =>
      cases hresult
      exact accurate_created hinv.chain.inv hp rfl rfl rfl hordered hatomic

end Api

namespace Sample

/-- The request for the job, as it arrives. -/
def body : CreateJobBody := ⟨"0x0a00000000000000", 100, none⟩

def parsers : Parsers where
  hexDecode s := if s = "0a00000000000000" then .ok payload else .error "Odd number of digits"
  parseAddress _ := .error "invalid string length"

def signer : Address := ⟨.fill 20 1⟩

/-- A process with no jobs, on a chain with no blocks. -/
def emptyApi : Api := Api.start (Backend.start (Chain.after deployment 0 []) true 300 ∅ 0)

/-- The request is sent at 1000, and its transaction is mined later. -/
def sentAndMined (time : Nat) : List Api.Label :=
  [.request body nonce 1000, .turn 0 (.sent (txHash 1)), .mine [.own 0 time fun _ _ _ => true]]

/-- What there is to see of a request: whether it went through, the jobs it stored and announced,
the ETH it locked, whether its transaction met a registry in which it could be executed and whether
it got the receipt; and whether the registry has the job. -/
structure Outcome where
  success : Option Bool
  effects : List JobId
  locked : Nat
  executable : Option Bool
  receipt : Option Bool
  onChain : Bool
  deriving DecidableEq

def outcome (w : Registry.World) (r : Request) : Outcome where
  success := match r.stage with
    | .returned result => some result.isOk
    | _ => none
  effects := r.effects.map fun
    | .stored job => job.id
    | .announced job => job.id
  locked := r.locked
  executable := r.tx.bind fun tx => tx.executed.map fun x => decide (tx.Executable x)
  receipt := r.receipt.map Except.isOk
  onChain := (w.jobs jobId).exists

/-- What a run of the one request comes to. -/
def outcomeOf (ls : List Api.Label) : Option Outcome :=
  (Transition.run (Api.step deployment parsers signer) ls emptyApi).bind fun s =>
    s.requests.head?.map (outcome s.world)

theorem exists_of_outcomeOf {ls : List Api.Label} {o : Outcome} (h : outcomeOf ls = some o) :
    ∃ s r, Api.Steps deployment parsers signer emptyApi s ∧ r ∈ s.requests ∧
      outcome s.world r = o := by
  obtain ⟨s, hs, hhead⟩ := Option.bind_eq_some_iff.1 h
  obtain ⟨r, hr, ho⟩ := Option.map_eq_some_iff.1 hhead
  exact ⟨s, r, Transition.steps_of_run (fun _ _ _ => trivial) hs, List.mem_of_mem_head? hr, ho⟩

theorem returned_of_outcome {w : Registry.World} {r : Request} {b : Bool}
    (h : (outcome w r).success = some b) :
    ∃ result, r.stage = .returned result ∧ result.isOk = b := by
  simp only [outcome] at h
  split at h
  · rename_i result hstage
    exact ⟨result, hstage, Option.some.inj h⟩
  · cases h

end Sample

namespace Api

open Sample

/-- The receipt arrives, and the request goes through. -/
def success : List Label := [.turn 0 .receipt, .turn 0 .insert, .turn 0 .announce]

theorem creation_atomic_created :
    ∃ s r result, Steps deployment parsers signer emptyApi s ∧ r ∈ s.requests ∧
      r.stage = .returned result ∧ result.isOk = true ∧ r.locked = 100 ∧
        Atomic s.world r result := by
  have hrun : outcomeOf (sentAndMined 1000 ++ success) =
      some ⟨some true, [jobId, jobId], 100, some true, some true, true⟩ := by
    decide +kernel
  obtain ⟨s, r, hs, hr, ho⟩ := exists_of_outcomeOf hrun
  obtain ⟨result, hresult, hok⟩ := returned_of_outcome (congrArg Outcome.success ho)
  have hlocked : r.locked = 100 := congrArg Outcome.locked ho
  have hexecutable : (r.tx.bind fun tx => tx.executed.map fun x => decide (tx.Executable x)) =
      some true := congrArg Outcome.executable ho
  have hreceipt : r.receipt.map Except.isOk = some true := congrArg Outcome.receipt ho
  have haccurate : Accurate r := by
    intro tx htx answer hanswer x hx
    rw [hanswer] at hreceipt
    cases answer with
    | ok => exact .inl (by simpa [htx, hx] using hexecutable)
    | error e => cases hreceipt
  exact ⟨s, r, result, hs, hr, hresult, hok, hlocked,
    (creation_atomic deployment parsers signer 0 [] 300 ∅ 0 s r result hr hresult).1 hs haccurate⟩

/-- The transaction is mined after its deadline and is reverted, and its receipt is taken for a
success. In the other run it is executed, and its receipt does not arrive. -/
theorem creation_torn :
    (∃ s r response, Steps deployment parsers signer emptyApi s ∧ r ∈ s.requests ∧
      r.stage = .returned (.ok response) ∧ ¬ Atomic s.world r (.ok response)) ∧
    ∃ s r e, Steps deployment parsers signer emptyApi s ∧ r ∈ s.requests ∧
      r.stage = .returned (.error e) ∧ ¬ Atomic s.world r (.error e) := by
  constructor
  · have hrun : outcomeOf (sentAndMined 1300 ++ success) =
        some ⟨some true, [jobId, jobId], 0, some false, some true, false⟩ := by
      decide +kernel
    obtain ⟨s, r, hs, hr, ho⟩ := exists_of_outcomeOf hrun
    obtain ⟨result, hresult, hok⟩ := returned_of_outcome (congrArg Outcome.success ho)
    obtain ⟨response, rfl⟩ : ∃ response, result = .ok response := by
      cases result with
      | ok response => exact ⟨response, rfl⟩
      | error e => cases hok
    refine ⟨s, r, response, hs, hr, hresult, ?_⟩
    rintro ⟨job, heffects, -, hholds⟩
    have hids := congrArg Outcome.effects ho
    have hmissing : (s.world.jobs jobId).exists = false := congrArg Outcome.onChain ho
    simp only [outcome, heffects, List.map_cons, List.cons.injEq] at hids
    rw [← hids.1, hholds.found] at hmissing
    cases hmissing
  · have hrun : outcomeOf (sentAndMined 1000 ++ [.turn 0 (.receiptFailed "timeout")]) =
        some ⟨some false, [], 100, some true, some false, true⟩ := by
      decide +kernel
    obtain ⟨s, r, hs, hr, ho⟩ := exists_of_outcomeOf hrun
    obtain ⟨result, hresult, hok⟩ := returned_of_outcome (congrArg Outcome.success ho)
    obtain ⟨e, rfl⟩ : ∃ e, result = .error e := by
      cases result with
      | ok response => cases hok
      | error e => exact ⟨e, rfl⟩
    refine ⟨s, r, e, hs, hr, hresult, ?_⟩
    rintro ⟨-, hnone⟩
    have hlocked : r.locked = 100 := congrArg Outcome.locked ho
    rw [hnone] at hlocked
    cases hlocked

end Api

end ProofMarket
