import Mathlib.Data.Fintype.Vector
import ProofMarket.Network.Cluster
import ProofMarket.Network.Payment

/-!
# The whole deployment

Coordinator and workers on the wire (`Cluster`), with the transactions in which the workers send
their proofs and a chain on which anybody else sends what they like (`Market`).

**Theorem (`refines_market`).** A run of all of it is a run of the market over a lossy network.

**Theorem (`winner_paid`).** In runs in which only workers send proofs for a job, the reward for it
goes to one worker: no other one is ever at work on the job, and no node ever delivers the
acceptance of another one's claim.
-/

namespace ProofMarket

theorem finite_peerId : Finite PeerId := by
  have : Finite UInt8 := .of_injective UInt8.toFin fun _ _ h => UInt8.toFin_inj.1 h
  let bytes (id : PeerId) : List.Vector UInt8 32 := ⟨id.bytes.val, id.bytes.length_eq⟩
  refine .of_injective bytes ?_
  intro a b h
  exact congrArg PeerId.mk (FixedBytes.ext (congrArg Subtype.val h))

structure Marketplace (κ : Type) where
  cluster : Cluster κ
  txs : List ProofTx

namespace Marketplace

variable {κ : Type}

inductive Label (κ : Type) where
  | party (l : Cluster.Label κ)
  | send (key : PeerId) (job : Job) (bundle : ProofBundle) (hash : TxHash)
  | receipt (key : PeerId) (i : Nat)
  | fail (key : PeerId) (job : Job) (bundle : ProofBundle) (e : String)
  | mine (entries : List Market.Entry)

/-- A deployment right after that of the registry. -/
def start (config : PeerId → GossipConfig) (degree : PeerId → Nat) (ids : PeerId → PeerId)
    (prefunded : Nat) (contract : Bool) (defaultDeadlineSecs : UInt64) (startBlock : Nat) :
    Marketplace κ :=
  ⟨.start config degree ids (Chain.genesis prefunded) contract defaultDeadlineSecs startBlock, []⟩

abbrev chain (s : Marketplace κ) : Chain := s.cluster.backend.chain

/-- Mine a block. -/
def mine (C : Setting) (s : Marketplace κ) (entries : List Market.Entry) : Marketplace κ :=
  let n := s.chain.head + 1
  let (chain, txs) := entries.foldl (Market.execute C n) (s.chain, s.txs)
  let backend := { s.cluster.backend with chain := { chain with head := n } }
  { cluster := { s.cluster with backend }, txs }

/-- The labels that the marketplace takes in place of the cluster. -/
def taken : Cluster.Label κ → Bool
  | .coordinator (.mine _) _ _ => true
  | .worker _ (.submitted _ _ _) _ _ => true
  | _ => false

variable [DecidableEq κ]

def step (C : Setting) (N : Site κ) (s : Marketplace κ) : Label κ → Option (Marketplace κ)
  | .party l =>
    if taken l then none
    else (s.cluster.step C.deployment N l).map fun cluster => { s with cluster }
  | .send key job bundle hash =>
    match C.extract bundle with
    | .ok (journal, sealBytes) =>
      let worker := s.cluster.workers key
      if .submitting job bundle ∈ worker.tasks ∧
          ¬ ∃ tx ∈ s.txs, tx.awaited = true ∧ tx.isFor worker.peerId job bundle = true then
        some { s with
          txs := s.txs ++ [⟨worker.peerId, job, bundle, journal, sealBytes, hash, none, true⟩] }
      else none
    | .error _ => none
  | .receipt key i =>
    match s.txs[i]? with
    | some tx =>
      if tx.awaited && tx.executed.isSome && tx.worker = (s.cluster.workers key).peerId then
        (s.cluster.step C.deployment N
          (.worker key (.submitted tx.job tx.bundle (.ok tx.hash)) none [])).map fun cluster =>
            { cluster, txs := s.txs.set i { tx with awaited := false } }
      else none
    | none => none
  | .fail key job bundle e =>
    (s.cluster.step C.deployment N
      (.worker key (.submitted job bundle (.error e)) none [])).map fun cluster =>
        { cluster
          txs := s.txs.map fun tx =>
            if tx.isFor (s.cluster.workers key).peerId job bundle then { tx with awaited := false }
            else tx }
  | .mine entries => some (s.mine C entries)

/-- Runs whose every step satisfies `ok`. -/
abbrev Steps (C : Setting) (N : Site κ) (ok : Marketplace κ → Label κ → Prop) :
    Marketplace κ → Marketplace κ → Prop :=
  Transition.Steps (step C N) ok

omit [DecidableEq κ] in
/-- `create_job` chooses fresh ids. -/
def Fresh (C : Setting) (s : Marketplace κ) : Label κ → Prop
  | .party l => s.cluster.Fresh C.deployment l
  | _ => True

omit [DecidableEq κ] in
/-- The blocks that are mined satisfy `E`. -/
def Blocks (E : List Market.Entry → Prop) (l : Label κ) : Prop :=
  ∀ entries, l = .mine entries → E entries

/-- Nobody but the workers submits proofs for the job, in whatever transaction. -/
def NoRival (j : JobId) (entries : List Market.Entry) : Prop :=
  ∀ tx, .other tx ∈ entries → tx.2.All fun i => i.2.proves j = false

instance (C : Setting) (s : Marketplace κ) (l : Label κ) : Decidable (s.Fresh C l) :=
  match l with
  | .party l => inferInstanceAs (Decidable (s.cluster.Fresh C.deployment l))
  | .receipt _ _ | .send _ _ _ _ | .fail _ _ _ _ | .mine _ => isTrue trivial

/-! ## The market on top -/

/-- The market that stands for the deployment. -/
structure Abstracts (N : Site κ) (ids : PeerId → PeerId) (s : Marketplace κ) (m : Market) :
    Prop where
  cluster : s.cluster.Abstracts N ids m.system
  txs : m.txs = s.txs
  inv : m.system.Inv

variable {C : Setting} {N : Site κ} {ids : PeerId → PeerId} {s s' : Marketplace κ} {m : Market}
  {l : Label κ}

omit [DecidableEq κ] in
theorem Abstracts.peerId (h : Abstracts N ids s m) (key : PeerId) :
    (s.cluster.workers key).peerId = ids key := by
  rw [← h.cluster.workers]
  exact h.inv.peer (ids key)

omit [DecidableEq κ] in
theorem Abstracts.chain (h : Abstracts N ids s m) : m.chain = s.chain :=
  congrArg Backend.chain h.cluster.backend

omit [DecidableEq κ] in
theorem taken_system {l : Cluster.Label κ} {k : System.Label} (h : l.system ids = some k) :
    Market.taken k = taken l := by
  cases l with
  | network => cases h
  | coordinator l | worker key l =>
    cases h
    cases l <;> rfl

theorem Abstracts.submitted (h : Abstracts N ids s m) (hids : Function.Injective ids)
    {key : PeerId} {job : Job} {bundle : ProofBundle} {result : Except String TxHash}
    {cluster : Cluster κ}
    (hst : s.cluster.step C.deployment N (.worker key (.submitted job bundle result) none []) =
      some cluster) :
    ∃ system, m.system.step C.deployment C.members
        (.worker (ids key) (.submitted job bundle result)) = some system ∧
      cluster.Abstracts N ids system := by
  have hfresh : s.cluster.Fresh C.deployment
      (.worker key (.submitted job bundle result) none []) := trivial
  rcases h.cluster.step C.members hids hfresh hst with
    ⟨hnone, -⟩ | ⟨k, system, hk, -, hsystem, habstracts⟩
  · cases hnone
  · cases hk
    exact ⟨system, hsystem, habstracts⟩

omit [DecidableEq κ] in
theorem Abstracts.mine (h : Abstracts N ids s m) (entries : List Market.Entry) :
    (s.mine C entries).cluster.Abstracts N ids (m.mine C entries).system ∧
      (m.mine C entries).txs = (s.mine C entries).txs := by
  obtain ⟨p, hstands, hsigned, habstracts⟩ := h.cluster
  simp only [Market.mine, Marketplace.mine, h.chain, h.txs, h.cluster.backend, and_true]
  exact ⟨{ p with backend := _ }, ⟨rfl, hstands.workers, hstands.nodes⟩,
    ⟨hsigned.authentic, hsigned.verified⟩, ⟨rfl, habstracts.workers, habstracts.sent⟩⟩

/-- **Every step of the deployment is one of the market**, or is not seen there. -/
theorem Abstracts.step (h : Abstracts N ids s m) (hids : Function.Injective ids)
    (hfresh : s.Fresh C l) (hst : s.step C N l = some s') :
    Abstracts N ids s' m ∨
      ∃ k m', (∀ entries, k = .mine entries → l = .mine entries) ∧ m.Fair C k ∧
        m.step C k = some m' ∧ Abstracts N ids s' m' := by
  -- The invariant comes with the step.
  have hnext : ∀ (k : Market.Label) (m' : Market),
      (∀ entries, k = .mine entries → l = .mine entries) → m.Fair C k → m.step C k = some m' →
        s'.cluster.Abstracts N ids m'.system → m'.txs = s'.txs →
          ∃ k m', (∀ entries, k = .mine entries → l = .mine entries) ∧ m.Fair C k ∧
            m.step C k = some m' ∧ Abstracts N ids s' m' := by
    intro k m' hmine hfair hm' hcluster htxs
    have hstep : Market.Step C m k m' := .of_step hm'
    exact ⟨k, m', hmine, hfair, hm', hcluster, htxs, hstep.exclusion hfair h.inv⟩
  cases l with
  | party l =>
    simp only [Marketplace.step] at hst
    split at hst
    · cases hst
    · rename_i htaken
      obtain ⟨cluster, hcluster, rfl⟩ := Option.map_eq_some_iff.1 hst
      rcases h.cluster.step C.members hids hfresh hcluster with
        ⟨-, hsame⟩ | ⟨k, system, hk, hfair, hsystem, habstracts⟩
      · exact .inl ⟨hsame, h.txs, h.inv⟩
      · refine .inr (hnext (.party k) { m with system } ?_ hfair ?_ habstracts h.txs)
        · rintro _ ⟨⟩
        · simp [Market.step, taken_system hk, htaken, hsystem]
  | send key job bundle hash =>
    simp only [Marketplace.step, h.peerId] at hst
    split at hst
    · rename_i journal sealBytes hextract
      split_ifs at hst with hready
      cases hst
      let tx : ProofTx := ⟨ids key, job, bundle, journal, sealBytes, hash, none, true⟩
      refine .inr (hnext (.send (ids key) job bundle hash) ⟨m.system, s.txs ++ [tx]⟩ ?_ trivial ?_
        h.cluster rfl)
      · rintro _ ⟨⟩
      · simp only [Market.step, hextract, h.cluster.workers, h.txs]
        exact if_pos hready
    · cases hst
  | receipt key i =>
    simp only [Marketplace.step, h.peerId] at hst
    split at hst
    · rename_i tx htx
      split_ifs at hst with hready
      obtain ⟨hready, hworker⟩ := Bool.and_eq_true_iff.1 hready
      obtain ⟨cluster, hcluster, rfl⟩ := Option.map_eq_some_iff.1 hst
      obtain ⟨system, hsystem, habstracts⟩ := h.submitted hids hcluster
      rw [← of_decide_eq_true hworker] at hsystem
      refine .inr (hnext (.receipt i) ⟨system, _⟩ ?_ trivial ?_ habstracts rfl)
      · rintro _ ⟨⟩
      · simp [Market.step, h.txs, htx, hready, hsystem]
    · cases hst
  | fail key job bundle e =>
    simp only [Marketplace.step, h.peerId] at hst
    obtain ⟨cluster, hcluster, rfl⟩ := Option.map_eq_some_iff.1 hst
    obtain ⟨system, hsystem, habstracts⟩ := h.submitted hids hcluster
    refine .inr (hnext (.fail (ids key) job bundle e) ⟨system, _⟩ ?_ trivial ?_ habstracts rfl)
    · rintro _ ⟨⟩
    · simp [Market.step, h.txs, hsystem]
  | mine entries =>
    cases hst
    obtain ⟨hcluster, htxs⟩ := h.mine (C := C) entries
    refine .inr (hnext (.mine entries) (m.mine C entries) ?_ trivial rfl hcluster htxs)
    rintro _ ⟨⟩
    rfl

section Runs

variable {config : PeerId → GossipConfig} {degree : PeerId → Nat} {prefunded : Nat}
  {contract : Bool} {defaultDeadlineSecs : UInt64} {startBlock : Nat}

/-- **The deployment is a market**, with the same blocks. -/
theorem refines_market (E : List Market.Entry → Prop) (hids : Function.Injective ids)
    (h : Steps C N (fun u l => u.Fresh C l ∧ Blocks E l)
      (start config degree ids prefunded contract defaultDeadlineSecs startBlock) s) :
    ∃ m, Market.Steps C (fun u k => u.Fair C k ∧ ∀ entries, k = .mine entries → E entries)
        (Market.start prefunded contract defaultDeadlineSecs startBlock) m ∧
      Abstracts N ids s m := by
  refine h.simulate (R := Abstracts N ids) ?_ ⟨Cluster.abstracts_start .., rfl,
    System.inv_start (Chain.genesis prefunded) contract defaultDeadlineSecs startBlock⟩
  intro u l v m hu hl hst
  rcases hu.step hids hl.1 hst with hv | ⟨k, m', hmine, hfair, hm', hv⟩
  · exact ⟨m, .refl, hv⟩
  · exact ⟨m', .single ⟨k, ⟨hfair, fun entries hk => hl.2 entries (hmine entries hk)⟩, hm'⟩, hv⟩

/-- **The winner is paid**, from the bytes on the wire to the transfer on the chain. -/
theorem winner_paid (hids : Function.Injective ids) (j : JobId)
    (h : Steps C N (fun u l => u.Fresh C l ∧ Blocks (NoRival j) l)
      (start config degree ids prefunded contract defaultDeadlineSecs startBlock) s) :
    ∀ p ∈ s.chain.world.payouts, p.jobId = j →
      ∀ journal sealBytes, p.reason = .proof journal sealBytes →
        ∃ key, p.recipient = C.account (s.cluster.workers key).peerId ∧
          (∀ other, ∀ e ∈ (s.cluster.fabric.nodes other).delivered, ∀ w,
            e.payload = .claimAccepted j w → w = (s.cluster.workers key).peerId) ∧
          ∀ other, (s.cluster.workers other).status.isWorking j = true → other = key := by
  intro p hp hj journal sealBytes hr
  obtain ⟨m, hm, habstracts⟩ := refines_market (NoRival j) hids h
  have hrival : ∀ (u : Market) k, (u.Fair C k ∧ ∀ entries, k = .mine entries → NoRival j entries) →
      u.Fair C k ∧ u.Others (fun _ => False) j k := by
    rintro u k ⟨hfair, hblocks⟩
    refine ⟨hfair, ?_⟩
    cases k with
    | mine entries =>
      intro tx htx
      exact (hblocks entries rfl tx htx).mono fun i hi hproves => by simp [hi] at hproves
    | _ => trivial
  obtain ⟨hinv, hearned⟩ := Market.earned_of_steps (hm.mono hrival)
  rw [← habstracts.chain] at hp
  obtain ⟨w, hw, hrecipient⟩ := (hearned.paid p hp hj journal sealBytes hr).resolve_right id
  -- Every id is that of a worker.
  obtain ⟨key, rfl⟩ : ∃ key, ids key = w :=
    have := finite_peerId
    Finite.surjective_of_injective hids w
  refine ⟨key, ?_, ?_, ?_⟩
  · rw [habstracts.peerId]
    exact hrecipient
  · intro other e he w' hpayload
    rw [habstracts.peerId]
    have hsent := habstracts.cluster.sent he
    rw [hpayload] at hsent
    exact hinv.unique j _ _ hsent hw
  · intro other hworking
    rw [← habstracts.cluster.workers] at hworking
    exact hids (hinv.unique j _ _ (hinv.working _ j hworking) hw)

end Runs

/-! ## A job is sold -/

open Sample
open Market (setting)
open Parties (workerKey workerId ownIds ownIds_injective)

/-- A step of the cluster as one of the deployment. -/
def ofCluster : Cluster.Label κ → Label κ
  | .coordinator (.mine txs) _ _ => .mine (txs.map .other)
  | l => .party l

/-- The worker wins the job, proves it and sends its transaction, which is mined. -/
def sold : List (Label Unit) :=
  Cluster.won.map ofCluster ++
    [.party (.worker workerKey (.proved jobId job (.ok ⟨[]⟩)) none []),
      .send workerKey job ⟨[]⟩ (txHash 2), .mine [Market.own]]

def opened : Marketplace Unit := ⟨Cluster.joined, []⟩

/-- No transaction but the worker's submits a proof. -/
theorem noRival_sold : ∀ l ∈ sold, ∀ _ : Marketplace Unit, Blocks (NoRival jobId) l := by
  have hsubmit : NoRival jobId [.other submitJob] := by
    simp [NoRival, submitJob, call, CallTree.Act.All, CallTree.Act.AllIn, Registry.Call.proves]
  have hown : NoRival jobId [Market.own] := by simp [NoRival, Market.own]
  simp [sold, Cluster.won, Cluster.travels, ofCluster, Blocks, hown, hsubmit]

theorem winner_paid_sold :
    ∃ s, Steps setting Cluster.site (fun u l => u.Fresh setting l ∧ Blocks (NoRival jobId) l)
        opened s ∧
      ∃ p ∈ s.chain.world.payouts, p.jobId = jobId ∧
        ∃ key, p.recipient = setting.account (s.cluster.workers key).peerId ∧
          ∀ other, (s.cluster.workers other).status.isWorking jobId = true → other = key := by
  have hrun : (Transition.run (Transition.checked (step setting Cluster.site) (Fresh setting))
      sold opened).map
        (fun s => decide (∃ p ∈ s.chain.world.payouts, p.jobId = jobId ∧
          p.journal = some journal)) = some true := by
    decide +kernel
  obtain ⟨s, hs, hst⟩ := Transition.exists_of_checked_and noRival_sold hrun
  obtain ⟨p, hp, hj, hjournal⟩ := of_decide_eq_true hst
  obtain ⟨sealBytes, hr⟩ := Registry.Payout.journal_eq_some.1 hjournal
  obtain ⟨key, hrecipient, -, hother⟩ :=
    winner_paid ownIds_injective jobId hs p hp hj journal sealBytes hr
  exact ⟨s, hs, p, hp, hj, key, hrecipient, hother⟩

end Marketplace

end ProofMarket
