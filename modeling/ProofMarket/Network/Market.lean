import ProofMarket.Network.Exclusion
import ProofMarket.Registry.Windows

/-!
# Workers that sell their proofs

The system with the transactions of its workers. `submit_proof_onchain` extracts journal and seal
from the bundle and calls `submit_proof` of the contract client, which sends the transaction from
the worker's account and then waits for the receipt. In between it is pending: a block may take it
at any position, after any transactions of other accounts, and everybody has read it.

`get_receipt` answers for a transaction that was mined as reverted too, and `submit_proof` returns
the hash without looking at the status.

`extract_proof_components` decodes a receipt of the zkVM, which is not modelled; it is a parameter.
-/

namespace ProofMarket

open Registry (Deployment World Act Msg ProofAccepted)

/-- What the workers run with: the registry they call, the other nodes, the account of each, and
`extract_proof_components`, which gives the journal and the seal. -/
structure Setting where
  deployment : Deployment
  members : List PeerId
  account : PeerId → Address
  extract : ProofBundle → Except String (Bytes × Bytes)

/-- The transaction that a worker has sent for its task; `awaited` as long as the task waits for the
receipt. -/
structure ProofTx where
  worker : PeerId
  job : Job
  bundle : ProofBundle
  journal : Bytes
  sealBytes : Bytes
  hash : TxHash
  executed : Option Execution
  awaited : Bool

namespace ProofTx

/-- The call that `submit_proof` sends. -/
def act (tx : ProofTx) (msg : Msg) : Act :=
  .call (msg, .submitProof tx.job.id tx.journal tx.sealBytes) [] true

/-- The transaction was executed when the job was open, before its deadline, with a journal and a
seal that pass. -/
def Accepted (D : Deployment) (tx : ProofTx) : Prop :=
  ∀ x ∈ tx.executed, ProofAccepted D x.msg tx.job.id tx.journal tx.sealBytes x.world

instance (D : Deployment) (tx : ProofTx) : Decidable (tx.Accepted D) :=
  inferInstanceAs (Decidable (∀ x ∈ tx.executed, _))

/-- The task that the transaction was sent for. -/
def isFor (tx : ProofTx) (worker : PeerId) (job : Job) (bundle : ProofBundle) : Bool :=
  tx.worker = worker && tx.job = job && tx.bundle = bundle

end ProofTx

structure Market where
  system : System
  txs : List ProofTx

namespace Market

/-- A transaction of a block: the `i`-th of the workers', or anybody's. -/
inductive Entry where
  | own (i : Nat) (timestamp : Nat) (verify : Bytes → FixedBytes 32 → FixedBytes 32 → Bool)
  | other (tx : TxHash × Act)

inductive Label where
  | party (l : System.Label)
  | send (worker : PeerId) (job : Job) (bundle : ProofBundle) (hash : TxHash)
  | receipt (i : Nat)
  | fail (worker : PeerId) (job : Job) (bundle : ProofBundle) (e : String)
  | mine (entries : List Entry)

/-- A system right after the registry's deployment. -/
def start (prefunded : Nat) (contract : Bool) (defaultDeadlineSecs : UInt64) (startBlock : Nat) :
    Market :=
  ⟨.start (Chain.genesis prefunded) contract defaultDeadlineSecs startBlock, []⟩

abbrev chain (s : Market) : Chain := s.system.backend.chain

/-- Execute one transaction of block `n`. That of a worker is mined once. -/
def execute (C : Setting) (n : Nat) (p : Chain × List ProofTx) : Entry → Chain × List ProofTx
  | .other tx => (p.1.execute C.deployment n tx, p.2)
  | .own i timestamp verify =>
    match p.2[i]? with
    | some tx =>
      if tx.executed.isSome then p
      else
        let msg : Msg := ⟨C.account tx.worker, 0, timestamp, verify⟩
        let ok := ((Registry.machine C.deployment).exec (tx.act msg) p.1.world).2
        (p.1.execute C.deployment n (tx.hash, tx.act msg),
          p.2.set i { tx with executed := some ⟨msg, p.1.world, ok⟩ })
    | none => p

/-- Mine a block. -/
def mine (C : Setting) (s : Market) (entries : List Entry) : Market :=
  let n := s.chain.head + 1
  let (chain, txs) := entries.foldl (execute C n) (s.chain, s.txs)
  let backend := { s.system.backend with chain := { chain with head := n } }
  { system := { s.system with backend }, txs }

/-- The labels that the market takes in place of the system. -/
def taken : System.Label → Bool
  | .coordinator (.mine _) => true
  | .worker _ (.submitted _ _ _) => true
  | _ => false

def step (C : Setting) (s : Market) : Label → Option Market
  | .party l =>
    if taken l then none
    else (s.system.step C.deployment C.members l).map fun system => { s with system }
  | .send worker job bundle hash =>
    match C.extract bundle with
    | .ok (journal, sealBytes) =>
      if .submitting job bundle ∈ (s.system.workers worker).tasks ∧
          ¬ ∃ tx ∈ s.txs, tx.awaited = true ∧ tx.isFor worker job bundle = true then
        some { s with
          txs := s.txs ++ [⟨worker, job, bundle, journal, sealBytes, hash, none, true⟩] }
      else none
    | .error _ => none
  | .receipt i =>
    match s.txs[i]? with
    | some tx =>
      if tx.awaited && tx.executed.isSome then
        (s.system.step C.deployment C.members
          (.worker tx.worker (.submitted tx.job tx.bundle (.ok tx.hash)))).map fun system =>
            { system, txs := s.txs.set i { tx with awaited := false } }
      else none
    | none => none
  | .fail worker job bundle e =>
    (s.system.step C.deployment C.members
      (.worker worker (.submitted job bundle (.error e)))).map fun system =>
        { system
          txs := s.txs.map fun tx =>
            if tx.isFor worker job bundle then { tx with awaited := false } else tx }
  | .mine entries => some (s.mine C entries)

/-- Runs whose every step satisfies `ok`. -/
abbrev Steps (C : Setting) (ok : Market → Label → Prop) : Market → Market → Prop :=
  Transition.Steps (step C) ok

/-- The ways a step can go, with what each requires. -/
inductive Step (C : Setting) (s : Market) : Label → Market → Prop where
  | party {l : System.Label} {system : System} : taken l = false →
      System.Step C.deployment C.members s.system l system →
      Step C s (.party l) { s with system }
  | send {worker : PeerId} {job : Job} {bundle : ProofBundle} {hash : TxHash}
      {journal sealBytes : Bytes} : C.extract bundle = .ok (journal, sealBytes) →
      .submitting job bundle ∈ (s.system.workers worker).tasks →
      Step C s (.send worker job bundle hash)
        { s with txs := s.txs ++ [⟨worker, job, bundle, journal, sealBytes, hash, none, true⟩] }
  | receipt {i : Nat} {tx : ProofTx} {x : Execution} {system : System} : s.txs[i]? = some tx →
      tx.executed = some x →
      System.Step C.deployment C.members s.system
        (.worker tx.worker (.submitted tx.job tx.bundle (.ok tx.hash))) system →
      Step C s (.receipt i) { system, txs := s.txs.set i { tx with awaited := false } }
  | fail {worker : PeerId} {job : Job} {bundle : ProofBundle} {e : String} {system : System} :
      System.Step C.deployment C.members s.system
        (.worker worker (.submitted job bundle (.error e))) system →
      Step C s (.fail worker job bundle e)
        { system
          txs := s.txs.map fun tx =>
            if tx.isFor worker job bundle then { tx with awaited := false } else tx }
  | mine {entries : List Entry} : Step C s (.mine entries) (s.mine C entries)

section Step

variable {C : Setting} {s s' : Market} {l : Label}

/-- **Every step goes in one of these ways.** -/
theorem Step.of_step (h : s.step C l = some s') : Step C s l s' := by
  cases l with
  | party l =>
    simp only [step] at h
    split at h
    · cases h
    · rename_i hl
      obtain ⟨system, hsystem, rfl⟩ := Option.map_eq_some_iff.1 h
      exact .party (by simpa using hl) (.of_step hsystem)
  | send worker job bundle hash =>
    simp only [step] at h
    split at h
    · rename_i hextract
      split at h
      · rename_i htask
        cases h
        exact .send hextract htask.1
      · cases h
    · cases h
  | receipt i =>
    simp only [step] at h
    split at h
    · rename_i tx htx
      split at h
      · rename_i hready
        obtain ⟨-, hexecuted⟩ := Bool.and_eq_true_iff.1 hready
        obtain ⟨x, hx⟩ := Option.isSome_iff_exists.1 hexecuted
        obtain ⟨system, hsystem, rfl⟩ := Option.map_eq_some_iff.1 h
        exact .receipt htx hx (.of_step hsystem)
      · cases h
    · cases h
  | fail worker job bundle e =>
    obtain ⟨system, hsystem, rfl⟩ := Option.map_eq_some_iff.1 h
    exact .fail (.of_step hsystem)
  | mine entries =>
    cases h
    exact .mine

end Step

/-! ## Blocks -/

section Blocks

variable (C : Setting)

/-- An entry of a block is anybody's transaction, the first execution of a worker's, or nothing. -/
theorem execute_cases (n : Nat) (p : Chain × List ProofTx) (e : Entry) :
    (∃ tx, e = .other tx ∧ execute C n p e = (p.1.execute C.deployment n tx, p.2)) ∨
    (∃ i tx timestamp verify, p.2[i]? = some tx ∧ tx.executed = none ∧
      execute C n p e =
        (p.1.execute C.deployment n (tx.hash, tx.act ⟨C.account tx.worker, 0, timestamp, verify⟩),
          p.2.set i { tx with
            executed := some ⟨⟨C.account tx.worker, 0, timestamp, verify⟩, p.1.world,
              ((Registry.machine C.deployment).exec
                (tx.act ⟨C.account tx.worker, 0, timestamp, verify⟩) p.1.world).2⟩ })) ∨
    execute C n p e = p := by
  cases e with
  | other tx => exact .inl ⟨tx, rfl, rfl⟩
  | own i timestamp verify =>
    simp only [execute]
    split
    · rename_i tx htx
      split
      · exact .inr (.inr rfl)
      · rename_i hfirst
        exact .inr (.inl ⟨i, tx, timestamp, verify, htx, by simpa using hfirst, rfl⟩)
    · exact .inr (.inr rfl)

/-- **What every entry keeps, every block keeps.** -/
theorem foldl_execute {I : Chain × List ProofTx → Prop} {n : Nat} {entries : List Entry}
    (hstep : ∀ p, ∀ e ∈ entries, I p → I (execute C n p e)) {p : Chain × List ProofTx} (hp : I p) :
    I (entries.foldl (execute C n) p) := by
  induction entries generalizing p with
  | nil => exact hp
  | cons e entries ih =>
    refine ih (fun q f hf => hstep q f (List.mem_cons_of_mem _ hf)) ?_
    exact hstep p e List.mem_cons_self hp

theorem execute_chain (n : Nat) (p : Chain × List ProofTx) (e : Entry) :
    (execute C n p e).1 = p.1 ∨ ∃ tx, (execute C n p e).1 = p.1.execute C.deployment n tx := by
  rcases execute_cases C n p e with ⟨tx, -, he⟩ | ⟨i, tx, timestamp, verify, -, -, he⟩ | he
  · exact .inr ⟨tx, by rw [he]⟩
  · exact .inr ⟨_, by rw [he]⟩
  · exact .inl (by rw [he])

end Blocks

section System

variable {C : Setting} {s s' : Market} {l : Label}

/-- **Every step is one of the system**, or leaves it as it is: that of a party, the end of a
submission, or a block. -/
theorem Step.system (h : Step C s l s') :
    s'.system = s.system ∨ ∃ k, System.Step C.deployment C.members s.system k s'.system ∧
      (l = .party k ∨ (∃ id job bundle result, k = .worker id (.submitted job bundle result)) ∨
        ∃ txs, k = .coordinator (.mine txs)) := by
  cases h with
  | @party k system _ hk => exact .inr ⟨k, hk, .inl rfl⟩
  | send => exact .inl rfl
  | receipt _ _ hk => exact .inr ⟨_, hk, .inr (.inl ⟨_, _, _, _, rfl⟩)⟩
  | fail hk => exact .inr ⟨_, hk, .inr (.inl ⟨_, _, _, _, rfl⟩)⟩
  | @mine entries =>
    obtain ⟨txs, htxs⟩ :=
      Chain.exists_txs (execute_chain C (s.chain.head + 1)) entries (s.chain, s.txs)
    refine .inr ⟨.coordinator (.mine txs), ?_, .inr (.inr ⟨txs, rfl⟩)⟩
    have hblock : (s.mine C entries).system.backend.chain =
        s.system.backend.chain.mine C.deployment txs := by
      simp only [Market.mine, Chain.mine, ← htxs]
    have hstep : System.Step C.deployment C.members s.system (.coordinator (.mine txs)) _ :=
      .coordinator .mine
    rw [← hblock] at hstep
    simp only [System.route, System.Label.handles, System.broadcast, List.flatMap_nil,
      List.append_nil] at hstep
    exact hstep

theorem Step.chain (h : Step C s l s') :
    (∃ entries, l = .mine entries ∧ s' = s.mine C entries) ∨
      (∀ entries, l ≠ .mine entries) ∧ s'.chain = s.chain := by
  cases h with
  | mine => exact .inl ⟨_, rfl, rfl⟩
  | @party k system hk hsystem =>
    refine .inr ⟨by simp, ?_⟩
    cases hsystem with
    | coordinator hb =>
      cases hb with
      | mine => cases hk
      | _ => rfl
    | worker => rfl
  | send => exact .inr ⟨by simp, rfl⟩
  | receipt _ _ hsystem | fail hsystem =>
    cases hsystem
    exact .inr ⟨by simp, rfl⟩

theorem Step.txs_cases (h : Step C s l s') (hl : ∀ entries, l ≠ .mine entries) {tx : ProofTx}
    (htx : tx ∈ s'.txs) :
    (∃ old ∈ s.txs, ∃ awaited, tx = { old with awaited }) ∨
      tx.executed = none ∧ .submitting tx.job tx.bundle ∈ (s.system.workers tx.worker).tasks := by
  cases h with
  | party => exact .inl ⟨tx, htx, tx.awaited, rfl⟩
  | send _ htask =>
    rcases List.mem_append.1 htx with htx | htx
    · exact .inl ⟨tx, htx, tx.awaited, rfl⟩
    · obtain rfl := List.mem_singleton.1 htx
      exact .inr ⟨rfl, htask⟩
  | @receipt i old x system hold =>
    rcases List.mem_or_eq_of_mem_set htx with htx | rfl
    · exact .inl ⟨tx, htx, tx.awaited, rfl⟩
    · exact .inl ⟨old, List.mem_of_getElem? hold, false, rfl⟩
  | fail =>
    obtain ⟨old, hold, rfl⟩ := List.mem_map.1 htx
    refine .inl ⟨old, hold, ?_⟩
    split_ifs
    · exact ⟨false, rfl⟩
    · exact ⟨old.awaited, rfl⟩
  | @mine entries => exact absurd rfl (hl entries)

end System

/-! ## A proof on its way -/

section Example

open Sample
open ProofMarket.System (prover won)

/-- One worker, with account 2; its bundles all hold the sample journal. -/
def setting : Setting :=
  ⟨deployment, [prover], fun _ => ⟨.fill 20 2⟩, fun _ => .ok (journal, [])⟩

/-- A step of the system as one of the market. -/
def ofSystem : System.Label → Label
  | .coordinator (.mine txs) => .mine (txs.map .other)
  | l => .party l

/-- The worker has won the job, proved it and sent its transaction. -/
def pending : List Label :=
  won.map ofSystem ++
    [.party (.worker prover (.proved jobId job (.ok ⟨[]⟩))), .send prover job ⟨[]⟩ (txHash 2)]

def own : Entry := .own 0 1005 fun _ _ _ => true

/-- Another account has read the journal and the seal. -/
def copied : Entry := .other (txHash 7, call 7 0 1005 (.submitProof jobId journal []))

/-- The receipt arrives, and the completion is announced. -/
def announced : List Label :=
  [.receipt 0, .party (.worker prover (.announce job (txHash 2)))]

end Example

end Market

end ProofMarket
