import ProofMarket.Coordinator.Process
import ProofMarket.Lib.Hex

/-!
# `create_job`, one answer at a time

`api.rs` with `submit_job` of `contract-client`. A request decodes its body and then waits for the
answers of others: of `send`, of `get_receipt`. Between two answers it runs on its own (`Turn`).
Once sent, its transaction is out of its hands: any block may hold it, after any transactions of
other accounts, and the registry may execute or revert it (`Api.mine`). `get_receipt` gives the
receipt in both cases, and may fail in both as well.

`Api` is a coordinator process with the requests it has been given, each with what it has done so
far. Every step of it is one of `Backend`.

What the parsers of the crates `hex` and `alloy_primitives` accept is a parameter.
-/

namespace ProofMarket

open Registry (Deployment World Act Msg)

namespace Coordinator

/-- A `CreateJobRequest` as it arrives. -/
structure CreateJobBody where
  payload : String
  reward : BitVec 128
  owner : Option String

/-- `hex::decode` and `str::parse::<Address>`, errors as they are displayed. -/
structure Parsers where
  hexDecode : String → Except String Bytes
  parseAddress : String → Except String Address

/-- `trim_start_matches("0x")`. -/
def trimStart0x (s : String) : String := String.ofList (trim s.toList)
where
  trim : List Char → List Char
    | '0' :: 'x' :: cs => trim cs
    | cs => cs

inductive StatusCode where
  | badRequest
  | internalServerError
  deriving DecidableEq

/-- The error of a handler, `(StatusCode, String)`. -/
structure ErrorResponse where
  status : StatusCode
  message : String
  deriving DecidableEq

structure CreateJobResponse where
  jobId : String
  txHash : Option String
  deriving DecidableEq

/-- The first lines of `create_job`: payload and owner are decoded. -/
def CreateJobBody.decode (P : Parsers) (body : CreateJobBody) :
    Except ErrorResponse CreateJobRequest :=
  match P.hexDecode (trimStart0x body.payload) with
  | .error e => .error ⟨.badRequest, "invalid hex payload: " ++ e⟩
  | .ok payload =>
    match body.owner with
    | none => .ok ⟨payload, body.reward, none⟩
    | some s =>
      match P.parseAddress (trimStart0x s) with
      | .error e => .error ⟨.badRequest, "invalid owner address: " ++ e⟩
      | .ok owner => .ok ⟨payload, body.reward, some owner⟩

/-- `format!("0x{}", hex::encode(bytes))`. -/
def hexId (bytes : FixedBytes 32) : String := "0x" ++ Hex.encode bytes.val

/-- The answer to a request that has gone through. -/
def createJobResponse (job : Job) (txHash : Option TxHash) : CreateJobResponse where
  jobId := hexId job.id.bytes
  txHash := txHash.map fun h => hexId h.bytes

/-- `ContractError::TransactionFailed`, displayed. -/
def transactionFailed (e : String) : String := "transaction failed: " ++ e

/-- The error of a request whose `submit_job` failed. -/
def submissionFailed (e : String) : ErrorResponse :=
  ⟨.internalServerError, "on-chain submission failed: " ++ transactionFailed e⟩

theorem hexId_injective : Function.Injective hexId := by
  intro a b h
  simp only [hexId, String.append_right_inj] at h
  exact FixedBytes.ext (Hex.encode_injective h)

theorem hexId_eq_iff {j k : JobId} : hexId j.bytes = hexId k.bytes ↔ j = k := by
  rw [hexId_injective.eq_iff]
  constructor
  · intro h
    cases j
    exact congrArg JobId.mk h
  · intro h
    rw [h]

end Coordinator

open Coordinator

/-- `submit_job` sends its call from the account `signer`, with the reward. When it is executed, and
what the verifier says then, is up to the chain. -/
def submitJobMsg (signer : Address) (job : Job) (timestamp : Nat)
    (verify : Bytes → FixedBytes 32 → FixedBytes 32 → Bool) : Msg :=
  ⟨signer, job.reward.toNat, timestamp, verify⟩

def submitJobCall (job : Job) (msg : Msg) : Act :=
  .call (msg, .submitJob job.id job.payload job.deadline.toNat) [] true

/-! ## One request -/

/-- Where a request stands: the answer it waits for, or what it does next. -/
inductive Stage where
  | sending (job : Job)
  | awaiting (job : Job)
  | storing (job : Job) (txHash : Option TxHash)
  | announcing (job : Job) (txHash : Option TxHash)
  | returned (result : Except ErrorResponse CreateJobResponse)

/-- The transaction of a request, once sent; `executed` is what its block made of it. -/
structure Tx where
  job : Job
  hash : TxHash
  executed : Option Execution

/-- What a request does for others to see: an entry of the job map, a gossip message. -/
inductive Effect where
  | stored (job : Job)
  | announced (job : Job)

/-- A request, with its transaction, what `get_receipt` answered, its effects so far, and the ETH
its transaction has moved into the registry. -/
structure Request where
  stage : Stage
  tx : Option Tx
  receipt : Option (Except String TxHash)
  effects : List Effect
  locked : Nat

/-- What a request learns or does next. -/
inductive Turn where
  | sent (hash : TxHash)
  | sendFailed (e : String)
  | receipt
  | receiptFailed (e : String)
  | insert
  | announce

namespace Request

/-- A request that has just been decoded. -/
def start (contract : Bool) (job : Job) : Request where
  stage := if contract then .sending job else .storing job none
  tx := none
  receipt := none
  effects := []
  locked := 0

/-- A request that could not be decoded. -/
def refused (e : ErrorResponse) : Request := ⟨.returned (.error e), none, none, [], 0⟩

/-- The next turn of a request, with what it does to the process. `broadcast` does not fail. -/
def next (r : Request) (t : Turn) : Option (Request × Option Backend.Label) :=
  match r.stage, t with
  | .sending job, .sent hash =>
    some ({ r with stage := .awaiting job, tx := some ⟨job, hash, none⟩ }, none)
  | .sending job, .sendFailed e =>
    some ({ r with stage := .returned (.error (submissionFailed e)) }, some (.abandon job))
  | .awaiting job, .receipt =>
    match r.tx with
    | some ⟨_, hash, some _⟩ =>
      some ({ r with stage := .storing job (some hash), receipt := some (.ok hash) }, none)
    | _ => none
  | .awaiting job, .receiptFailed e =>
    some ({ r with
      stage := .returned (.error (submissionFailed e))
      receipt := some (.error e) }, some (.abandon job))
  | .storing job txHash, .insert =>
    some ({ r with
      stage := .announcing job txHash
      effects := r.effects ++ [.stored job] }, some (.insert job))
  | .announcing job txHash, .announce =>
    some ({ r with
      stage := .returned (.ok (createJobResponse job txHash))
      effects := r.effects ++ [.announced job] }, some (.announce job))
  | _, _ => none

/-- The transaction of a request has been mined: `out` is what it made of the registry `w`. -/
def mined (r : Request) (job : Job) (hash : TxHash) (msg : Msg) (w : World) (out : World × Bool) :
    Request :=
  { r with
    tx := some ⟨job, hash, some ⟨msg, w, out.2⟩⟩
    locked := out.1.balance - w.balance }

/-- The job of a request that has not inserted it yet. -/
def creating (r : Request) : Option Job :=
  match r.stage with
  | .sending job | .awaiting job | .storing job _ => some job
  | _ => none

/-- The job of a request that has yet to announce it. -/
def announcing (r : Request) : Option Job :=
  match r.stage with
  | .announcing job _ => some job
  | _ => none

/-- The ways a request takes a turn, with what each requires. -/
inductive Next (r : Request) : Turn → Request → Option Backend.Label → Prop where
  | sent {job : Job} {hash : TxHash} : r.stage = .sending job →
      Next r (.sent hash) { r with stage := .awaiting job, tx := some ⟨job, hash, none⟩ } none
  | sendFailed {job : Job} {e : String} : r.stage = .sending job →
      Next r (.sendFailed e) { r with stage := .returned (.error (submissionFailed e)) }
        (some (.abandon job))
  | receipt {job job' : Job} {hash : TxHash} {x : Execution} : r.stage = .awaiting job →
      r.tx = some ⟨job', hash, some x⟩ →
      Next r .receipt { r with stage := .storing job (some hash), receipt := some (.ok hash) } none
  | receiptFailed {job : Job} {e : String} : r.stage = .awaiting job →
      Next r (.receiptFailed e)
        { r with
          stage := .returned (.error (submissionFailed e))
          receipt := some (.error e) } (some (.abandon job))
  | insert {job : Job} {txHash : Option TxHash} : r.stage = .storing job txHash →
      Next r .insert
        { r with
          stage := .announcing job txHash
          effects := r.effects ++ [.stored job] } (some (.insert job))
  | announce {job : Job} {txHash : Option TxHash} : r.stage = .announcing job txHash →
      Next r .announce
        { r with
          stage := .returned (.ok (createJobResponse job txHash))
          effects := r.effects ++ [.announced job] } (some (.announce job))

theorem Next.of_next {r r' : Request} {t : Turn} {l : Option Backend.Label}
    (h : r.next t = some (r', l)) : Next r t r' l := by
  unfold next at h
  split at h
  · rename_i hs
    cases h
    exact .sent hs
  · rename_i hs
    cases h
    exact .sendFailed hs
  · rename_i hs
    split at h
    · rename_i htx
      cases h
      exact .receipt hs htx
    · cases h
  · rename_i hs
    cases h
    exact .receiptFailed hs
  · rename_i hs
    cases h
    exact .insert hs
  · rename_i hs
    cases h
    exact .announce hs
  · cases h

/-- What a step of the process is for others to see. -/
def effectsOf : Option Backend.Label → List Effect
  | some (.insert job) => [.stored job]
  | some (.announce job) => [.announced job]
  | _ => []

/-- The effects of a request are those of the steps it has the process take. -/
theorem Next.effects_eq {r r' : Request} {t : Turn} {l : Option Backend.Label}
    (h : Next r t r' l) : r'.effects = r.effects ++ effectsOf l := by
  cases h <;> simp [effectsOf]

/-- **Without an effect** a request neither changes the job map nor sends a message. -/
theorem Next.quiet {r r' : Request} {t : Turn} {l : Backend.Label} (h : Next r t r' (some l))
    (heffects : r'.effects = r.effects) {D : Deployment} {b b' : Backend}
    {ms : List GossipMessage} (hstep : Backend.Step D b l b' ms) :
    b'.jobs = b.jobs ∧ ms = [] := by
  have hnone : effectsOf (some l) = [] := by
    simpa [heffects] using h.effects_eq
  cases h with
  | sendFailed | receiptFailed =>
    cases hstep
    exact ⟨rfl, rfl⟩
  | insert | announce => cases hnone

end Request

/-! ## The process with its requests -/

structure Api where
  backend : Backend
  requests : List Request

/-- A transaction of a block: that of the request `i`, or anybody's. -/
inductive Entry where
  | own (i : Nat) (timestamp : Nat) (verify : Bytes → FixedBytes 32 → FixedBytes 32 → Bool)
  | other (tx : TxHash × Act)

namespace Api

inductive Label where
  | request (body : CreateJobBody) (nonce : FixedBytes 8) (now : UInt64)
  | turn (i : Nat) (t : Turn)
  | mine (entries : List Entry)
  | rest (l : Backend.Label)

def start (b : Backend) : Api := ⟨b, []⟩

/-- The registry, as it is now. -/
abbrev world (s : Api) : World := s.backend.chain.world

/-- Execute one transaction of block `n`. A request's transaction is mined once, when it has been
sent. -/
def execute (D : Deployment) (signer : Address) (n : Nat) (p : Chain × List Request) :
    Entry → Chain × List Request
  | .other tx => (p.1.execute D n tx, p.2)
  | .own i timestamp verify =>
    match p.2[i]? with
    | some r =>
      match r.tx with
      | some ⟨job, hash, none⟩ =>
        let msg := submitJobMsg signer job timestamp verify
        let act := submitJobCall job msg
        (p.1.execute D n (hash, act), p.2.set i (r.mined job hash msg p.1.world
          ((Registry.machine D).exec act p.1.world)))
      | _ => p
    | none => p

/-- Mine a block. -/
def mine (D : Deployment) (signer : Address) (s : Api) (entries : List Entry) : Api :=
  let n := s.backend.chain.head + 1
  let (chain, requests) := entries.foldl (execute D signer n) (s.backend.chain, s.requests)
  ⟨{ s.backend with chain := { chain with head := n } }, requests⟩

/-- The step of the process, if there is one. -/
def perform (D : Deployment) (b : Backend) : Option Backend.Label → Option Backend
  | none => some b
  | some l => b.next D l

/-- The steps of `create_job` and of the chain, which the labels of `Api` take. -/
def ofRequests : Backend.Label → Bool
  | .create _ _ _ | .insert _ | .abandon _ | .announce _ | .mine _ => true
  | _ => false

def step (D : Deployment) (P : Parsers) (signer : Address) (s : Api) : Label → Option Api
  | .request body nonce now =>
    match body.decode P with
    | .error e => some ⟨s.backend, s.requests ++ [.refused e]⟩
    | .ok req =>
      let job := req.job D.sha256 nonce now s.backend.defaultDeadlineSecs
      (s.backend.next D (.create req nonce now)).map fun b =>
        ⟨b, s.requests ++ [.start s.backend.contract job]⟩
  | .turn i t =>
    match s.requests[i]? with
    | some r =>
      match r.next t with
      | some (r', l) => (perform D s.backend l).map fun b => ⟨b, s.requests.set i r'⟩
      | none => none
    | none => none
  | .mine entries => some (s.mine D signer entries)
  | .rest l =>
    if ofRequests l then none else (s.backend.next D l).map fun b => ⟨b, s.requests⟩

abbrev Steps (D : Deployment) (P : Parsers) (signer : Address) : Api → Api → Prop :=
  Transition.Steps (step D P signer) Transition.Any

/-- The ways a step can go, with what each requires. -/
inductive Step (D : Deployment) (P : Parsers) (signer : Address) (s : Api) :
    Label → Api → Prop where
  | refused {body : CreateJobBody} {nonce : FixedBytes 8} {now : UInt64} {e : ErrorResponse} :
      body.decode P = .error e →
      Step D P signer s (.request body nonce now) ⟨s.backend, s.requests ++ [.refused e]⟩
  | accepted {body : CreateJobBody} {nonce : FixedBytes 8} {now : UInt64}
      {req : CreateJobRequest} {b : Backend} :
      body.decode P = .ok req → s.backend.next D (.create req nonce now) = some b →
      Step D P signer s (.request body nonce now)
        ⟨b, s.requests ++ [.start s.backend.contract
          (req.job D.sha256 nonce now s.backend.defaultDeadlineSecs)]⟩
  | turn {i : Nat} {t : Turn} {r r' : Request} {l : Option Backend.Label} {b : Backend} :
      s.requests[i]? = some r → r.next t = some (r', l) → perform D s.backend l = some b →
      Step D P signer s (.turn i t) ⟨b, s.requests.set i r'⟩
  | mine {entries : List Entry} :
      Step D P signer s (.mine entries) (s.mine D signer entries)
  | rest {l : Backend.Label} {b : Backend} : ofRequests l = false →
      s.backend.next D l = some b → Step D P signer s (.rest l) ⟨b, s.requests⟩

/-- **Every step goes in one of these ways.** -/
theorem Step.of_step {D : Deployment} {P : Parsers} {signer : Address} {s s' : Api} {l : Label}
    (h : s.step D P signer l = some s') : Step D P signer s l s' := by
  cases l with
  | request body nonce now =>
    simp only [step] at h
    split at h
    · rename_i hdecode
      cases h
      exact .refused hdecode
    · rename_i hdecode
      obtain ⟨b, hb, rfl⟩ := Option.map_eq_some_iff.1 h
      exact .accepted hdecode hb
  | turn i t =>
    simp only [step] at h
    split at h
    · rename_i hr
      split at h
      · rename_i hnext
        obtain ⟨b, hb, rfl⟩ := Option.map_eq_some_iff.1 h
        exact .turn hr hnext hb
      · cases h
    · cases h
  | mine entries =>
    cases h
    exact .mine
  | rest l =>
    simp only [step] at h
    split at h
    · cases h
    · rename_i hl
      obtain ⟨b, hb, rfl⟩ := Option.map_eq_some_iff.1 h
      exact .rest (by simpa using hl) hb

/-! ## Every step is one of the process -/

section Backend

variable (D : Deployment) (signer : Address) {P : Parsers} {s s' : Api}

/-- An entry of a block is anybody's transaction, the first of a request, or nothing. -/
theorem execute_cases (n : Nat) (p : Chain × List Request) (e : Entry) :
    (∃ tx, e = .other tx ∧ execute D signer n p e = (p.1.execute D n tx, p.2)) ∨
    (∃ i r job hash timestamp verify, e = .own i timestamp verify ∧ p.2[i]? = some r ∧
      r.tx = some ⟨job, hash, none⟩ ∧
      let msg := submitJobMsg signer job timestamp verify
      execute D signer n p e =
        (p.1.execute D n (hash, submitJobCall job msg),
          p.2.set i (r.mined job hash msg p.1.world
            ((Registry.machine D).exec (submitJobCall job msg) p.1.world)))) ∨
    execute D signer n p e = p := by
  cases e with
  | other tx => exact .inl ⟨tx, rfl, rfl⟩
  | own i timestamp verify =>
    simp only [execute]
    split
    · rename_i r hr
      split
      · rename_i job hash htx
        exact .inr (.inl ⟨i, r, job, hash, timestamp, verify, rfl, hr, htx, rfl⟩)
      · exact .inr (.inr rfl)
    · exact .inr (.inr rfl)

theorem next_mine (s : Api) (entries : List Entry) :
    ∃ txs, s.backend.next D (.mine txs) = some (s.mine D signer entries).backend := by
  have hentry : ∀ p e, (execute D signer (s.backend.chain.head + 1) p e).1 = p.1 ∨
      ∃ tx, (execute D signer (s.backend.chain.head + 1) p e).1 =
        p.1.execute D (s.backend.chain.head + 1) tx := by
    intro p e
    rcases execute_cases D signer (s.backend.chain.head + 1) p e with ⟨tx, -, he⟩ |
      ⟨i, r, job, hash, timestamp, verify, -, -, -, he⟩ | he
    · exact .inr ⟨tx, by rw [he]⟩
    · exact .inr ⟨_, by rw [he]⟩
    · exact .inl (by rw [he])
  obtain ⟨txs, htxs⟩ := Chain.exists_txs hentry entries (s.backend.chain, s.requests)
  refine ⟨txs, ?_⟩
  simp only [Backend.next, Backend.step, Option.map_some, mine, Chain.mine, htxs]

/-- **Every step of a process with its requests is a step of the process**, or leaves it as it
is. -/
theorem Step.backend {D : Deployment} {signer : Address} {l : Label}
    (h : Step D P signer s l s') :
    s'.backend = s.backend ∨ ∃ bl, s.backend.next D bl = some s'.backend := by
  cases h with
  | refused => exact .inl rfl
  | accepted _ hb | rest _ hb => exact .inr ⟨_, hb⟩
  | @turn i t r r' l b _ _ hb =>
    cases l with
    | none =>
      cases hb
      exact .inl rfl
    | some bl => exact .inr ⟨bl, hb⟩
  | mine =>
    obtain ⟨txs, htxs⟩ := next_mine D signer s _
    exact .inr ⟨_, htxs⟩

end Backend

/-! ## No request is held up -/

section Held

variable {D : Deployment} {P : Parsers} {signer : Address} {s s' : Api}

/-- The process holds the jobs of its requests, each as often as there are requests for it. -/
structure Held (s : Api) : Prop where
  creating : ∀ job, s.backend.creating.count job =
    s.requests.countP fun r => r.creating = some job
  announcing : ∀ job, s.backend.announcing.count job =
    s.requests.countP fun r => r.announcing = some job

theorem countP_set {rs : List Request} {i : Nat} {r : Request} (hr : rs[i]? = some r)
    (r' : Request) (p : Request → Bool) :
    (rs.set i r').countP p + (if p r then 1 else 0) = rs.countP p + if p r' then 1 else 0 := by
  obtain ⟨hi, rfl⟩ := List.getElem?_eq_some_iff.1 hr
  have hle : (if p rs[i] then 1 else 0) ≤ rs.countP p := by
    split_ifs with h
    · exact List.countP_pos_iff.2 ⟨_, List.getElem_mem hi, h⟩
    · exact Nat.zero_le _
  rw [List.countP_set hi]
  omega

theorem Held.mem_creating (h : Held s) {i : Nat} {r : Request} (hr : s.requests[i]? = some r)
    {job : Job} (hjob : r.creating = some job) : job ∈ s.backend.creating := by
  rw [← List.count_pos_iff, h.creating]
  exact List.countP_pos_iff.2 ⟨r, List.mem_of_getElem? hr, by simpa using hjob⟩

theorem Held.mem_announcing (h : Held s) {i : Nat} {r : Request} (hr : s.requests[i]? = some r)
    {job : Job} (hjob : r.announcing = some job) : job ∈ s.backend.announcing := by
  rw [← List.count_pos_iff, h.announcing]
  exact List.countP_pos_iff.2 ⟨r, List.mem_of_getElem? hr, by simpa using hjob⟩

theorem Held.set (h : Held s) {i : Nat} {r r' : Request} (hr : s.requests[i]? = some r)
    {b : Backend}
    (hcreating : ∀ job, b.creating.count job + (if r.creating = some job then 1 else 0) =
      s.backend.creating.count job + if r'.creating = some job then 1 else 0)
    (hannouncing : ∀ job, b.announcing.count job + (if r.announcing = some job then 1 else 0) =
      s.backend.announcing.count job + if r'.announcing = some job then 1 else 0) :
    Held ⟨b, s.requests.set i r'⟩ := by
  refine ⟨?_, ?_⟩
  · intro job
    have hset := countP_set hr r' fun r => r.creating = some job
    have hjob := hcreating job
    rw [h.creating] at hjob
    simp only [decide_eq_true_eq] at hset
    show b.creating.count job = (s.requests.set i r').countP fun r => r.creating = some job
    omega
  · intro job
    have hset := countP_set hr r' fun r => r.announcing = some job
    have hjob := hannouncing job
    rw [h.announcing] at hjob
    simp only [decide_eq_true_eq] at hset
    show b.announcing.count job = (s.requests.set i r').countP fun r => r.announcing = some job
    omega

/-- **Nothing but the answers it waits for holds a request up**: the process can do what a turn
asks of it. -/
theorem Held.turn (h : Held s) {i : Nat} {r r' : Request} (hr : s.requests[i]? = some r) {t : Turn}
    {l : Option Backend.Label} (hnext : r.next t = some (r', l)) :
    ∃ b, perform D s.backend l = some b ∧ Held ⟨b, s.requests.set i r'⟩ := by
  have herase : ∀ (jobs : List Job) (job k : Job), job ∈ jobs →
      (jobs.erase job).count k + (if job = k then 1 else 0) = jobs.count k := by
    intro jobs job k hmem
    have hpos := List.count_pos_iff.2 hmem
    by_cases hk : job = k
    · subst hk
      rw [List.count_erase_self, if_pos rfl]
      omega
    · rw [List.count_erase_of_ne (Ne.symm hk), if_neg hk]
      rfl
  cases Request.Next.of_next hnext with
  | sent hs =>
    refine ⟨_, rfl, h.set hr ?_ ?_⟩
    · intro k
      simp [Request.creating, hs]
    · intro k
      simp [Request.announcing, hs]
  | receipt hs htx =>
    refine ⟨_, rfl, h.set hr ?_ ?_⟩
    · intro k
      simp [Request.creating, hs]
    · intro k
      simp [Request.announcing, hs]
  | @sendFailed job e hs | @receiptFailed job e hs =>
    have hjob : r.creating = some job := by
      simp [Request.creating, hs]
    have hmem := h.mem_creating hr hjob
    refine ⟨{ s.backend with creating := s.backend.creating.erase job }, ?_, h.set hr ?_ ?_⟩
    · simp [perform, Backend.next, Backend.step, hmem]
    · intro k
      simpa [Request.creating, hs] using herase _ job k hmem
    · intro k
      simp [Request.announcing, hs]
  | @insert job txHash hs =>
    have hjob : r.creating = some job := by
      simp [Request.creating, hs]
    have hmem := h.mem_creating hr hjob
    refine ⟨{ s.backend with
      jobs := Finmap.insert job.id job s.backend.jobs
      creating := s.backend.creating.erase job
      announcing := s.backend.announcing ++ [job] }, ?_, h.set hr ?_ ?_⟩
    · simp [perform, Backend.next, Backend.step, hmem]
    · intro k
      simpa [Request.creating, hs] using herase _ job k hmem
    · intro k
      simp [Request.announcing, hs, List.count_singleton]
  | @announce job txHash hs =>
    have hjob : r.announcing = some job := by
      simp [Request.announcing, hs]
    have hmem := h.mem_announcing hr hjob
    refine ⟨{ s.backend with announcing := s.backend.announcing.erase job }, ?_, h.set hr ?_ ?_⟩
    · simp [perform, Backend.next, Backend.step, hmem]
    · intro k
      simp [Request.creating, hs]
    · intro k
      simpa [Request.announcing, hs] using herase _ job k hmem

theorem Held.append (h : Held s) {r : Request} {b : Backend}
    (hcreating : ∀ job, b.creating.count job =
      s.backend.creating.count job + if r.creating = some job then 1 else 0)
    (hannouncing : b.announcing = s.backend.announcing) (hr : r.announcing = none) :
    Held ⟨b, s.requests ++ [r]⟩ := by
  refine ⟨?_, ?_⟩
  · intro job
    rw [hcreating, h.creating, List.countP_append, List.countP_singleton]
    simp
  · intro job
    rw [hannouncing, h.announcing, List.countP_append, List.countP_singleton, hr]
    simp

theorem Held.mine (h : Held s) (entries : List Entry) : Held (s.mine D signer entries) := by
  have hfold : ∀ (n : Nat) (q : Request → Bool), (∀ r job hash msg w out,
      q (Request.mined r job hash msg w out) = q r) → ∀ p : Chain × List Request,
        (entries.foldl (execute D signer n) p).2.countP q = p.2.countP q := by
    intro n q hq
    induction entries with
    | nil => exact fun p => rfl
    | cons e entries ih =>
      intro p
      rw [List.foldl_cons, ih]
      rcases execute_cases D signer n p e with ⟨tx, -, he⟩ |
        ⟨i, r, job, hash, timestamp, verify, -, hr, -, he⟩ | he
      · rw [he]
      · have hset := countP_set hr (r.mined job hash (submitJobMsg signer job timestamp verify)
          p.1.world ((Registry.machine D).exec
            (submitJobCall job (submitJobMsg signer job timestamp verify)) p.1.world)) q
        rw [hq] at hset
        rw [he]
        exact Nat.add_right_cancel hset
      · rw [he]
  refine ⟨?_, ?_⟩
  · intro job
    exact (h.creating job).trans (hfold _ _ (fun _ _ _ _ _ _ => rfl) (_, _)).symm
  · intro job
    exact (h.announcing job).trans (hfold _ _ (fun _ _ _ _ _ _ => rfl) (_, _)).symm

theorem Held.step (h : Held s) {l : Label} (hstep : s.step D P signer l = some s') : Held s' := by
  cases Step.of_step hstep with
  | refused =>
    refine h.append ?_ rfl rfl
    intro job
    simp [Request.refused, Request.creating]
  | accepted _ hb =>
    cases hb
    refine h.append ?_ rfl ?_
    · intro job
      cases s.backend.contract <;>
        simp [Request.start, Request.creating, List.count_singleton]
    · cases s.backend.contract <;> simp [Request.start, Request.announcing]
  | turn hr hnext hb =>
    obtain ⟨b', hb', hheld⟩ := h.turn hr hnext
    obtain rfl := Option.some.inj (hb.symm.trans hb')
    exact hheld
  | mine => exact h.mine _
  | rest hl hb =>
    obtain ⟨ms, hbstep⟩ := Backend.Step.of_next hb
    cases hbstep with
    | create | insert | abandon | announce | mine => cases hl
    | _ => exact ⟨h.creating, h.announcing⟩

theorem held_start {b : Backend} (hc : b.creating = []) (ha : b.announcing = []) :
    Held (start b) := by
  refine ⟨?_, ?_⟩
  · intro job
    simp [start, hc]
  · intro job
    simp [start, ha]

/-- **A request takes every turn it may take**, in every run. -/
theorem Steps.turn_enabled {b : Backend} (hc : b.creating = []) (ha : b.announcing = [])
    (h : Steps D P signer (start b) s) {i : Nat} {r r' : Request}
    (hr : s.requests[i]? = some r) {t : Turn} {l : Option Backend.Label}
    (hnext : r.next t = some (r', l)) :
    ∃ s', s.step D P signer (.turn i t) = some s' ∧ s'.requests = s.requests.set i r' := by
  have hheld : Held s :=
    Transition.Steps.invariant (fun _ _ _ hs _ hst => hs.step hst) h (held_start hc ha)
  obtain ⟨b', hb', -⟩ : ∃ b', perform D s.backend l = some b' ∧ _ := hheld.turn hr hnext
  refine ⟨⟨b', s.requests.set i r'⟩, ?_, rfl⟩
  simp [Api.step, hr, hnext, hb']

end Held

end Api

end ProofMarket
