import ProofMarket.Coordinator.Creation
import ProofMarket.Coordinator.Assignments

/-!
# What a client is told about its job

`get_job` and `get_job_status` of `api.rs` look a job up by the text of its id, between the steps of
all the tasks that write the map.

**Theorem (`session`).** Once `create_job` has answered, the id it gave finds the job in every later
state, with the payload, reward and owner of the request. Only the status changes, and it only moves
forward: from pending over assigned and expired to completed.

The printers of `alloy_primitives` and of the standard library are parameters, as the parsers are.
-/

namespace ProofMarket

open Registry (Deployment)

namespace Coordinator

/-! ## The handlers -/

/-- The `StatusCode`s of the errors of `get_job` and `get_job_status`. -/
inductive QueryStatus where
  | badRequest
  | notFound
  deriving DecidableEq

structure QueryError where
  status : QueryStatus
  message : String
  deriving DecidableEq

inductive JobStatusResponse where
  | pending
  | assigned (worker : String) (assignedAt : UInt64)
  | proving
  | completed (txHash : String)
  | failed (reason : String)
  | expired
  deriving DecidableEq

structure JobResponse where
  id : String
  owner : String
  payload : String
  reward : BitVec 128
  createdAt : UInt64
  deadline : UInt64
  status : JobStatusResponse
  deriving DecidableEq

/-- `Display` of an `Address`, and `String::from_utf8_lossy`. -/
structure Printers where
  address : Address → String
  utf8Lossy : Bytes → String

/-- `JobStatusResponse::from`. -/
def JobStatusResponse.ofStatus (F : Printers) : JobStatus → JobStatusResponse
  | .pending => .pending
  | .assigned worker assignedAt => .assigned (Hex.encode worker.bytes.val) assignedAt
  | .proving => .proving
  | .completed txHash => .completed (hexId txHash.bytes)
  | .failed reason => .failed (F.utf8Lossy reason)
  | .expired => .expired

/-- `parse_job_id`. -/
def parseJobId (P : Parsers) (id : String) : Except QueryError JobId :=
  match P.hexDecode (trimStart0x id) with
  | .error e => .error ⟨.badRequest, "invalid job id: " ++ e⟩
  | .ok bytes =>
    if h : bytes.length = 32 then .ok ⟨bytes, h⟩
    else .error ⟨.badRequest, "job id must be 32 bytes"⟩

/-- The first lines of both handlers. -/
def findJob (P : Parsers) (jobs : JobMap) (id : String) : Except QueryError Job := do
  let jobId ← parseJobId P id
  match jobs.lookup jobId with
  | some job => .ok job
  | none => .error ⟨.notFound, "job not found"⟩

/-- What `get_job` makes of a job. -/
def jobResponse (F : Printers) (job : Job) : JobResponse where
  id := hexId job.id.bytes
  owner := F.address job.owner
  payload := "0x" ++ Hex.encode job.payload
  reward := job.reward
  createdAt := job.createdAt
  deadline := job.deadline
  status := .ofStatus F job.jobStatus

/-- `get_job`. -/
def getJob (P : Parsers) (F : Printers) (jobs : JobMap) (id : String) :
    Except QueryError JobResponse :=
  (findJob P jobs id).map (jobResponse F)

/-- `get_job_status`. -/
def getJobStatus (P : Parsers) (F : Printers) (jobs : JobMap) (id : String) :
    Except QueryError JobStatusResponse :=
  (findJob P jobs id).map fun job => .ofStatus F job.jobStatus

theorem getJobStatus_eq (P : Parsers) (F : Printers) (jobs : JobMap) (id : String) :
    getJobStatus P F jobs id = (getJob P F jobs id).map JobResponse.status := by
  unfold getJobStatus getJob
  cases findJob P jobs id <;> rfl

/-! ## Ids as text -/

/-- `hex::decode` reads what `hex::encode` writes. -/
def Parsers.Decodes (P : Parsers) : Prop := ∀ bytes, P.hexDecode (Hex.encode bytes) = .ok bytes

theorem digit_ne_x : ∀ n < 16, Hex.digit n ≠ 'x' := by
  decide

theorem trim_digits (bytes : Bytes) : trimStart0x.trim (Hex.digits bytes) = Hex.digits bytes := by
  cases bytes with
  | nil => rfl
  | cons b bytes =>
    have hlow : Hex.digit (b.toNat % 16) ≠ 'x' := digit_ne_x _ (by omega)
    show trimStart0x.trim (_ :: Hex.digit (b.toNat % 16) :: Hex.digits bytes) = _
    unfold trimStart0x.trim
    split
    · rename_i heq
      simp only [List.cons.injEq] at heq
      exact absurd heq.2.1 hlow
    · rfl

theorem trimStart0x_encode (bytes : Bytes) :
    trimStart0x ("0x" ++ Hex.encode bytes) = Hex.encode bytes := by
  have hchars : ("0x" ++ Hex.encode bytes).toList = '0' :: 'x' :: Hex.digits bytes := by
    simp [Hex.encode]
  unfold trimStart0x
  rw [hchars, trimStart0x.trim, trim_digits, Hex.encode]

/-- **The text of an id is read back**, as the id. -/
theorem parseJobId_hexId {P : Parsers} (hP : P.Decodes) (j : JobId) :
    parseJobId P (hexId j.bytes) = .ok j := by
  have hread := hP j.bytes.val
  simp [parseJobId, hexId, trimStart0x_encode, hread, j.bytes.length_eq]

theorem findJob_hexId {P : Parsers} (hP : P.Decodes) {jobs : JobMap} {j : JobId} {job : Job}
    (h : jobs.lookup j = some job) : findJob P jobs (hexId j.bytes) = .ok job := by
  simp [findJob, parseJobId_hexId hP, h, bind, Except.bind]

end Coordinator

open Coordinator

/-! ## Statuses move forward -/

namespace JobStatus

/-- How far a job has come. -/
def rank : JobStatus → Nat
  | .pending => 0
  | .assigned _ _ => 1
  | .proving => 2
  | .failed _ => 3
  | .expired => 4
  | .completed _ => 5

/-- Statuses that some task writes. -/
def Written : JobStatus → Prop
  | .proving | .failed _ => False
  | _ => True

/-- What a step makes of a status: it stays, or it moves on to one that is written. -/
def Leads (st st' : JobStatus) : Prop := st = st' ∨ (st.rank < st'.rank ∧ st'.Written)

theorem Leads.written {st st' : JobStatus} (h : st.Leads st') (hst : st.Written) :
    st'.Written := by
  rcases h with rfl | h
  · exact hst
  · exact h.2

theorem Leads.trans {a b c : JobStatus} (h : a.Leads b) (h' : b.Leads c) : a.Leads c := by
  rcases h with rfl | h
  · exact h'
  · rcases h' with rfl | h'
    · exact .inr h
    · exact .inr ⟨h.1.trans h'.1, h'.2⟩

theorem leads_completed {st : JobStatus} (h : st.isCompleted = false) (x : TxHash) :
    st.Leads (.completed x) := by
  refine .inr ⟨?_, trivial⟩
  cases st with
  | completed => cases h
  | _ => simp [rank]

theorem leads_expired {st : JobStatus} (h : st.isCompleted = false) (h' : st ≠ .expired) :
    st.Leads .expired := by
  refine .inr ⟨?_, trivial⟩
  cases st with
  | completed => cases h
  | expired => exact absurd rfl h'
  | _ => simp [rank]

end JobStatus

namespace Backend

variable {D : Deployment} {s s' : Backend} {l : Label} {ms : List GossipMessage}

/-- **What a step does to an entry of the map**, unless it inserts a job under its id. -/
theorem Step.entry (hstep : Step D s l s' ms) {j : JobId} {entry : Job}
    (hentry : s.jobs.lookup j = some entry)
    (hl : ∀ job ∈ s.creating, l = .insert job → job.id ≠ j) :
    ∃ st, s'.jobs.lookup j = some { entry with jobStatus := st } ∧ entry.jobStatus.Leads st := by
  cases hstep with
  | @claim k w now reachable =>
    rcases handleClaim_cases now s.jobs k w with ⟨job, hjob, hp, hcl⟩ | ⟨-, reason, hcl⟩
    · by_cases hk : j = k
      · subst hk
        rw [hentry] at hjob
        cases hjob
        refine ⟨.assigned w now, by simp [hcl], .inr ⟨?_, trivial⟩⟩
        rw [hp]
        exact Nat.zero_lt_one
      · exact ⟨entry.jobStatus, by simp [hcl, hk, hentry], .inl rfl⟩
    · exact ⟨entry.jobStatus, by simp [hcl, hentry], .inl rfl⟩
  | @record k x hv =>
    show ∃ st, (Coordinator.recordCompletion s.jobs k x).lookup j = _ ∧ _
    rw [lookup_recordCompletion]
    by_cases hk : j = k
    · subst hk
      cases hc : entry.jobStatus.isCompleted with
      | false => exact ⟨.completed x, by simp [hentry, hc], JobStatus.leads_completed hc x⟩
      | true => exact ⟨entry.jobStatus, by simp [hentry, hc], .inl rfl⟩
    · exact ⟨entry.jobStatus, by simp [hk, hentry], .inl rfl⟩
  | @applyCompleted head k x logs hp =>
    show ∃ st, (Indexer.handleJobCompleted s.jobs k x).lookup j = _ ∧ _
    rw [lookup_handleJobCompleted]
    by_cases hk : j = k
    · subst hk
      cases hc : entry.jobStatus.isCompleted with
      | false => exact ⟨.completed x, by simp [hentry, hc], JobStatus.leads_completed hc x⟩
      | true => exact ⟨entry.jobStatus, by simp [hentry, hc], .inl rfl⟩
    · exact ⟨entry.jobStatus, by simp [hk, hentry], .inl rfl⟩
  | @applyExpired head k logs hp =>
    show ∃ st, (Indexer.handleJobExpired s.jobs k).lookup j = _ ∧ _
    rw [lookup_handleJobExpired]
    by_cases hk : j = k
    · subst hk
      rw [if_pos rfl, hentry, Option.map_some]
      split
      · rename_i hopen
        obtain ⟨hcompleted, hexpired⟩ : entry.jobStatus.isCompleted = false ∧
            entry.jobStatus ≠ .expired := by simpa using hopen
        exact ⟨.expired, rfl, JobStatus.leads_expired hcompleted hexpired⟩
      · exact ⟨entry.jobStatus, rfl, .inl rfl⟩
    · exact ⟨entry.jobStatus, by simp [hk, hentry], .inl rfl⟩
  | @insert job hmem =>
    have hne : j ≠ job.id := fun hj => hl job hmem rfl hj.symm
    exact ⟨entry.jobStatus, by simp [hne, hentry], .inl rfl⟩
  | _ => exact ⟨entry.jobStatus, hentry, .inl rfl⟩

/-- The map holds the job with the status `st`, and no request will insert another under its id. -/
structure Stores (s : Backend) (job : Job) (st : JobStatus) : Prop where
  entry : s.jobs.lookup job.id = some { job with jobStatus := st }
  settled : ∀ other ∈ s.creating, other.id ≠ job.id

/-- **A stored job stays**, and its status only moves forward. -/
theorem Stores.step {job : Job} {st : JobStatus} (h : s.Stores job st) (hstep : Step D s l s' ms)
    (hfresh : s.ChoosesFresh D l) : ∃ st', s'.Stores job st' ∧ st.Leads st' := by
  obtain ⟨st', hentry, hleads⟩ := hstep.entry h.entry fun other hother _ => h.settled other hother
  refine ⟨st', ⟨hentry, ?_⟩, hleads⟩
  intro other hother
  rcases hstep.creating_cases hother with hold | ⟨req, nonce, now, rfl, rfl⟩
  · exact h.settled other hold
  · intro hid
    have hnew : s.jobs.status _ = none := hfresh.1
    rw [hid] at hnew
    simp [JobMap.status, h.entry] at hnew

end Backend

namespace Api

variable {D : Deployment} {P : Parsers} {signer : Address} {s s' : Api} {l : Label}

/-! ## One request and its job -/

/-- A request that is accepted is given a fresh id. -/
def ChoosesFresh (D : Deployment) (P : Parsers) (s : Api) : Label → Prop
  | .request body nonce now => ∀ req, body.decode P = .ok req →
      s.backend.ChoosesFresh D (.create req nonce now)
  | _ => True

theorem Step.backend_fresh (h : Step D P signer s l s') (hfresh : s.ChoosesFresh D P l) :
    s'.backend = s.backend ∨
      ∃ bl ms, Backend.Step D s.backend bl s'.backend ms ∧ s.backend.ChoosesFresh D bl := by
  cases h with
  | refused => exact .inl rfl
  | accepted hdecode hb =>
    obtain ⟨ms, hstep⟩ := Backend.Step.of_next hb
    exact .inr ⟨_, ms, hstep, hfresh _ hdecode⟩
  | @turn i t r r' bl b hr hnext hb =>
    cases bl with
    | none =>
      cases hb
      exact .inl rfl
    | some bl =>
      obtain ⟨ms, hstep⟩ := Backend.Step.of_next hb
      refine .inr ⟨bl, ms, hstep, ?_⟩
      cases Request.Next.of_next hnext <;> trivial
  | mine =>
    obtain ⟨txs, htxs⟩ := next_mine D signer s _
    obtain ⟨ms, hstep⟩ := Backend.Step.of_next htxs
    exact .inr ⟨_, ms, hstep, trivial⟩
  | @rest bl b hl hb =>
    obtain ⟨ms, hstep⟩ := Backend.Step.of_next hb
    refine .inr ⟨bl, ms, hstep, ?_⟩
    cases bl with
    | create => cases hl
    | _ => trivial

theorem Step.createsDistinct (h : Step D P signer s l s') (hfresh : s.ChoosesFresh D P l)
    (hs : s.backend.CreatesDistinct) : s'.backend.CreatesDistinct := by
  rcases h.backend_fresh hfresh with hb | ⟨bl, ms, hstep, hbl⟩
  · rw [hb]
    exact hs
  · exact hstep.createsDistinct hbl hs

theorem Step.stores (h : Step D P signer s l s') (hfresh : s.ChoosesFresh D P l) {job : Job}
    {st : JobStatus} (hs : s.backend.Stores job st) :
    ∃ st', s'.backend.Stores job st' ∧ st.Leads st' := by
  rcases h.backend_fresh hfresh with hb | ⟨bl, ms, hstep, hbl⟩
  · rw [hb]
    exact ⟨st, hs, .inl rfl⟩
  · exact hs.step hstep hbl

/-- Where the request `i` stands. -/
def stage (s : Api) (i : Nat) : Option Stage := s.requests[i]?.map Request.stage

theorem stage_mine (s : Api) (entries : List Entry) (i : Nat) :
    (s.mine D signer entries).stage i = s.stage i := by
  have hfold : ∀ (n : Nat) (p : Chain × List Request),
      (entries.foldl (execute D signer n) p).2[i]?.map Request.stage =
        p.2[i]?.map Request.stage := by
    intro n
    induction entries with
    | nil => exact fun p => rfl
    | cons e entries ih =>
      intro p
      rw [List.foldl_cons, ih]
      rcases execute_cases D signer n p e with ⟨tx, -, he⟩ |
        ⟨k, r, job, hash, timestamp, verify, -, hr, -, he⟩ | he
      · rw [he]
      · rw [he]
        by_cases hk : k = i
        · subst hk
          have hlt := (List.getElem?_eq_some_iff.1 hr).1
          simp [List.getElem?_set_self hlt, hr, Request.mined]
        · rw [List.getElem?_set_ne hk]
      · rw [he]
  exact hfold _ (_, _)

theorem Step.returned (h : Step D P signer s l s') {i : Nat}
    {result : Except ErrorResponse CreateJobResponse} (hi : s.stage i = some (.returned result)) :
    s'.stage i = some (.returned result) := by
  obtain ⟨r, hr, hstage⟩ := Option.map_eq_some_iff.1 hi
  have hlt := (List.getElem?_eq_some_iff.1 hr).1
  cases h with
  | refused | accepted => simp [Api.stage, List.getElem?_append_left hlt, hr, hstage]
  | @turn k t q q' bl b hq hnext hperform =>
    by_cases hk : k = i
    · subst hk
      obtain rfl := Option.some.inj (hr.symm.trans hq)
      cases Request.Next.of_next hnext <;> simp_all
    · simp [Api.stage, List.getElem?_set_ne hk, hr, hstage]
  | mine => rw [stage_mine, hi]
  | rest => exact hi

/-- What the stage of a request says about its job. -/
inductive Follows (b : Backend) (job : Job) : Stage → Prop where
  | sending : Follows b job (.sending job)
  | awaiting : Follows b job (.awaiting job)
  | storing (txHash : Option TxHash) : Follows b job (.storing job txHash)
  | announcing {st : JobStatus} (txHash : Option TxHash) : b.Stores job st → st.Written →
      Follows b job (.announcing job txHash)
  | answered {st : JobStatus} (txHash : Option TxHash) : b.Stores job st → st.Written →
      Follows b job (.returned (.ok (createJobResponse job txHash)))
  | failed (e : ErrorResponse) : Follows b job (.returned (.error e))

theorem Follows.of_stores {b b' : Backend} {job : Job} {stage : Stage} (h : Follows b job stage)
    (hstores : ∀ st, b.Stores job st → ∃ st', b'.Stores job st' ∧ st.Leads st') :
    Follows b' job stage := by
  cases h with
  | sending => exact .sending
  | awaiting => exact .awaiting
  | storing txHash => exact .storing txHash
  | announcing txHash hst hw =>
    obtain ⟨st', hst', hleads⟩ := hstores _ hst
    exact .announcing txHash hst' (hleads.written hw)
  | answered txHash hst hw =>
    obtain ⟨st', hst', hleads⟩ := hstores _ hst
    exact .answered txHash hst' (hleads.written hw)
  | failed e => exact .failed e

theorem stores_insert {b b' : Backend} {ms : List GossipMessage} {job : Job}
    (hstep : Backend.Step D b (.insert job) b' ms) (hb : b.CreatesDistinct)
    (hjob : job.jobStatus = .pending) : b'.Stores job .pending := by
  cases hstep with
  | insert hmem =>
    refine ⟨?_, fun other hother => Backend.not_mem_erase_of_nodup hb hmem hother⟩
    show Finmap.lookup job.id (Finmap.insert job.id job b.jobs) = _
    rw [Finmap.lookup_insert, ← hjob]

theorem Follows.turn {b b' : Backend} {job : Job} {r r' : Request} {t : Turn}
    {bl : Option Backend.Label} (h : Follows b job r.stage) (hb : b.CreatesDistinct)
    (hjob : job.jobStatus = .pending) (hnext : Request.Next r t r' bl)
    (hperform : perform D b bl = some b')
    (hstores : ∀ st, b.Stores job st → ∃ st', b'.Stores job st' ∧ st.Leads st') :
    Follows b' job r'.stage := by
  cases hnext with
  | sent hs =>
    rw [hs] at h
    cases h
    exact .awaiting
  | sendFailed hs | receiptFailed hs => exact .failed _
  | receipt hs htx =>
    rw [hs] at h
    cases h
    exact .storing _
  | insert hs =>
    rw [hs] at h
    cases h
    obtain ⟨ms, hstep⟩ := Backend.Step.of_next hperform
    exact .announcing _ (stores_insert hstep hb hjob) trivial
  | announce hs =>
    rw [hs] at h
    cases h with
    | announcing _ hst hw =>
      obtain ⟨st', hst', hleads⟩ := hstores _ hst
      exact .answered _ hst' (hleads.written hw)

theorem Follows.step {i : Nat} {job : Job} {stage : Stage} (h : Follows s.backend job stage)
    (hi : s.stage i = some stage) (hs : s.backend.CreatesDistinct)
    (hjob : job.jobStatus = .pending) (hstep : Step D P signer s l s')
    (hfresh : s.ChoosesFresh D P l) :
    ∃ stage', s'.stage i = some stage' ∧ Follows s'.backend job stage' := by
  have hstores : ∀ st, s.backend.Stores job st →
      ∃ st', s'.backend.Stores job st' ∧ st.Leads st' := fun st => hstep.stores hfresh
  obtain ⟨r, hr, rfl⟩ := Option.map_eq_some_iff.1 hi
  have hlt := (List.getElem?_eq_some_iff.1 hr).1
  cases hstep with
  | refused | accepted =>
    refine ⟨r.stage, ?_, h.of_stores hstores⟩
    simp [Api.stage, List.getElem?_append_left hlt, hr]
  | @turn k t q q' bl b hq hnext hperform =>
    by_cases hk : k = i
    · subst hk
      obtain rfl := Option.some.inj (hr.symm.trans hq)
      refine ⟨q'.stage, ?_, h.turn hs hjob (.of_next hnext) hperform hstores⟩
      simp [Api.stage, List.getElem?_set_self hlt]
    · refine ⟨r.stage, ?_, h.of_stores hstores⟩
      simp [Api.stage, List.getElem?_set_ne hk, hr]
  | mine =>
    refine ⟨r.stage, ?_, h.of_stores hstores⟩
    rw [stage_mine]
    exact hi
  | rest =>
    exact ⟨r.stage, hi, h.of_stores hstores⟩

/-! ## Runs -/

/-- Runs in which every accepted request is given a fresh id. -/
abbrev FreshSteps (D : Deployment) (P : Parsers) (signer : Address) : Api → Api → Prop :=
  Transition.Steps (step D P signer) (ChoosesFresh D P)

theorem FreshSteps.createsDistinct (h : FreshSteps D P signer s s')
    (hs : s.backend.CreatesDistinct) : s'.backend.CreatesDistinct :=
  h.invariant (I := fun u => u.backend.CreatesDistinct)
    (fun _ _ _ hu hl hst => (Step.of_step hst).createsDistinct hl hu) hs

theorem FreshSteps.stores (h : FreshSteps D P signer s s') {job : Job} {st : JobStatus}
    (hs : s.backend.Stores job st) : ∃ st', s'.backend.Stores job st' ∧ st.Leads st' := by
  refine h.invariant (I := fun u => ∃ st', u.backend.Stores job st' ∧ st.Leads st') ?_
    ⟨st, hs, .inl rfl⟩
  rintro u l v ⟨st', hst', hleads⟩ hl hst
  obtain ⟨st'', hst'', hleads'⟩ := (Step.of_step hst).stores hl hst'
  exact ⟨st'', hst'', hleads.trans hleads'⟩

theorem FreshSteps.follows (h : FreshSteps D P signer s s') (hs : s.backend.CreatesDistinct)
    {i : Nat} {job : Job} (hjob : job.jobStatus = .pending) {stage : Stage}
    (hi : s.stage i = some stage) (hfollows : Follows s.backend job stage) :
    ∃ stage', s'.stage i = some stage' ∧ Follows s'.backend job stage' := by
  have hboth := h.invariant (I := fun u => u.backend.CreatesDistinct ∧
    ∃ stage', u.stage i = some stage' ∧ Follows u.backend job stage') ?_ ⟨hs, stage, hi, hfollows⟩
  · exact hboth.2
  · intro u l v hu hl hst
    obtain ⟨hdistinct, stage', hstage', hfollows'⟩ := hu
    have hstep := Step.of_step hst
    exact ⟨hstep.createsDistinct hl hdistinct,
      hfollows'.step hstage' hdistinct hjob hstep hl⟩

theorem FreshSteps.returned (h : FreshSteps D P signer s s') {i : Nat}
    {result : Except ErrorResponse CreateJobResponse} (hi : s.stage i = some (.returned result)) :
    s'.stage i = some (.returned result) :=
  h.invariant (I := fun u => u.stage i = some (.returned result))
    (fun _ _ _ hu _ hst => (Step.of_step hst).returned hu) hi

/-- Two answers of `get_job` about the job of a request, the second one later. -/
structure Session (P : Parsers) (F : Printers) (body : CreateJobBody) (now deadline : UInt64)
    (answer : CreateJobResponse) (first second : JobResponse) : Prop where
  id : first.id = answer.jobId
  payload : P.hexDecode (trimStart0x first.payload) = P.hexDecode (trimStart0x body.payload)
  owner : ∃ owner, first.owner = F.address owner ∧
    match body.owner with
    | none => owner = Address.zero
    | some s => P.parseAddress (trimStart0x s) = .ok owner
  reward : first.reward = body.reward
  createdAt : first.createdAt = now
  deadline : first.deadline = deadline
  same : second = { first with status := second.status }
  forward : ∃ st st', first.status = .ofStatus F st ∧ second.status = .ofStatus F st' ∧
    st.Written ∧ st.Leads st'

theorem decode_eq_ok {body : CreateJobBody} {req : CreateJobRequest}
    (h : body.decode P = .ok req) :
    P.hexDecode (trimStart0x body.payload) = .ok req.payload ∧ req.reward = body.reward ∧
      match body.owner with
      | none => req.owner.getD Address.zero = Address.zero
      | some s => P.parseAddress (trimStart0x s) = .ok (req.owner.getD Address.zero) := by
  unfold CreateJobBody.decode at h
  cases hpayload : P.hexDecode (trimStart0x body.payload) with
  | error e => simp [hpayload] at h
  | ok payload =>
    cases howner : body.owner with
    | none =>
      simp only [hpayload, howner, Except.ok.injEq] at h
      subst h
      exact ⟨rfl, rfl, rfl⟩
    | some text =>
      cases hparse : P.parseAddress (trimStart0x text) with
      | error e => simp [hpayload, howner, hparse] at h
      | ok owner =>
        simp only [hpayload, howner, hparse, Except.ok.injEq] at h
        subst h
        exact ⟨rfl, rfl, hparse⟩

/-- **A client finds its job**, as it has asked for it, in every state after the answer. -/
theorem session (F : Printers) (hP : P.Decodes) {chain : Chain} {contract : Bool}
    {defaultDeadlineSecs : UInt64} {m : JobMap} {startBlock : Nat} {s₀ s₁ s₂ s₃ s₄ : Api}
    (h₀ : FreshSteps D P signer
      (start (.start chain contract defaultDeadlineSecs m startBlock)) s₀)
    {body : CreateJobBody} {nonce : FixedBytes 8} {now : UInt64}
    (hfresh : s₀.ChoosesFresh D P (.request body nonce now))
    (h₁ : s₀.step D P signer (.request body nonce now) = some s₁)
    (h₂ : FreshSteps D P signer s₁ s₂) {answer : CreateJobResponse}
    (hanswer : s₂.stage s₀.requests.length = some (.returned (.ok answer)))
    (h₃ : FreshSteps D P signer s₂ s₃) (h₄ : FreshSteps D P signer s₃ s₄) :
    ∃ first second,
      getJob P F s₃.backend.jobs answer.jobId = .ok first ∧
      getJob P F s₄.backend.jobs answer.jobId = .ok second ∧
      Session P F body now (now + s₀.backend.defaultDeadlineSecs) answer first second := by
  have hdistinct₀ : s₀.backend.CreatesDistinct := h₀.createsDistinct List.nodup_nil
  have hstep := Step.of_step h₁
  have hdistinct₁ := hstep.createsDistinct hfresh hdistinct₀
  generalize hlabel : Label.request body nonce now = label at hstep
  cases hstep with
  | turn | mine | rest => cases hlabel
  | @refused body' nonce' now' e hdecode =>
    -- A refused request has its answer, and it is another.
    have hstage : Api.stage ⟨s₀.backend, s₀.requests ++ [.refused e]⟩ s₀.requests.length =
        some (.returned (.error e)) := by
      simp [stage, Request.refused]
    have hlater := h₂.returned hstage
    rw [hanswer] at hlater
    cases hlater
  | @accepted body' nonce' now' req b hdecode hb =>
    cases hlabel
    set job := req.job D.sha256 nonce now s₀.backend.defaultDeadlineSecs with hjob
    have hpending : job.jobStatus = .pending := rfl
    obtain ⟨stage₁, hstage₁, hfollows₁⟩ : ∃ stage₁,
        Api.stage ⟨b, s₀.requests ++ [.start s₀.backend.contract job]⟩ s₀.requests.length =
          some stage₁ ∧ Follows b job stage₁ := by
      cases hc : s₀.backend.contract with
      | true => exact ⟨.sending job, by simp [stage, Request.start], .sending⟩
      | false => exact ⟨.storing job none, by simp [stage, Request.start], .storing none⟩
    obtain ⟨stage₂, hstage₂, hfollows₂⟩ := h₂.follows hdistinct₁ hpending hstage₁ hfollows₁
    obtain rfl := Option.some.inj (hanswer.symm.trans hstage₂)
    cases hfollows₂ with
    | @answered st txHash hst hw =>
      obtain ⟨st₃, hst₃, hleads₃⟩ := h₃.stores hst
      obtain ⟨st₄, hst₄, hleads₄⟩ := h₄.stores hst₃
      obtain ⟨hpayload, hreward, howner⟩ := decode_eq_ok hdecode
      refine ⟨jobResponse F { job with jobStatus := st₃ },
        jobResponse F { job with jobStatus := st₄ }, ?_, ?_, ?_⟩
      · exact congrArg (Except.map (jobResponse F)) (findJob_hexId hP hst₃.entry)
      · exact congrArg (Except.map (jobResponse F)) (findJob_hexId hP hst₄.entry)
      · refine ⟨rfl, ?_, ⟨_, rfl, howner⟩, hreward, rfl, rfl, rfl, st₃, st₄, rfl, rfl,
          hleads₃.written hw, hleads₄⟩
        rw [hpayload]
        show P.hexDecode (trimStart0x ("0x" ++ Hex.encode req.payload)) = _
        rw [trimStart0x_encode, hP]

/-! ## A job that is claimed -/

section Example

open Sample

/-- The crate `hex`, up to the texts of its errors. -/
def hexParsers : Parsers where
  hexDecode s :=
    match Hex.decode s.toList with
    | some bytes => .ok bytes
    | none => .error "invalid hex"
  parseAddress _ := .error "invalid address"

def hexPrinters : Printers := ⟨fun a => "0x" ++ Hex.encode a.bytes.val, fun _ => ""⟩

def noContract : Api := start (.start (Chain.genesis 0) false 300 ∅ 0)

def created : List Label := [.turn 0 .insert, .turn 0 .announce]

def claimed : List Label := [.rest (.recv (.claimJob jobId ⟨.fill 32 2⟩) 1010 true)]

/-- The answer of the first request. -/
def firstAnswer (s : Api) : Option CreateJobResponse :=
  match s.stage 0 with
  | some (.returned (.ok answer)) => some answer
  | _ => none

/-- The client asks once before the claim and once after it. -/
theorem session_claimed : ∃ s s' : Api, ∃ answer first second,
    s.backend.jobs.status jobId = some .pending ∧
    s'.backend.jobs.status jobId = some (.assigned ⟨.fill 32 2⟩ 1010) ∧
    getJob hexParsers hexPrinters s.backend.jobs answer.jobId = .ok first ∧
    getJob hexParsers hexPrinters s'.backend.jobs answer.jobId = .ok second ∧
    Session hexParsers hexPrinters body 1000 1300 answer first second := by
  let request : Label := .request body nonce 1000
  have hcreated : (Transition.run (step deployment hexParsers signer) (request :: created)
      noContract).map (fun s => (firstAnswer s, s.backend.jobs.status jobId)) =
        some (some ⟨hexId jobId.bytes, none⟩, some .pending) := by
    decide +kernel
  have hclaimed : (Transition.run (step deployment hexParsers signer)
      (request :: created ++ claimed) noContract).map (fun s => s.backend.jobs.status jobId) =
        some (some (.assigned ⟨.fill 32 2⟩ 1010)) := by
    decide +kernel
  obtain ⟨s', hs', hassigned⟩ := Option.map_eq_some_iff.1 hclaimed
  obtain ⟨s, hs, hlast⟩ := Transition.run_split hs'
  rw [hs, Option.map_some, Option.some.injEq, Prod.mk.injEq] at hcreated
  obtain ⟨hanswer, hpending⟩ := hcreated
  obtain ⟨s₁, hs₁, hrest⟩ := Option.bind_eq_some_iff.1 hs
  have hstage : s.stage 0 = some (.returned (.ok ⟨hexId jobId.bytes, none⟩)) := by
    unfold firstAnswer at hanswer
    split at hanswer
    · rename_i answer hstage
      cases hanswer
      exact hstage
    · cases hanswer
  have hreads : hexParsers.Decodes := by
    intro bytes
    simp [hexParsers, Hex.encode, Hex.decode_digits]
  have hfresh : noContract.ChoosesFresh deployment hexParsers request :=
    fun _ _ => ⟨rfl, fun _ hother => absurd hother List.not_mem_nil⟩
  have hcreate : FreshSteps deployment hexParsers signer s₁ s :=
    Transition.steps_of_run (by simp [created, ChoosesFresh]) hrest
  have hclaim : FreshSteps deployment hexParsers signer s s' :=
    Transition.steps_of_run (by simp [claimed, ChoosesFresh]) hlast
  obtain ⟨first, second, hfirst, hsecond, hsession⟩ :=
    session hexPrinters hreads .refl hfresh hs₁ hcreate hstage .refl hclaim
  exact ⟨s, s', _, first, second, hpending, hassigned, hfirst, hsecond, hsession⟩

end Example

end Api

end ProofMarket
