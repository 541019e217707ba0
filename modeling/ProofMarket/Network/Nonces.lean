import ProofMarket.Coordinator.Indexing
import ProofMarket.Network.Exclusion

/-!
# Where fresh ids come from

`generate_job_id` hashes the owner, the payload and eight random bytes, and `create_job` does not
look whether the id is in use. The indexer puts jobs into the map too, under ids that it finds on
chain.

**Theorem (`draws_fresh`).** As long as SHA-256 has no collision among what `create_job` hashes, no
nonce comes again with the same owner and payload, and nobody submits a job under an id before it is
drawn, every id is fresh. So all that holds of runs with fresh ids holds of runs with such draws.

Every id that the coordinator has seen was drawn, or is known to the registry (`Traced`).
-/

namespace ProofMarket

open Registry (Deployment)

/-- What a call of `generate_job_id` hashes. -/
structure JobDraw where
  owner : Address
  payload : Bytes
  nonce : FixedBytes 8
  deriving DecidableEq

namespace JobDraw

def preimage (d : JobDraw) : Bytes := d.owner.bytes.val ++ d.payload ++ d.nonce.val

/-- `generate_job_id`. -/
def jobId (sha256 : Bytes → FixedBytes 32) (d : JobDraw) : JobId :=
  Coordinator.generateJobId sha256 d.owner d.payload d.nonce.val

/-- Owner and nonce have a fixed width, so the payload can be told from them. -/
theorem preimage_injective : Function.Injective preimage := by
  intro a b h
  obtain ⟨⟨owner⟩, payload, nonce⟩ := a
  obtain ⟨⟨owner'⟩, payload', nonce'⟩ := b
  simp only [preimage, List.append_assoc] at h
  have howner : owner.val = owner'.val := by
    have htake := congrArg (List.take 20) h
    rwa [FixedBytes.take_append, FixedBytes.take_append] at htake
  have hrest := congrArg (List.drop 20) h
  rw [FixedBytes.drop_append, FixedBytes.drop_append] at hrest
  have hlength : nonce.val.length = nonce'.val.length := by
    rw [nonce.length_eq, nonce'.length_eq]
  obtain ⟨rfl, hnonce⟩ := List.append_inj' hrest hlength
  obtain rfl : owner = owner' := FixedBytes.ext howner
  obtain rfl : nonce = nonce' := FixedBytes.ext hnonce
  rfl

theorem jobId_inj {sha256 : Bytes → FixedBytes 32} {known : Set Bytes}
    (hfree : Set.InjOn sha256 known) {a b : JobDraw} (ha : a.preimage ∈ known)
    (hb : b.preimage ∈ known) (h : a.jobId sha256 = b.jobId sha256) : a = b :=
  preimage_injective (hfree ha hb (congrArg JobId.bytes h))

end JobDraw

/-- The draw of a request. -/
def Coordinator.CreateJobRequest.draw (req : CreateJobRequest) (nonce : FixedBytes 8) : JobDraw :=
  ⟨req.owner.getD Address.zero, req.payload, nonce⟩

theorem Coordinator.CreateJobRequest.id_job (req : CreateJobRequest)
    (sha256 : Bytes → FixedBytes 32) (nonce : FixedBytes 8) (now secs : UInt64) :
    (req.job sha256 nonce now secs).id = (req.draw nonce).jobId sha256 :=
  rfl

/-- A system with the draws it has made, the latest first. -/
structure DrawingSystem where
  system : System
  drawn : List JobDraw

namespace DrawingSystem

def start (chain : Chain) (contract : Bool) (defaultDeadlineSecs : UInt64) (startBlock : Nat) :
    DrawingSystem :=
  ⟨System.start chain contract defaultDeadlineSecs startBlock, []⟩

def draw : System.Label → Option JobDraw
  | .coordinator (.create req nonce _) => some (req.draw nonce)
  | _ => none

def step (D : Deployment) (members : List PeerId) (s : DrawingSystem) (l : System.Label) :
    Option DrawingSystem :=
  (s.system.step D members l).map fun system => ⟨system, (draw l).toList ++ s.drawn⟩

abbrev Steps (D : Deployment) (members : List PeerId)
    (ok : DrawingSystem → System.Label → Prop) : DrawingSystem → DrawingSystem → Prop :=
  Transition.Steps (step D members) ok

/-- The network invents no message, no draw is made twice, and nobody has guessed the id drawn. -/
structure Allowed (D : Deployment) (known : Set Bytes) (s : DrawingSystem) (l : System.Label) :
    Prop where
  lossy : s.system.Lossy l
  once : ∀ d ∈ draw l, d ∉ s.drawn
  known : ∀ d ∈ draw l, d.preimage ∈ known
  unguessed : ∀ d ∈ draw l,
    (s.system.backend.chain.world.jobs (d.jobId D.sha256)).exists = false

/-- The id has been drawn. -/
def Drawn (D : Deployment) (drawn : List JobDraw) (j : JobId) : Prop :=
  ∃ d ∈ drawn, d.jobId D.sha256 = j

/-- Where the ids come from that the coordinator has seen. -/
structure Traced (D : Deployment) (known : Set Bytes) (startBlock : Nat) (s : DrawingSystem) :
    Prop where
  known : ∀ d ∈ s.drawn, d.preimage ∈ known
  polling : s.system.backend.Polling D startBlock
  creating : ∀ job ∈ s.system.backend.creating, Drawn D s.drawn job.id
  listed : ∀ j, (s.system.backend.jobs.status j).isSome = true →
    Drawn D s.drawn j ∨ (s.system.backend.chain.world.jobs j).exists = true

section Step

variable {D : Deployment} {members : List PeerId} {known : Set Bytes} {startBlock : Nat}
  {s t : DrawingSystem} {l : System.Label}

theorem Drawn.mono {drawn more : List JobDraw} {j : JobId} (h : Drawn D drawn j)
    (hsub : drawn ⊆ more) : Drawn D more j := by
  obtain ⟨d, hd, hid⟩ := h
  exact ⟨d, hsub hd, hid⟩

theorem traced_start {chain : Chain} (h : chain.Ok D) (contract : Bool)
    (defaultDeadlineSecs : UInt64) (startBlock : Nat) :
    Traced D known startBlock (start chain contract defaultDeadlineSecs startBlock) where
  known _ hd := by cases hd
  polling := Backend.polling_start h contract defaultDeadlineSecs ∅ startBlock
  creating _ hjob := by cases hjob
  listed j hj := by simp [start, System.start, Backend.start, JobMap.status] at hj

/-- An id that was drawn once and that nobody has guessed is new to the coordinator. -/
theorem Traced.freshId (h : Traced D known startBlock s) (hfree : Set.InjOn D.sha256 known)
    {d : JobDraw} (honce : d ∉ s.drawn) (hknown : d.preimage ∈ known)
    (hunguessed : (s.system.backend.chain.world.jobs (d.jobId D.sha256)).exists = false) :
    s.system.backend.FreshId (d.jobId D.sha256) := by
  have hnew : ¬ Drawn D s.drawn (d.jobId D.sha256) := by
    rintro ⟨other, hother, hid⟩
    have hsame : other = d := JobDraw.jobId_inj hfree (h.known other hother) hknown hid
    exact honce (hsame ▸ hother)
  constructor
  · cases hst : s.system.backend.jobs.status (d.jobId D.sha256) with
    | none => rfl
    | some st =>
      rcases h.listed _ (by rw [hst]; rfl) with hdrawn | hexists
      · exact absurd hdrawn hnew
      · rw [hunguessed] at hexists
        cases hexists
  · intro job hjob hid
    exact hnew (hid ▸ h.creating job hjob)

/-- **A new draw is a fresh id.** -/
theorem Traced.fresh (h : Traced D known startBlock s) (hfree : Set.InjOn D.sha256 known)
    (hok : Allowed D known s l) : s.system.Fresh D l := by
  cases l with
  | worker => trivial
  | coordinator bl =>
    cases bl with
    | create req nonce now =>
      exact h.freshId hfree (hok.once _ rfl) (hok.known _ rfl) (hok.unguessed _ rfl)
    | _ => trivial

/-- **Every step keeps the trace.** -/
theorem Traced.step (h : Traced D known startBlock s) (hok : Allowed D known s l)
    (hst : step D members s l = some t) : Traced D known startBlock t := by
  obtain ⟨system, hsystem, rfl⟩ := Option.map_eq_some_iff.1 hst
  have hsub : s.drawn ⊆ (draw l).toList ++ s.drawn := List.subset_append_right _ _
  have hknown : ∀ d ∈ (draw l).toList ++ s.drawn, d.preimage ∈ known := by
    intro d hd
    rcases List.mem_append.1 hd with hd | hd
    · exact hok.known d (Option.mem_toList.1 hd)
    · exact h.known d hd
  cases System.Step.of_step hsystem with
  | worker =>
    exact ⟨hknown, h.polling, fun job hjob => (h.creating job hjob).mono hsub,
      fun j hj => (h.listed j hj).imp_left fun hd => hd.mono hsub⟩
  | @coordinator bl b ms hb =>
    have hext := hb.extends h.polling.chain
    refine ⟨hknown, hb.polling h.polling, ?_, ?_⟩
    · intro job hjob
      rcases hb.creating_cases hjob with hold | ⟨req, nonce, now, rfl, rfl⟩
      · exact (h.creating job hold).mono hsub
      · exact ⟨req.draw nonce, List.mem_append_left _ List.mem_cons_self, rfl⟩
    · intro j hj
      have hold : (s.system.backend.jobs.status j).isSome = true →
          Drawn D ((draw (.coordinator bl)).toList ++ s.drawn) j ∨
            (b.chain.world.jobs j).exists = true := by
        intro hj
        refine (h.listed j hj).imp (fun hd => hd.mono hsub) fun hexists => ?_
        rw [hext.world.jobs j hexists, hexists]
      obtain ⟨st', hst', hchange⟩ := hb.status j
      replace hj : (b.jobs.status j).isSome = true := hj
      rw [hst'] at hj
      cases hchange with
      | keep => exact hold hj
      | assigned hp => exact hold (by rw [hp]; rfl)
      | confirmed _ hp | expired _ hp => exact hold (by rw [hp]; rfl)
      | inserted hmem hid =>
        left
        exact hid ▸ (h.creating _ hmem).mono hsub
      | @indexed head x logs hpoll =>
        -- The indexer puts in what the registry knows.
        right
        have hcompletion : (j, x) ∈ s.system.backend.poll.completions := by
          rw [hpoll]
          exact List.mem_cons_self
        have hby := h.polling.completions _ hcompletion
        have hcompleted : s.system.backend.chain.world.completed j = true :=
          (h.polling.chain.completed_iff j).2 (.inl ⟨x, hby⟩)
        have hexists := h.polling.chain.inv.completed_exists hcompleted
        rw [hext.world.jobs j hexists, hexists]

end Step

section Runs

variable {D : Deployment} {known : Set Bytes}

/-- **Draws make ids fresh.** -/
theorem draws_fresh (members : List PeerId) (hfree : Set.InjOn D.sha256 known) (prefunded : Nat)
    (blocks : List (List (TxHash × Registry.Act))) (contract : Bool)
    (defaultDeadlineSecs : UInt64) (startBlock : Nat) {s : DrawingSystem}
    (h : Steps D members (Allowed D known)
      (start (Chain.after D prefunded blocks) contract defaultDeadlineSecs startBlock) s) :
    System.Steps D members (fun u l => u.Lossy l ∧ u.Fresh D l)
        (System.start (Chain.after D prefunded blocks) contract defaultDeadlineSecs startBlock)
        s.system ∧
      s.system.ClaimExclusion := by
  have hmatch : ∀ (u : DrawingSystem) (l : System.Label) (v : DrawingSystem) (t : System),
      Traced D known startBlock u ∧ u.system = t → Allowed D known u l →
      u.step D members l = some v →
      ∃ t', System.Steps D members (fun u l => u.Lossy l ∧ u.Fresh D l) t t' ∧
        Traced D known startBlock v ∧ v.system = t' := by
    intro u l v t hu hok hst
    obtain ⟨htraced, rfl⟩ := hu
    obtain ⟨system, hsystem, rfl⟩ := Option.map_eq_some_iff.1 hst
    exact ⟨system, .single ⟨l, ⟨hok.lossy, htraced.fresh hfree hok⟩, hsystem⟩,
      htraced.step hok hst, rfl⟩
  have hstart : Traced D known startBlock
      (start (Chain.after D prefunded blocks) contract defaultDeadlineSecs startBlock) :=
    traced_start (Chain.ok_after D prefunded blocks) contract defaultDeadlineSecs startBlock
  obtain ⟨t, ht, -, rfl⟩ := h.simulate hmatch ⟨hstart, rfl⟩
  have hinv : s.system.Inv :=
    ht.invariant (fun _ _ _ hu hl hst => hu.step (.of_step hst) hl.1 hl.2)
      (System.inv_start _ contract defaultDeadlineSecs startBlock)
  exact ⟨ht, hinv.claimExclusion⟩

end Runs

/-! ## The nonce of a job that is won -/

open Sample

/-- What is hashed in the run. -/
def requestOnly : Set Bytes := {(request.draw nonce).preimage}

/-- The part of what a run may do that can be evaluated. -/
def Checked (s : DrawingSystem) (l : System.Label) : Prop :=
  s.system.Lossy l ∧ (∀ d ∈ draw l, d ∉ s.drawn) ∧
    ∀ d ∈ draw l, (s.system.backend.chain.world.jobs (d.jobId deployment.sha256)).exists = false

instance (s : DrawingSystem) (l : System.Label) : Decidable (Checked s l) :=
  inferInstanceAs (Decidable (_ ∧ (∀ d ∈ draw l, d ∉ s.drawn) ∧
    ∀ d ∈ draw l, (s.system.backend.chain.world.jobs (d.jobId deployment.sha256)).exists = false))

theorem draws_fresh_won : ∃ s,
    Steps deployment [System.prover] (Allowed deployment requestOnly)
      (start (Chain.after deployment 0 []) true 300 0) s ∧
    (s.system.workers System.prover).status = .proving Sample.job ∧
    System.Steps deployment [System.prover] (fun u l => u.Lossy l ∧ u.Fresh deployment l)
      (System.start (Chain.after deployment 0 []) true 300 0) s.system := by
  have hknown : ∀ l ∈ System.won, ∀ _ : DrawingSystem, ∀ d ∈ draw l, d.preimage ∈ requestOnly := by
    simp [System.won, draw, requestOnly]
  have hrun : (Transition.run (Transition.checked (step deployment [System.prover]) Checked)
      System.won (start (Chain.after deployment 0 []) true 300 0)).map
        (fun s => (s.system.workers System.prover).status) = some (.proving Sample.job) := by
    decide +kernel
  obtain ⟨s, hs, hst⟩ := Transition.exists_of_checked_and hknown hrun
  have hsteps : Steps deployment [System.prover] (Allowed deployment requestOnly)
      (start (Chain.after deployment 0 []) true 300 0) s :=
    hs.mono fun _ _ h => ⟨h.1.1, h.1.2.1, h.2, h.1.2.2⟩
  have hfree : Set.InjOn deployment.sha256 requestOnly := Set.injOn_singleton _ _
  exact ⟨s, hsteps, hst, (draws_fresh [System.prover] hfree 0 [] true 300 0 hsteps).1⟩

end DrawingSystem

end ProofMarket
