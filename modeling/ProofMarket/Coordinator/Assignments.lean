import ProofMarket.Coordinator.Completions

/-!
# Where jobs, assignments and announcements come from

What a step of the coordinator can add besides a status of the map: a job of one of its task lists
(`Step.listed`, `Step.creating_cases`) and a message (`Step.sends`). The map stores every job under
its own id, and as long as `create_job` chooses fresh ids the requests in progress are about
different jobs.
-/

namespace ProofMarket

open Registry (Deployment)

/-! ## Jobs and their keys -/

namespace JobMap

variable {m : JobMap} {j : JobId}

/-- The map stores every job under its own id. -/
def Keyed (m : JobMap) : Prop := ∀ j job, m.lookup j = some job → job.id = j

theorem Keyed.insert (h : m.Keyed) {job : Job} (hid : job.id = j) :
    JobMap.Keyed (Finmap.insert j job m) := by
  intro k other hk
  rw [lookup_insert_eq] at hk
  split_ifs at hk with hkj
  · cases hk
    exact hid.trans hkj.symm
  · exact h k other hk

theorem Keyed.andModify (h : m.Keyed) {f : Job → Job} (hf : ∀ job, (f job).id = job.id) :
    (m.andModify j f).Keyed := by
  unfold JobMap.andModify
  cases hm : m.lookup j with
  | none => exact h
  | some job => exact h.insert ((hf job).trans (h j job hm))

theorem Keyed.handleClaim (h : m.Keyed) (now : UInt64) (w : PeerId) :
    (Coordinator.handleClaim now m j w).1.Keyed := by
  rcases handleClaim_cases now m j w with ⟨job, hm, -, hcl⟩ | ⟨-, reason, hcl⟩
  · rw [hcl]
    exact h.insert (h j job hm)
  · rw [hcl]
    exact h

theorem Keyed.recordCompletion (h : m.Keyed) (x : TxHash) :
    (Coordinator.recordCompletion m j x).Keyed := by
  apply h.andModify
  intro job
  split_ifs <;> rfl

theorem Keyed.handleJobCompleted (h : m.Keyed) (x : TxHash) :
    (Indexer.handleJobCompleted m j x).Keyed := by
  unfold Indexer.handleJobCompleted
  cases hm : m.lookup j with
  | none => exact h.insert rfl
  | some job =>
    dsimp only
    split_ifs
    · exact h.insert (h j job hm)
    · exact h

theorem Keyed.handleJobExpired (h : m.Keyed) : (Indexer.handleJobExpired m j).Keyed := by
  apply h.andModify
  intro job
  split_ifs <;> rfl

end JobMap

namespace Backend

variable {D : Deployment} {s s' : Backend} {l : Label} {ms : List GossipMessage}

theorem Step.keyed (hstep : Step D s l s' ms) (hs : s.jobs.Keyed) : s'.jobs.Keyed := by
  cases hstep with
  | claim => exact hs.handleClaim _ _
  | record => exact hs.recordCompletion _
  | applyCompleted => exact hs.handleJobCompleted _
  | applyExpired => exact hs.handleJobExpired
  | insert => exact hs.insert rfl
  | _ => exact hs

/-! ## What a step adds -/

/-- The jobs of the announcement lists come from insertions and from pending jobs of the map. -/
theorem Step.listed (hstep : Step D s l s' ms) {job : Job}
    (hjob : job ∈ s'.announcing ∨ job ∈ s'.resending) :
    (job ∈ s.announcing ∨ job ∈ s.resending) ∨ (l = .insert job ∧ job ∈ s.creating) ∨
      ∃ j, s.jobs.lookup j = some job ∧ job.jobStatus = .pending := by
  cases hstep with
  | @insert new hmem =>
    rcases hjob with hjob | hjob
    · rcases List.mem_append.1 hjob with hjob | hjob
      · exact .inl (.inl hjob)
      · obtain rfl := List.mem_singleton.1 hjob
        exact .inr (.inl ⟨rfl, hmem⟩)
    · exact .inl (.inr hjob)
  | announce =>
    rcases hjob with hjob | hjob
    · exact .inl (.inl (List.mem_of_mem_erase hjob))
    · exact .inl (.inr hjob)
  | @collect j new hj hp =>
    rcases hjob with hjob | hjob
    · exact .inl (.inl hjob)
    · rcases List.mem_append.1 hjob with hjob | hjob
      · exact .inl (.inr hjob)
      · obtain rfl := List.mem_singleton.1 hjob
        exact .inr (.inr ⟨j, hj, hp⟩)
  | resend hr =>
    rcases hjob with hjob | hjob
    · exact .inl (.inl hjob)
    · exact .inl (.inr (by rw [hr]; exact List.mem_cons_of_mem _ hjob))
  | _ => exact .inl hjob

/-- **What the coordinator sends**: replies to the claim it handles, and the jobs of its lists. -/
theorem Step.sends (hstep : Step D s l s' ms) {m : GossipMessage} (hm : m ∈ ms) :
    (∃ j w now reachable, l = .recv (.claimJob j w) now reachable ∧
      ((m = .claimAccepted j w ∧ s.jobs.status j = some .pending ∧
          s'.jobs.status j = some (.assigned w now)) ∨
        ∃ reason, m = .claimRejected j reason ∧ s.jobs.status j ≠ some .pending)) ∨
    ∃ job, m = .jobAvailable job ∧ (job ∈ s.announcing ∨ job ∈ s.resending) := by
  cases hstep with
  | @claim j w now reachable =>
    left
    refine ⟨j, w, now, reachable, rfl, ?_⟩
    have hm' := List.mem_singleton.1 hm
    rcases handleClaim_cases now s.jobs j w with ⟨job, hjob, hp, hcl⟩ | ⟨hj, reason, hcl⟩
    · rw [hcl] at hm'
      have hpending : s.jobs.status j = some .pending := by
        simp [JobMap.status, hjob, hp]
      refine .inl ⟨hm', hpending, ?_⟩
      rw [status_handleClaim, if_pos ⟨rfl, hpending⟩]
    · rw [hcl] at hm'
      refine .inr ⟨reason, hm', ?_⟩
      intro hp
      obtain ⟨job, hlook, hst⟩ := Option.map_eq_some_iff.1 hp
      exact hj job hlook hst
  | announce hmem => exact .inr ⟨_, List.mem_singleton.1 hm, .inl hmem⟩
  | resend hr => exact .inr ⟨_, List.mem_singleton.1 hm, .inr (by simp [hr])⟩
  | _ => cases hm

theorem Step.creating_cases (hstep : Step D s l s' ms) {job : Job} (hjob : job ∈ s'.creating) :
    job ∈ s.creating ∨ ∃ req nonce now, l = .create req nonce now ∧
      job = req.job D.sha256 nonce now s.defaultDeadlineSecs := by
  cases hstep with
  | @create req nonce now =>
    rcases List.mem_append.1 hjob with hjob | hjob
    · exact .inl hjob
    · exact .inr ⟨req, nonce, now, rfl, List.mem_singleton.1 hjob⟩
  | insert | abandon => exact .inl (List.mem_of_mem_erase hjob)
  | _ => exact .inl hjob

/-! ## Fresh ids -/

/-- The coordinator has not seen the id: it is neither in the map nor the id of a request in
progress. -/
def FreshId (s : Backend) (jobId : JobId) : Prop :=
  s.jobs.status jobId = none ∧ ∀ job ∈ s.creating, job.id ≠ jobId

/-- A request that the step starts chooses a fresh id. -/
def ChoosesFresh (D : Deployment) (s : Backend) : Label → Prop
  | .create req nonce now => s.FreshId (req.job D.sha256 nonce now s.defaultDeadlineSecs).id
  | _ => True

instance (s : Backend) (jobId : JobId) : Decidable (s.FreshId jobId) :=
  inferInstanceAs (Decidable (_ ∧ ∀ job ∈ s.creating, job.id ≠ jobId))

instance (D : Deployment) (s : Backend) (l : Label) : Decidable (s.ChoosesFresh D l) :=
  match l with
  | .create req nonce now =>
    inferInstanceAs
      (Decidable (s.FreshId (req.job D.sha256 nonce now s.defaultDeadlineSecs).id))
  | .mine _ | .recv _ _ _ | .record | .insert _ | .abandon _ | .announce _ | .collect _ | .resend
  | .pollBegin | .pollStep | .pollFail => isTrue trivial

/-- The requests in progress are about different jobs. -/
def CreatesDistinct (s : Backend) : Prop := (s.creating.map Job.id).Nodup

theorem nodup_map_erase {jobs : List Job} (h : (jobs.map Job.id).Nodup) (job : Job) :
    ((jobs.erase job).map Job.id).Nodup :=
  h.sublist (List.erase_sublist.map _)

/-- After the insertion of a job no other request is about it. -/
theorem not_mem_erase_of_nodup {jobs : List Job} (h : (jobs.map Job.id).Nodup) {job other : Job}
    (hjob : job ∈ jobs) (hother : other ∈ jobs.erase job) : other.id ≠ job.id := by
  have hperm := (List.perm_cons_erase hjob).map Job.id
  have hnodup := hperm.nodup_iff.1 h
  rw [List.map_cons, List.nodup_cons] at hnodup
  intro hid
  exact hnodup.1 (hid ▸ List.mem_map_of_mem hother)

theorem Step.createsDistinct (hstep : Step D s l s' ms) (hfresh : s.ChoosesFresh D l)
    (hs : s.CreatesDistinct) : s'.CreatesDistinct := by
  cases hstep with
  | create =>
    unfold CreatesDistinct
    rw [List.map_append, List.map_singleton]
    refine List.nodup_append'.2 ⟨hs, List.nodup_singleton _, ?_⟩
    intro id hid hnew
    obtain ⟨other, hother, rfl⟩ := List.mem_map.1 hid
    exact hfresh.2 other hother (List.mem_singleton.1 hnew)
  | insert | abandon => exact nodup_map_erase hs _
  | _ => exact hs

end Backend

end ProofMarket
