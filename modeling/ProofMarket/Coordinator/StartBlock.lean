import ProofMarket.Coordinator.Reads

/-!
# Where an indexer starts and which jobs it touches

An indexer with `start_block = Some(b)` starts with `last_block = b`, and its first poll asks for
the blocks from `last_block + 1` on. Block `b` itself is never read. And a completion of a job that
is not in the map inserts it.

Two exact conditions follow from the fate of one job. Nothing but the statuses of known jobs changes
if and only if no completion of an unknown job is read (`framed_iff`). The blocks from `start_block`
on are covered if and only if the polls can do without the events of that block (`covered_iff`).
-/

namespace ProofMarket

namespace Chain

/-- A `JobCompleted` event of the job in the blocks `a` to `b`. -/
def CompletedIn (c : Chain) (j : JobId) (a b : Nat) : Prop :=
  ∃ e ∈ c.logs, e.event.completes j = true ∧ a ≤ e.block ∧ e.block ≤ b

/-- A `JobExpired` event of the job in the blocks `a` to `b`. -/
def ExpiredIn (c : Chain) (j : JobId) (a b : Nat) : Prop :=
  ∃ e ∈ c.logs, e.event.expires j = true ∧ a ≤ e.block ∧ e.block ≤ b

/-- The chain with only the events of some jobs in its log. -/
def about (c : Chain) (p : JobId → Bool) : Chain :=
  { c with logs := c.logs.filter fun e => p e.event.jobId }

variable {c : Chain} {p : JobId → Bool} {a b : Nat}

theorem range_about : (c.about p).range a b = (c.range a b).filter fun e => p e.event.jobId :=
  List.filter_comm _ _ _

theorem filterMap_about {β : Type} {f : LogEntry → Option β} {q : β → Bool} {l : List LogEntry}
    (hf : ∀ e y, f e = some y → q y = p e.event.jobId) :
    (l.filter fun e => p e.event.jobId).filterMap f = (l.filterMap f).filter q := by
  induction l with
  | nil => rfl
  | cons e l ih =>
    cases hy : f e with
    | none => by_cases hp : p e.event.jobId = true <;> simp [hp, hy, ih]
    | some y =>
      have hq := hf e y hy
      by_cases hp : p e.event.jobId = true <;> simp [hp, hy, hq, ih]

theorem completedLogs_about :
    (c.about p).completedLogs a b = (c.completedLogs a b).filter fun log => p log.1 := by
  unfold completedLogs
  rw [range_about]
  apply filterMap_about
  intro e y hy
  cases hev : e.event with
  | jobCompleted j worker result =>
    simp only [hev, Option.some.injEq] at hy
    rw [← hy]
    rfl
  | jobSubmitted | jobExpired => simp [hev] at hy

theorem expiredLogs_about : (c.about p).expiredLogs a b = (c.expiredLogs a b).filter p := by
  unfold expiredLogs
  rw [range_about]
  apply filterMap_about
  intro e y hy
  cases hev : e.event with
  | jobExpired j =>
    simp only [hev, Option.some.injEq] at hy
    rw [← hy]
    rfl
  | jobSubmitted | jobCompleted => simp [hev] at hy

end Chain

namespace Indexer

/-- `Indexer::new`: without a `start_block` the provider is asked for the head. -/
def new (startBlock : Option Nat) (blockNumber : Except IndexerError Nat) (jobs : JobMap) :
    Except IndexerError Cursor :=
  match startBlock with
  | some block => .ok ⟨jobs, block⟩
  | none => blockNumber.map fun block => ⟨jobs, block⟩

variable {c : Chain} {s t : Cursor} {polls : List Answers}

/-! ## Known jobs only -/

/-- The same jobs, each with everything it had but its status, and the events of other jobs might
as well not be in the log. -/
structure Framed (c : Chain) (s : Cursor) (polls : List Answers) : Prop where
  keys : ∀ j, j ∈ (pollAll c s polls).jobs ↔ j ∈ s.jobs
  fields : ∀ j job, s.jobs.lookup j = some job →
    ∃ st, (pollAll c s polls).jobs.lookup j = some { job with jobStatus := st }
  others : pollAll (c.about fun j => j ∈ s.jobs) s polls = pollAll c s polls

/-- No completion of an unknown job is read. -/
def ReadsKnown (c : Chain) (s : Cursor) (polls : List Answers) : Prop :=
  ∀ j h, ReadsCompletion c s.lastBlock polls j h → j ∈ s.jobs

theorem isSome_completeEntry (j : JobId) (h : TxHash) (entry : Option Job) :
    (completeEntry j (some h) entry).isSome = true := by
  cases entry <;> rfl

theorem Fate.keeps {j : JobId} {C : TxHash → Prop} {E : Prop} {job : Job} {after : Option Job}
    (h : Fate j C E (some job) after) : ∃ st, after = some { job with jobStatus := st } := by
  have hsame : job = { job with jobStatus := job.jobStatus } := rfl
  cases h with
  | completed x hread =>
    dsimp only [completeEntry]
    split_ifs
    · exact ⟨_, rfl⟩
    · exact ⟨_, congrArg some hsame⟩
  | expired =>
    dsimp only [Option.map_some, expireJob]
    split_ifs
    · exact ⟨_, rfl⟩
    · exact ⟨_, congrArg some hsame⟩
  | untouched => exact ⟨_, congrArg some hsame⟩

theorem Fate.unknown {j : JobId} {C : TxHash → Prop} {E : Prop} {after : Option Job}
    (h : Fate j C E none after) (hnone : ∀ x, ¬ C x) : after = none := by
  cases h with
  | completed x hread => exact absurd hread (hnone x)
  | expired => rfl
  | untouched => rfl

theorem ReadsKnown.mem_iff (h : ReadsKnown c s polls) (j : JobId) :
    j ∈ (pollAll c s polls).jobs ↔ j ∈ s.jobs := by
  have hfate := fate_pollAll c s polls j
  rw [← Finmap.lookup_isSome, ← Finmap.lookup_isSome]
  cases hj : s.jobs.lookup j with
  | some job =>
    rw [hj] at hfate
    obtain ⟨st, hst⟩ := hfate.keeps
    rw [hst]
    rfl
  | none =>
    rw [hj] at hfate
    rw [hfate.unknown fun x hx => ?_]
    exact absurd (h j x hx) (Finmap.lookup_eq_none.1 hj)

theorem readsKnown_of_mem_iff (h : ∀ j, j ∈ (pollAll c s polls).jobs ↔ j ∈ s.jobs) :
    ReadsKnown c s polls := by
  intro j x hread
  refine (h j).1 (Finmap.lookup_isSome.1 ?_)
  have hfate := fate_pollAll c s polls j
  generalize (pollAll c s polls).jobs.lookup j = after at hfate ⊢
  cases hfate with
  | completed y hy => exact isSome_completeEntry j y _
  | expired hnone => exact absurd hread (hnone x)
  | untouched hnone => exact absurd hread (hnone x)

theorem ReadsKnown.before {a : Answers} (h : ReadsKnown c s (polls ++ [a])) :
    ReadsKnown c s polls := by
  intro j x hread
  obtain ⟨e, he, hej, hx, hblock⟩ := hread
  exact h j x ⟨e, he, hej, hx, BlockRead.append hblock⟩

theorem expireAll_filter {p : JobId → Bool} {m : JobMap} (hp : ∀ j, j ∈ m → p j = true)
    (logs : List JobId) : expireAll (logs.filter p) m = expireAll logs m := by
  apply Finmap.ext_lookup
  intro j
  rw [lookup_expireAll, lookup_expireAll]
  cases hj : m.lookup j with
  | none => simp
  | some job =>
    have hpj : p j = true := hp j (Finmap.mem_of_lookup_eq_some hj)
    simp [List.mem_filter, hpj]

/-- **One poll of a log without the events of other jobs.** -/
theorem pollEvents_about {p : JobId → Bool} (t : Cursor) (a : Answers)
    (hknown : ∀ j, j ∈ t.jobs ↔ p j = true)
    (hread : ∀ head, a.head = .ok head → t.lastBlock < head → a.completedQuery = .ok () →
      ∀ log ∈ c.completedLogs (t.lastBlock + 1) head, p log.1 = true) :
    pollEvents (c.about p) t a = pollEvents c t a := by
  unfold pollEvents
  cases hhead : a.head with
  | error e => rfl
  | ok head =>
    dsimp only
    split_ifs with hle
    · rfl
    · unfold processJobCompletedEvents
      cases hcompleted : a.completedQuery with
      | error e => rfl
      | ok u =>
        have hall := hread head hhead (Nat.lt_of_not_le hle) hcompleted
        have hlogs : (c.about p).completedLogs (t.lastBlock + 1) head =
            c.completedLogs (t.lastBlock + 1) head := by
          rw [Chain.completedLogs_about, List.filter_eq_self.2 hall]
        have hkeys : ∀ j, j ∈ completeAll (c.completedLogs (t.lastBlock + 1) head) t.jobs →
            p j = true := by
          intro j hj
          rw [← Finmap.lookup_isSome, lookup_completeAll] at hj
          cases hfirst : firstCompletion j (c.completedLogs (t.lastBlock + 1) head) with
          | none =>
            rw [hfirst] at hj
            exact (hknown j).1 (Finmap.lookup_isSome.1 hj)
          | some x => exact hall _ (mem_of_firstCompletion hfirst)
        simp only [processJobExpiredEvents, Except.map, hlogs, Chain.expiredLogs_about,
          expireAll_filter hkeys]

theorem ReadsKnown.pollAll_about (h : ReadsKnown c s polls) :
    pollAll (c.about fun j => j ∈ s.jobs) s polls = pollAll c s polls := by
  induction polls using List.reverseRecOn with
  | nil => rfl
  | append_singleton polls a ih =>
    have hbefore := h.before
    have hpolled := polled_pollAll c s polls
    rw [pollAll_append, pollAll_append, ih hbefore, pollEvents_about]
    · intro j
      rw [hbefore.mem_iff, decide_eq_true_iff]
    · intro head hhead _ hcompleted log hlog
      obtain ⟨j, x⟩ := log
      have hread := hpolled.readsCompletion_iff hhead hcompleted j x
      exact decide_eq_true (h j x (hread.2 (.inr hlog)))

/-- **Exactly when the indexer only updates the statuses of known jobs.** -/
theorem framed_iff (c : Chain) (s : Cursor) (polls : List Answers) :
    Framed c s polls ↔ ReadsKnown c s polls := by
  refine ⟨fun h => readsKnown_of_mem_iff h.keys, fun h => ⟨h.mem_iff, fun j job hj => ?_,
    h.pollAll_about⟩⟩
  have hfate := fate_pollAll c s polls j
  rw [hj] at hfate
  exact hfate.keeps

/-- Job 1 completes in block 1. -/
def surprising : Chain where
  world := .deployed 0
  head := 1
  logs := [⟨1, ⟨.fill 32 11⟩, .jobCompleted ⟨.fill 32 1⟩ Address.zero []⟩]
  receipts := []

/-- An indexer that knows no job inserts the one it reads about. -/
theorem not_framed_surprising : ¬ Framed surprising ⟨∅, 0⟩ [.all 1] := by
  intro h
  have hmem : (⟨.fill 32 1⟩ : JobId) ∈ (pollAll surprising ⟨∅, 0⟩ [.all 1]).jobs := by decide
  exact Finmap.notMem_empty ((h.keys _).1 hmem)

/-! ## From the start block on -/

/-- The map shows what happened in the blocks `b` to `head`: the completed jobs as completed, and
the known jobs that have only expired as expired. -/
structure Covered (c : Chain) (b head : Nat) (m : JobMap) : Prop where
  completions : ∀ j, c.CompletedIn j b head → ∃ h, m.status j = some (.completed h)
  expirations : ∀ j st, m.status j = some st → c.ExpiredIn j b head → ¬ c.CompletedIn j b head →
    st = .expired

/-- The polls can do without block `b`: a job with a completion in it is completed already or has
another one that they read. And a job that has only expired since then is not completed, neither
already nor by what they read of other blocks, and is expired already or has an expiration that they
read. -/
structure DoesWithout (c : Chain) (b head : Nat) (m : JobMap) (polls : List Answers) : Prop where
  completions : ∀ j, c.CompletedIn j b b →
    (∃ h, m.status j = some (.completed h)) ∨ ∃ h, ReadsCompletion c b polls j h
  expirations : ∀ j, c.ExpiredIn j b head → ¬ c.CompletedIn j b head →
    (∀ h, ¬ ReadsCompletion c b polls j h) ∧ ∀ st, m.status j = some st →
      st.isCompleted = false ∧ (st = .expired ∨ ReadsExpiration c b polls j)

theorem status_completeEntry (j : JobId) (h : TxHash) (entry : Option Job) :
    ∃ x, (completeEntry j (some h) entry).map Job.jobStatus = some (.completed x) := by
  cases entry with
  | none => exact ⟨h, rfl⟩
  | some job =>
    obtain ⟨id, st, owner, payload, reward, createdAt, deadline⟩ := job
    cases st <;> exact ⟨_, rfl⟩

theorem status_map_expireJob (entry : Option Job) :
    (entry.map expireJob).map Job.jobStatus = (entry.map Job.jobStatus).map JobStatus.expire := by
  cases entry with
  | none => rfl
  | some job =>
    obtain ⟨id, st, owner, payload, reward, createdAt, deadline⟩ := job
    cases st <;> rfl

section Fate

variable {j : JobId} {C : TxHash → Prop} {E : Prop} {before after : Option Job}

theorem Fate.completed_iff (hfate : Fate j C E before after) :
    (∃ h, after.map Job.jobStatus = some (.completed h)) ↔
      (∃ h, before.map Job.jobStatus = some (.completed h)) ∨ ∃ h, C h := by
  cases hfate with
  | completed x hread => exact iff_of_true (status_completeEntry j x before) (.inr ⟨x, hread⟩)
  | expired hnone =>
    rw [status_map_expireJob, or_iff_left (not_exists.2 hnone)]
    cases before.map Job.jobStatus with
    | none => simp
    | some st => cases st <;> simp [JobStatus.expire, JobStatus.isCompleted]
  | untouched hnone => rw [or_iff_left (not_exists.2 hnone)]

theorem Fate.expired_iff (hfate : Fate j C E before after) :
    (∀ st, after.map Job.jobStatus = some st → st = .expired) ↔
      (∀ h, ¬ C h) ∧ ∀ st, before.map Job.jobStatus = some st →
        st.isCompleted = false ∧ (st = .expired ∨ E) := by
  cases hfate with
  | completed x hread =>
    obtain ⟨y, hy⟩ := status_completeEntry j x before
    refine iff_of_false (fun hst => ?_) fun h => h.1 x hread
    cases hst _ hy
  | expired hnone hread =>
    rw [status_map_expireJob, and_iff_right hnone]
    cases before.map Job.jobStatus with
    | none => simp
    | some st => cases st <;> simp [JobStatus.expire, JobStatus.isCompleted, hread]
  | untouched hnone hnot =>
    rw [and_iff_right hnone]
    cases before.map Job.jobStatus with
    | none => simp
    | some st => cases st <;> simp [JobStatus.isCompleted, hnot]

end Fate

theorem head_le_lastBlock {t : Cursor} {a : Answers} {head : Nat} (hhead : a.head = .ok head)
    (hok : (pollEvents c t a).2 = .ok ()) : head ≤ (pollEvents c t a).1.lastBlock := by
  obtain ⟨n, hn, hmax⟩ := lastBlock_of_ok (t := (pollEvents c t a).1) (Prod.ext rfl hok)
  obtain rfl : head = n := Except.ok.inj (hhead.symm.trans hn)
  rw [hmax]
  exact Nat.le_max_right _ _

/-- **Exactly when `start_block` is honoured.** Whatever the earlier polls did, after one that went
through at a head from `b` on the map shows what happened since block `b` if and only if the polls
can do without that block. -/
theorem covered_iff (c : Chain) (b : Nat) (m : JobMap) (blockNumber : Except IndexerError Nat)
    (s : Cursor) (hnew : new (some b) blockNumber m = .ok s) (polls : List Answers) (a : Answers)
    (head : Nat) (hhead : a.head = .ok head) (hb : b ≤ head)
    (hok : (pollEvents c (pollAll c s polls) a).2 = .ok ()) :
    Covered c b head (pollAll c s (polls ++ [a])).jobs ↔
      DoesWithout c b head m (polls ++ [a]) := by
  obtain rfl : (⟨m, b⟩ : Cursor) = s := Except.ok.inj hnew
  have hpolled := polled_pollAll c ⟨m, b⟩ (polls ++ [a])
  have hlast : head ≤ (pollAll c ⟨m, b⟩ (polls ++ [a])).lastBlock := by
    rw [pollAll_append]
    exact head_le_lastBlock hhead hok
  have hcompleted := fun j => (hpolled.fate j).completed_iff
  have hexpired := fun j => (hpolled.fate j).expired_iff
  -- Everything after block `b` has been read by now.
  have hread : ∀ j, c.CompletedIn j b head →
      c.CompletedIn j b b ∨ ∃ h, ReadsCompletion c b (polls ++ [a]) j h := by
    intro j hj
    obtain ⟨e, he, hej, hlo, hhi⟩ := hj
    by_cases heb : e.block ≤ b
    · exact .inl ⟨e, he, hej, hlo, heb⟩
    · have hlt : b < e.block := Nat.lt_of_not_le heb
      have hboth := (hpolled.last e.block).2 ⟨hlt, hhi.trans hlast⟩
      exact .inr ⟨_, e, he, hej, rfl, hboth.completionsRead⟩
  constructor
  · intro h
    refine ⟨fun j hj => ?_, fun j hj hnot => ?_⟩
    · obtain ⟨e, he, hej, hlo, hhi⟩ := hj
      exact (hcompleted j).1 (h.completions j ⟨e, he, hej, hlo, hhi.trans hb⟩)
    · exact (hexpired j).1 fun st hst => h.expirations j st hst hj hnot
  · intro h
    refine ⟨fun j hj => (hcompleted j).2 ?_, fun j st hst hj hnot => ?_⟩
    · rcases hread j hj with hjb | hjr
      · exact h.completions j hjb
      · exact .inr hjr
    · exact (hexpired j).2 (h.expirations j hj hnot) st hst

/-- Nothing happens in block 0, and both jobs complete. -/
theorem covered_crossed :
    Covered crossed 0 4 (pollAll crossed ⟨∅, 0⟩ (tornPolls ++ [.all 4])).jobs := by
  refine (covered_iff crossed 0 ∅ (.ok 4) ⟨∅, 0⟩ rfl tornPolls (.all 4) 4 rfl (by decide) rfl).2
    ⟨?_, ?_⟩
  · intro j hj
    obtain ⟨e, he, -, -, hblock⟩ := hj
    have hlate : ∀ e ∈ crossed.logs, 1 ≤ e.block := by decide
    exact absurd (hlate e he) (by omega)
  · intro j hj hnot
    obtain ⟨e, he, hej, -, -⟩ := hj
    have hboth : ∀ e ∈ crossed.logs, ∃ e' ∈ crossed.logs,
        e'.event.completes e.event.jobId = true ∧ 0 ≤ e'.block ∧ e'.block ≤ 4 := by decide
    obtain rfl : e.event.jobId = j := Registry.Event.jobId_of_expires hej
    exact absurd (hboth e he) hnot

/-- A job that waits for its completion. -/
def waiting : Job := { discoveredJob ⟨.fill 32 1⟩ ⟨.fill 32 0⟩ with jobStatus := .pending }

/-- Job 1 completes in block 2. An indexer with that `start_block` polls up to block 4 and leaves
the job pending. -/
theorem not_covered_crossed :
    (pollEvents crossed (pollAll crossed ⟨Finmap.singleton waiting.id waiting, 2⟩ []) (.all 4)).2 =
        .ok () ∧
      ¬ Covered crossed 2 4
        (pollAll crossed ⟨Finmap.singleton waiting.id waiting, 2⟩ ([] ++ [.all 4])).jobs := by
  refine ⟨rfl, fun h => ?_⟩
  have hevent : crossed.CompletedIn waiting.id 2 4 :=
    ⟨crossed.logs[1], List.getElem_mem _, by decide, by decide, by decide⟩
  obtain ⟨x, hx⟩ := h.completions waiting.id hevent
  have hst : (pollAll crossed ⟨Finmap.singleton waiting.id waiting, 2⟩ ([] ++ [.all 4])).jobs.status
      waiting.id = some .pending := by decide
  rw [hst] at hx
  cases hx

end Indexer

end ProofMarket
