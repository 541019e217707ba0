import ProofMarket.Coordinator.Completions

/-!
# The indexer keeps up with the chain

Three invariants of a coordinator process, each kept by every step:

* `Polling` — the poll under way works on blocks the chain has, and the events it holds are the
  chain's.
* `Indexed` — the map shows the closing event of every block the indexer is done with.
* `Recorded` — every completion in the map is acceptable, in a sense that the gossip path has to
  ensure (`Vouched`): the indexer's own completions always are.

`create_job` may insert jobs, as long as the chain has not closed them.
-/

namespace ProofMarket

open Registry (Deployment)

namespace Poll

/-- The head that the poll has read. -/
def head? : Poll → Option Nat
  | .idle => none
  | .queryCompleted n | .applyCompleted n _ | .queryExpired n | .applyExpired n _ => some n

/-- The completions left to apply. -/
def completions : Poll → List (JobId × TxHash)
  | .applyCompleted _ logs => logs
  | _ => []

/-- The expirations left to apply. -/
def expirations : Poll → List JobId
  | .applyExpired _ logs => logs
  | _ => []

/-- The last block whose completions the poll has read. -/
def completedTo : Poll → Nat
  | .applyCompleted n _ | .queryExpired n | .applyExpired n _ => n
  | _ => 0

/-- The last block whose expirations the poll has read. -/
def expiredTo : Poll → Nat
  | .applyExpired n _ => n
  | _ => 0

theorem completedTo_le {p : Poll} {n : Nat} (h : ∀ k, p.head? = some k → k ≤ n) :
    p.completedTo ≤ n := by
  cases p with
  | idle | queryCompleted => exact Nat.zero_le n
  | _ => exact h _ rfl

theorem expiredTo_le {p : Poll} {n : Nat} (h : ∀ k, p.head? = some k → k ≤ n) :
    p.expiredTo ≤ n := by
  cases p with
  | applyExpired => exact h _ rfl
  | _ => exact Nat.zero_le n

end Poll

namespace Backend

variable {D : Deployment} {startBlock : Nat} {s s' : Backend} {l : Label}
  {ms : List GossipMessage}

/-! ## Polling -/

/-- Where the indexer stands. -/
structure Polling (D : Deployment) (startBlock : Nat) (s : Backend) : Prop where
  chain : s.chain.Ok D
  start : startBlock ≤ s.lastBlock
  last : s.lastBlock = startBlock ∨ s.lastBlock ≤ s.chain.head
  head : ∀ n, s.poll.head? = some n → s.lastBlock < n ∧ n ≤ s.chain.head
  completions : ∀ p ∈ s.poll.completions, s.chain.CompletedBy p.1 p.2
  expirations : ∀ j ∈ s.poll.expirations, s.chain.Expired j

theorem polling_start {chain : Chain} (h : chain.Ok D) (contract : Bool)
    (defaultDeadlineSecs : UInt64) (m : JobMap) (startBlock : Nat) :
    Polling D startBlock (Backend.start chain contract defaultDeadlineSecs m startBlock) :=
  ⟨h, Nat.le_refl _, .inl rfl, nofun, nofun, nofun⟩

theorem Step.lastBlock_cases (hstep : Step D s l s' ms) :
    s'.lastBlock = s.lastBlock ∨ s.poll.head? = some s'.lastBlock := by
  cases hstep with
  | expiredDone hp =>
    right
    rw [hp]
    rfl
  | _ => exact .inl rfl

theorem Step.head_cases (hstep : Step D s l s' ms) {n : Nat} (hn : s'.poll.head? = some n) :
    s'.lastBlock = s.lastBlock ∧
      (s.poll.head? = some n ∨ s.lastBlock < n ∧ n = s.chain.head) := by
  cases hstep with
  | pollBegin hp hlt =>
    cases hn
    exact ⟨rfl, .inr ⟨hlt, rfl⟩⟩
  | queryCompleted hp | applyCompleted hp | completedDone hp | queryExpired hp | applyExpired hp =>
    refine ⟨rfl, .inl ?_⟩
    rw [hp]
    exact hn
  | expiredDone | pollFail => cases hn
  | _ => exact ⟨rfl, .inl hn⟩

theorem Step.completions_cases (hstep : Step D s l s' ms) {p : JobId × TxHash}
    (hp : p ∈ s'.poll.completions) :
    p ∈ s.poll.completions ∨ ∃ a b, p ∈ s.chain.completedLogs a b := by
  cases hstep with
  | queryCompleted => exact .inr ⟨_, _, hp⟩
  | applyCompleted hpoll =>
    left
    rw [hpoll]
    exact List.mem_cons_of_mem _ hp
  | pollBegin | completedDone | queryExpired | applyExpired | expiredDone | pollFail => cases hp
  | _ => exact .inl hp

theorem Step.expirations_cases (hstep : Step D s l s' ms) {j : JobId}
    (hj : j ∈ s'.poll.expirations) :
    j ∈ s.poll.expirations ∨ ∃ a b, j ∈ s.chain.expiredLogs a b := by
  cases hstep with
  | queryExpired => exact .inr ⟨_, _, hj⟩
  | applyExpired hpoll =>
    left
    rw [hpoll]
    exact List.mem_cons_of_mem _ hj
  | pollBegin | queryCompleted | applyCompleted | completedDone | expiredDone | pollFail => cases hj
  | _ => exact .inl hj

theorem Step.polling (hstep : Step D s l s' ms) (h : Polling D startBlock s) :
    Polling D startBlock s' := by
  have hext := hstep.extends h.chain
  refine ⟨hstep.chain_ok h.chain, ?_, ?_, ?_, ?_, ?_⟩
  · rcases hstep.lastBlock_cases with hlast | hhead
    · rw [hlast]
      exact h.start
    · exact Nat.le_trans h.start (Nat.le_of_lt (h.head _ hhead).1)
  · rcases hstep.lastBlock_cases with hlast | hhead
    · rw [hlast]
      exact h.last.imp_right fun hle => Nat.le_trans hle hext.head
    · exact .inr (Nat.le_trans (h.head _ hhead).2 hext.head)
  · intro n hn
    obtain ⟨hlast, hold | ⟨hlt, rfl⟩⟩ := hstep.head_cases hn
    · rw [hlast]
      exact ⟨(h.head n hold).1, Nat.le_trans (h.head n hold).2 hext.head⟩
    · rw [hlast]
      exact ⟨hlt, hext.head⟩
  · intro p hp
    rcases hstep.completions_cases hp with hold | ⟨a, b, hlog⟩
    · exact (h.completions p hold).mono hext
    · obtain ⟨e, he, hej, hx, -⟩ := Chain.mem_completedLogs.1 hlog
      exact Chain.CompletedBy.mono hext ⟨e, he, hej, hx⟩
  · intro j hj
    rcases hstep.expirations_cases hj with hold | ⟨a, b, hlog⟩
    · exact (h.expirations j hold).mono hext
    · obtain ⟨e, he, hej, -⟩ := Chain.mem_expiredLogs.1 hlog
      exact Chain.Expired.mono hext ⟨e, he, hej⟩

/-! ## Indexing -/

/-- `create_job` inserts the job of the step, if it is one, before the chain has closed it. -/
def InsertsOpen (s : Backend) : Label → Prop
  | .insert job => s.chain.world.completed job.id = false
  | _ => True

/-- The indexer is done with the completion `e` of `j`. -/
def DoneCompleted (s : Backend) (e : LogEntry) (j : JobId) : Prop :=
  e.block ≤ s.lastBlock ∨ e.block ≤ s.poll.completedTo ∧ (j, e.txHash) ∉ s.poll.completions

/-- The indexer is done with the expiration `e` of `j`. -/
def DoneExpired (s : Backend) (e : LogEntry) (j : JobId) : Prop :=
  e.block ≤ s.lastBlock ∨ e.block ≤ s.poll.expiredTo ∧ j ∉ s.poll.expirations

/-- Until the poll has read completions, the indexer is done up to the last block. -/
theorem DoneCompleted.le_lastBlock {e : LogEntry} {j : JobId} (h : s.DoneCompleted e j)
    (hp : s.poll.completedTo = 0) : e.block ≤ s.lastBlock := by
  rcases h with hle | ⟨hle, -⟩
  · exact hle
  · rw [hp] at hle
    exact Nat.le_trans hle (Nat.zero_le _)

theorem DoneExpired.le_lastBlock {e : LogEntry} {j : JobId} (h : s.DoneExpired e j)
    (hp : s.poll.expiredTo = 0) : e.block ≤ s.lastBlock := by
  rcases h with hle | ⟨hle, -⟩
  · exact hle
  · rw [hp] at hle
    exact Nat.le_trans hle (Nat.zero_le _)

/-- The map shows what the indexer is done with. -/
structure Indexed (startBlock : Nat) (s : Backend) : Prop where
  completed : ∀ e ∈ s.chain.logs, ∀ j, e.event.completes j = true → startBlock < e.block →
    s.DoneCompleted e j → ∃ h, s.jobs.status j = some (.completed h)
  expired : ∀ e ∈ s.chain.logs, ∀ j, e.event.expires j = true → startBlock < e.block →
    s.DoneExpired e j → ∀ st, s.jobs.status j = some st → st.isCompleted = true ∨ st = .expired

theorem Polling.not_done_above (h : Polling D startBlock s) {e : LogEntry}
    (hstart : startBlock < e.block) (habove : s.chain.head < e.block) (j : JobId) :
    ¬ s.DoneCompleted e j ∧ ¬ s.DoneExpired e j := by
  have hlast : s.lastBlock < e.block := by
    rcases h.last with hl | hl
    · exact hl ▸ hstart
    · exact Nat.lt_of_le_of_lt hl habove
  have hcompleted := Poll.completedTo_le fun k hk => (h.head k hk).2
  have hexpired := Poll.expiredTo_le fun k hk => (h.head k hk).2
  unfold DoneCompleted DoneExpired
  omega

/-- A step finishes with a completion by recording one, unless it was done with it before. -/
theorem Step.doneCompleted (hstep : Step D s l s' ms) (h : Polling D startBlock s) {e : LogEntry}
    {j : JobId} (he : e ∈ s'.chain.logs) (hej : e.event.completes j = true)
    (hstart : startBlock < e.block) (hdone : s'.DoneCompleted e j) :
    (e ∈ s.chain.logs ∧ s.DoneCompleted e j) ∨ ∃ x, s'.jobs.status j = some (.completed x) := by
  have hfresh := (hstep.extends h.chain).fresh e he
  cases hstep with
  | mine =>
    rcases hfresh with hold | hnew
    · exact .inl ⟨hold, hdone⟩
    · exact absurd hdone (h.not_done_above hstart hnew j).1
  | queryCompleted hp =>
    left
    refine ⟨he, .inl ?_⟩
    rcases hdone with hle | ⟨hle, hnotin⟩
    · exact hle
    · by_contra hlt
      exact hnotin (Chain.mem_completedLogs.2 ⟨e, he, hej, rfl, Nat.lt_of_not_le hlt, hle⟩)
  | @applyCompleted head k x logs hp =>
    rcases hdone with hle | ⟨hle, hnotin⟩
    · exact .inl ⟨he, .inl hle⟩
    · by_cases hk : (j, e.txHash) = (k, x)
      · cases hk
        right
        rw [status_handleJobCompleted, if_pos rfl]
        cases s.jobs.status j with
        | none => exact ⟨_, rfl⟩
        | some st =>
          obtain ⟨y, hy⟩ := st.exists_complete e.txHash
          exact ⟨y, congrArg some hy⟩
      · left
        refine ⟨he, .inr ⟨?_, ?_⟩⟩
        · rw [hp]
          exact hle
        · rw [hp]
          intro hmem
          rcases List.mem_cons.1 hmem with heq | hmem
          · exact hk heq
          · exact hnotin hmem
  | completedDone hp | queryExpired hp | applyExpired hp =>
    left
    refine ⟨he, hdone.imp_right fun hle => ?_⟩
    rw [hp]
    exact ⟨hle.1, List.not_mem_nil⟩
  | expiredDone hp =>
    left
    refine ⟨he, .inr ?_⟩
    rw [hp]
    exact ⟨hdone.le_lastBlock rfl, List.not_mem_nil⟩
  | pollBegin | pollFail =>
    exact .inl ⟨he, .inl (hdone.le_lastBlock rfl)⟩
  | _ => exact .inl ⟨he, hdone⟩

/-- A step finishes with an expiration by recording it over everything but a completion, unless it
was done with it before. -/
theorem Step.doneExpired (hstep : Step D s l s' ms) (h : Polling D startBlock s) {e : LogEntry}
    {j : JobId} (he : e ∈ s'.chain.logs) (hej : e.event.expires j = true)
    (hstart : startBlock < e.block) (hdone : s'.DoneExpired e j) :
    (e ∈ s.chain.logs ∧ s.DoneExpired e j) ∨
      ∀ st, s'.jobs.status j = some st → st.isCompleted = true ∨ st = .expired := by
  have hfresh := (hstep.extends h.chain).fresh e he
  cases hstep with
  | mine =>
    rcases hfresh with hold | hnew
    · exact .inl ⟨hold, hdone⟩
    · exact absurd hdone (h.not_done_above hstart hnew j).2
  | queryExpired hp =>
    left
    refine ⟨he, .inl ?_⟩
    rcases hdone with hle | ⟨hle, hnotin⟩
    · exact hle
    · by_contra hlt
      exact hnotin (Chain.mem_expiredLogs.2 ⟨e, he, hej, Nat.lt_of_not_le hlt, hle⟩)
  | @applyExpired head k logs hp =>
    rcases hdone with hle | ⟨hle, hnotin⟩
    · exact .inl ⟨he, .inl hle⟩
    · by_cases hk : j = k
      · subst hk
        right
        intro st hst
        rw [status_handleJobExpired, if_pos rfl] at hst
        obtain ⟨old, -, rfl⟩ := Option.map_eq_some_iff.1 hst
        exact old.expire_shown
      · left
        refine ⟨he, .inr ⟨?_, ?_⟩⟩
        · rw [hp]
          exact hle
        · rw [hp]
          intro hmem
          rcases List.mem_cons.1 hmem with heq | hmem
          · exact hk heq
          · exact hnotin hmem
  | expiredDone hp =>
    left
    refine ⟨he, .inr ?_⟩
    rw [hp]
    exact ⟨hdone.le_lastBlock rfl, List.not_mem_nil⟩
  | pollBegin | pollFail | queryCompleted | applyCompleted | completedDone =>
    exact .inl ⟨he, .inl (hdone.le_lastBlock rfl)⟩
  | _ => exact .inl ⟨he, hdone⟩

/-- A status that shows a closed job is only changed to another one, unless a job is inserted under
the same id. -/
theorem Step.shown_kept (hstep : Step D s l s' ms) {j : JobId}
    (hne : ∀ job, l = .insert job → job.id ≠ j)
    (h : ∀ st, s.jobs.status j = some st → st.isCompleted = true ∨ st = .expired) :
    ∀ st, s'.jobs.status j = some st → st.isCompleted = true ∨ st = .expired := by
  intro st hst
  obtain ⟨st', hst', hchange⟩ := hstep.status j
  rw [hst'] at hst
  cases hchange with
  | keep => exact h st hst
  | assigned hp => rcases h _ hp with hc | hc <;> cases hc
  | inserted _ hid => exact absurd hid (hne _ rfl)
  | confirmed | indexed =>
    cases hst
    exact .inl rfl
  | expired =>
    cases hst
    exact .inr rfl

theorem InsertsOpen.ne_closed (hopen : s.InsertsOpen l) {j : JobId}
    (hclosed : s.chain.world.completed j = true) (job : Job) (hl : l = .insert job) :
    job.id ≠ j := by
  rintro rfl
  rw [hl] at hopen
  cases hclosed.symm.trans hopen

theorem Step.indexed (hstep : Step D s l s' ms) (hopen : s.InsertsOpen l)
    (hp : Polling D startBlock s) (h : Indexed startBlock s) : Indexed startBlock s' := by
  refine ⟨?_, ?_⟩
  · intro e he j hej hstart hdone
    rcases hstep.doneCompleted hp he hej hstart hdone with ⟨hold, hdone⟩ | hnew
    · obtain ⟨x, hx⟩ := h.completed e hold j hej hstart hdone
      rcases hstep.completed_kept hx with hkept | ⟨job, -, rfl, rfl⟩
      · exact ⟨x, hkept⟩
      · have hclosed := (hp.chain.completed_iff _).2 (.inl ⟨_, e, hold, hej, rfl⟩)
        cases hclosed.symm.trans hopen
    · exact hnew
  · intro e he j hej hstart hdone
    rcases hstep.doneExpired hp he hej hstart hdone with ⟨hold, hdone⟩ | hnew
    · have hclosed := (hp.chain.completed_iff j).2 (.inr ⟨e, hold, hej⟩)
      exact hstep.shown_kept (hopen.ne_closed hclosed) (h.expired e hold j hej hstart hdone)
    · exact hnew

theorem indexed_start (chain : Chain) (contract : Bool) (defaultDeadlineSecs : UInt64) (m : JobMap)
    (startBlock : Nat) :
    Indexed startBlock (Backend.start chain contract defaultDeadlineSecs m startBlock) := by
  refine ⟨?_, ?_⟩
  · intro e _ j _ hstart hdone
    exact absurd (hdone.le_lastBlock rfl) (Nat.not_le.2 hstart)
  · intro e _ j _ hstart hdone
    exact absurd (hdone.le_lastBlock rfl) (Nat.not_le.2 hstart)

/-! ## Recorded completions are acceptable -/

/-- A sense in which a recorded completion is acceptable on a chain. What the chain says itself is
acceptable, and what is acceptable stays so. -/
structure Acceptable (D : Deployment) (A : Chain → JobId → TxHash → Prop) : Prop where
  mono : ∀ c c' j h, c.Extends c' → A c j h → A c' j h
  of_completedBy : ∀ c j h, c.Ok D → c.CompletedBy j h → A c j h

/-- When the chain confirms a gossip completion that the map would take, it is acceptable. -/
def Vouched (A : Chain → JobId → TxHash → Prop) (s : Backend) : Label → Prop
  | .recv (.jobCompleted j h) _ reachable =>
    reachable = true → s.chain.world.completed j = true →
      ∀ st, s.jobs.status j = some st → st.isCompleted = false → A s.chain j h
  | _ => True

/-- The completions in the map are acceptable, and so is the one about to be written, if the map
takes it. -/
structure Recorded (A : Chain → JobId → TxHash → Prop) (s : Backend) : Prop where
  status : ∀ j h, s.jobs.status j = some (.completed h) → A s.chain j h
  closed : ∀ j h, s.verified = some (j, h) → s.chain.world.completed j = true
  verified : ∀ j h, s.verified = some (j, h) →
    ∀ st, s.jobs.status j = some st → st.isCompleted = false → A s.chain j h

theorem Step.open_old (hstep : Step D s l s' ms) (hopen : s.InsertsOpen l) {j : JobId}
    (hclosed : s.chain.world.completed j = true) {st : JobStatus}
    (hst : s'.jobs.status j = some st) (hc : st.isCompleted = false) :
    ∃ old, s.jobs.status j = some old ∧ old.isCompleted = false := by
  obtain ⟨st', hst', hchange⟩ := hstep.status j
  rw [hst'] at hst
  cases hchange with
  | keep => exact ⟨st, hst, hc⟩
  | assigned hp => exact ⟨_, hp, rfl⟩
  | inserted _ hid =>
    subst hid
    cases hclosed.symm.trans hopen
  | confirmed | indexed =>
    cases hst
    cases hc
  | expired _ hold hcold => exact ⟨_, hold, hcold⟩

theorem Step.verified_cases (hstep : Step D s l s' ms) {j : JobId} {h : TxHash}
    (hv : s'.verified = some (j, h)) :
    s.verified = some (j, h) ∨
      s.chain.world.completed j = true ∧ s'.chain = s.chain ∧ s'.jobs = s.jobs ∧
        ∃ now, l = .recv (.jobCompleted j h) now true := by
  cases hstep with
  | verify _ hclosed =>
    cases hv
    exact .inr ⟨hclosed, rfl, rfl, _, rfl⟩
  | record => cases hv
  | _ => exact .inl hv

variable {A : Chain → JobId → TxHash → Prop}

/-- A step records acceptable completions only, if the one about to be written is acceptable where
the map takes it. -/
theorem Step.completed_acceptable (hA : Acceptable D A) (hstep : Step D s l s' ms)
    (hpend : s.CreatingPending) (hp : Polling D startBlock s)
    (hstatus : ∀ j h, s.jobs.status j = some (.completed h) → A s.chain j h)
    (hverified : ∀ j h, s.verified = some (j, h) →
      ∀ st, s.jobs.status j = some st → st.isCompleted = false → A s.chain j h) :
    ∀ j h, s'.jobs.status j = some (.completed h) → A s'.chain j h := by
  intro j x hx
  refine hA.mono _ _ _ _ (hstep.extends hp.chain) ?_
  rcases hstep.completed_new hx with hold | ⟨hv, st, hst, hc⟩ | ⟨head, logs, hpoll⟩ |
      ⟨job, hmem, hjob⟩
  · exact hstatus j x hold
  · exact hverified j x hv st hst hc
  · have hlog := hp.completions (j, x) (by simp [hpoll, Poll.completions])
    exact hA.of_completedBy _ _ _ hp.chain hlog
  · rw [hpend job hmem] at hjob
    cases hjob

theorem Step.recorded (hA : Acceptable D A) (hstep : Step D s l s' ms) (hopen : s.InsertsOpen l)
    (hvouched : s.Vouched A l) (hpend : s.CreatingPending) (hp : Polling D startBlock s)
    (h : Recorded A s) : Recorded A s' := by
  have hext := hstep.extends hp.chain
  have hclosed : ∀ j x, s'.verified = some (j, x) → s.chain.world.completed j = true := by
    intro j x hv
    rcases hstep.verified_cases hv with hold | ⟨hj, -⟩
    · exact h.closed j x hold
    · exact hj
  refine ⟨hstep.completed_acceptable hA hpend hp h.status h.verified, ?_, ?_⟩
  · intro j x hv
    exact hext.world.completed j (hclosed j x hv)
  · intro j x hv st hst hc
    refine hA.mono _ _ _ _ hext ?_
    obtain ⟨old, hold, hcold⟩ := hstep.open_old hopen (hclosed j x hv) hst hc
    rcases hstep.verified_cases hv with hv | ⟨hj, -, -, now, rfl⟩
    · exact h.verified j x hv old hold hcold
    · exact hvouched rfl hj old hold hcold

/-! ## Runs -/

/-- All of the above. -/
structure Sound (D : Deployment) (A : Chain → JobId → TxHash → Prop) (startBlock : Nat)
    (s : Backend) : Prop where
  polling : Polling D startBlock s
  indexed : Indexed startBlock s
  recorded : Recorded A s
  pending : s.CreatingPending

/-- **Runs in which gossip completions are vouched for stay sound.** -/
theorem Steps.sound {ok : Backend → Label → Prop} (hA : Acceptable D A)
    (hok : ∀ u l, u.chain.Ok D → ok u l → u.InsertsOpen l ∧ u.Vouched A l)
    (h : Steps D ok s s') (hs : Sound D A startBlock s) : Sound D A startBlock s' := by
  refine Transition.Steps.invariant ?_ h hs
  intro u l v hu hl hnext
  obtain ⟨hopen, hvouched⟩ := hok u l hu.polling.chain hl
  obtain ⟨ms, hstep⟩ := Step.of_next hnext
  exact {
    polling := hstep.polling hu.polling
    indexed := hstep.indexed hopen hu.polling hu.indexed
    recorded := hstep.recorded hA hopen hvouched hu.pending hu.polling hu.recorded
    pending := hstep.creatingPending hu.pending }

theorem sound_start {chain : Chain} (hchain : chain.Ok D) (contract : Bool)
    (defaultDeadlineSecs : UInt64) {m : JobMap} (startBlock : Nat)
    (hm : ∀ j h, m.status j = some (.completed h) → A chain j h) :
    Sound D A startBlock (Backend.start chain contract defaultDeadlineSecs m startBlock) where
  polling := polling_start hchain contract defaultDeadlineSecs m startBlock
  indexed := indexed_start chain contract defaultDeadlineSecs m startBlock
  recorded := ⟨hm, nofun, nofun⟩
  pending := nofun

end Backend

end ProofMarket
