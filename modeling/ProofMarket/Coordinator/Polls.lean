import ProofMarket.Coordinator.Process

/-!
# Polls that fail and polls that do not

`Indexer::poll_events` as one call, with the answers of the provider as its input. A poll asks for
the head, for the completions and for the expirations of the blocks since `last_block`, and any of
the three may fail; `last_block` moves only when none did, so the next poll covers the same blocks
again.

**Theorem (`polls_merge`).** However the blocks are cut into polls and whichever queries fail, a
poll that succeeds leaves the map that one poll without failures would have made.

A poll applies its completions before its expirations, so the order of the blocks is lost between
the two kinds. It does not matter: job by job the first completion wins over everything, and without
a completion the job is expired if any expiration names it (`lookup_completeAll`,
`lookup_expireAll`).
-/

namespace ProofMarket

open Registry (Deployment)

/-! ## Logs in chain order -/

namespace Chain

/-- The log is in the order of the blocks. -/
def Ordered (c : Chain) : Prop := c.logs.Pairwise fun a b => a.block ≤ b.block

/-- The entries up to block `b` and those after it, in one list. -/
theorem filter_append_filter {l : List LogEntry} (hl : l.Pairwise fun a b => a.block ≤ b.block)
    {a b d : Nat} (hab : a ≤ b + 1) (hbd : b ≤ d) :
    (l.filter fun e => a ≤ e.block && e.block ≤ b) ++
        (l.filter fun e => b + 1 ≤ e.block && e.block ≤ d) =
      l.filter fun e => a ≤ e.block && e.block ≤ d := by
  induction l with
  | nil => rfl
  | cons e l ih =>
    obtain ⟨he, hl⟩ := List.pairwise_cons.1 hl
    by_cases hb : e.block ≤ b
    · have hnot : ¬ b + 1 ≤ e.block := by omega
      have hd : e.block ≤ d := hb.trans hbd
      by_cases ha : a ≤ e.block <;>
        simp only [List.filter_cons, ha, hb, hnot, hd, decide_true, decide_false, Bool.and_self,
          Bool.and_true, Bool.false_eq_true, if_true, if_false, List.cons_append, ih hl]
    · have hnone : (l.filter fun e => a ≤ e.block && e.block ≤ b) = [] := by
        refine List.filter_eq_nil_iff.2 fun x hx => ?_
        have hle := he x hx
        simp only [Bool.and_eq_true, decide_eq_true_eq, not_and]
        omega
      have ha : a ≤ e.block := by omega
      have hb' : b + 1 ≤ e.block := by omega
      have hrest := ih hl
      rw [hnone, List.nil_append] at hrest
      by_cases hd : e.block ≤ d <;>
        simp only [List.filter_cons, ha, hb, hb', hd, decide_true, decide_false, Bool.and_self,
          Bool.and_false, Bool.false_eq_true, if_true, if_false, hnone, hrest, List.nil_append]

variable {c : Chain} {a b d : Nat}

theorem Ordered.completedLogs_append (h : c.Ordered) (hab : a ≤ b + 1) (hbd : b ≤ d) :
    c.completedLogs a b ++ c.completedLogs (b + 1) d = c.completedLogs a d := by
  unfold completedLogs range
  rw [← List.filterMap_append, filter_append_filter h hab hbd]

theorem Ordered.expiredLogs_append (h : c.Ordered) (hab : a ≤ b + 1) (hbd : b ≤ d) :
    c.expiredLogs a b ++ c.expiredLogs (b + 1) d = c.expiredLogs a d := by
  unfold expiredLogs range
  rw [← List.filterMap_append, filter_append_filter h hab hbd]

theorem Ordered.execute {n : Nat} (h : c.Ordered) (hle : ∀ e ∈ c.logs, e.block ≤ n)
    (D : Deployment) (tx : TxHash × Registry.Act) :
    (c.execute D n tx).Ordered ∧ ∀ e ∈ (c.execute D n tx).logs, e.block ≤ n := by
  constructor
  · refine List.pairwise_append.2 ⟨h, List.pairwise_map.2 ?_, ?_⟩
    · exact List.pairwise_of_forall fun _ _ => Nat.le_refl n
    · intro e he e' he'
      obtain ⟨ev, -, rfl⟩ := List.mem_map.1 he'
      exact hle e he
  · intro e he
    rcases List.mem_append.1 he with he | he
    · exact hle e he
    · obtain ⟨ev, -, rfl⟩ := List.mem_map.1 he
      exact Nat.le_refl n

theorem Ordered.mine {D : Deployment} (h : c.Ordered) (hok : c.Ok D)
    (txs : List (TxHash × Registry.Act)) : (c.mine D txs).Ordered := by
  have hfold : ∀ c' : Chain, c'.Ordered → (∀ e ∈ c'.logs, e.block ≤ c.head + 1) →
      (txs.foldl (Chain.execute D (c.head + 1)) c').Ordered := by
    induction txs with
    | nil => exact fun c' h' _ => h'
    | cons tx txs ih =>
      intro c' h' hle
      obtain ⟨hord, hle'⟩ := h'.execute hle D tx
      exact ih _ hord hle'
  exact hfold c h fun e he => Nat.le_succ_of_le (hok.blocks e he)

theorem range_succ_self (c : Chain) (n : Nat) : c.range (n + 1) n = [] := by
  refine List.filter_eq_nil_iff.2 fun e _ => ?_
  simp only [Bool.and_eq_true, decide_eq_true_eq, not_and]
  omega

/-- Blocks are mined one after the other, so every chain is in order. -/
theorem ordered_after (D : Deployment) (prefunded : Nat)
    (blocks : List (List (TxHash × Registry.Act))) : (after D prefunded blocks).Ordered := by
  have hmine : ∀ (c : Chain) (txs : List (TxHash × Registry.Act)),
      (c.Ok D ∧ c.Ordered) → (c.mine D txs).Ok D ∧ (c.mine D txs).Ordered := by
    rintro c txs ⟨hok, hordered⟩
    exact ⟨hok.mine txs, hordered.mine hok txs⟩
  exact (after_invariant (I := fun c => c.Ok D ∧ c.Ordered)
    ⟨ok_genesis D prefunded, List.Pairwise.nil⟩ hmine blocks).2

end Chain

/-! ## One poll -/

namespace Indexer

inductive IndexerError where
  | provider (message : String)
  | eventDecode (message : String)

/-- What an indexer has between two polls. -/
structure Cursor where
  jobs : JobMap
  lastBlock : Nat

/-- What the provider answers during a poll: the head, and for each query whether it fails. -/
structure Answers where
  head : Except IndexerError Nat
  completedQuery : Except IndexerError Unit
  expiredQuery : Except IndexerError Unit

/-- A provider that answers everything. -/
def Answers.all (head : Nat) : Answers := ⟨.ok head, .ok (), .ok ()⟩

/-- `handle_job_completed` for every log. -/
def completeAll (logs : List (JobId × TxHash)) (jobs : JobMap) : JobMap :=
  logs.foldl (fun m log => handleJobCompleted m log.1 log.2) jobs

/-- `handle_job_expired` for every log. -/
def expireAll (logs : List JobId) (jobs : JobMap) : JobMap := logs.foldl handleJobExpired jobs

/-- `process_job_completed_events`. -/
def processJobCompletedEvents (c : Chain) (jobs : JobMap) (fromBlock toBlock : Nat)
    (query : Except IndexerError Unit) : Except IndexerError JobMap :=
  query.map fun _ => completeAll (c.completedLogs fromBlock toBlock) jobs

/-- `process_job_expired_events`. -/
def processJobExpiredEvents (c : Chain) (jobs : JobMap) (fromBlock toBlock : Nat)
    (query : Except IndexerError Unit) : Except IndexerError JobMap :=
  query.map fun _ => expireAll (c.expiredLogs fromBlock toBlock) jobs

/-- `poll_events`. -/
def pollEvents (c : Chain) (s : Cursor) (a : Answers) : Cursor × Except IndexerError Unit :=
  match a.head with
  | .error e => (s, .error e)
  | .ok currentBlock =>
    if currentBlock ≤ s.lastBlock then (s, .ok ())
    else
      let fromBlock := s.lastBlock + 1
      let toBlock := currentBlock
      match processJobCompletedEvents c s.jobs fromBlock toBlock a.completedQuery with
      | .error e => (s, .error e)
      | .ok jobs =>
        match processJobExpiredEvents c jobs fromBlock toBlock a.expiredQuery with
        | .error e => ({ s with jobs }, .error e)
        | .ok jobs => (⟨jobs, currentBlock⟩, .ok ())

/-- `poll_events` again and again, as `run` calls it. -/
def pollAll (c : Chain) (s : Cursor) (polls : List Answers) : Cursor :=
  polls.foldl (fun s a => (pollEvents c s a).1) s

theorem pollAll_append (c : Chain) (s : Cursor) (polls : List Answers) (a : Answers) :
    pollAll c s (polls ++ [a]) = (pollEvents c (pollAll c s polls) a).1 := by
  simp [pollAll]

/-- The heads that the polls were told. -/
def heads (polls : List Answers) : List Nat := polls.filterMap fun a => a.head.toOption

/-! ## What the logs make of one job -/

/-- The transaction of the first completion of the job. -/
def firstCompletion (j : JobId) (logs : List (JobId × TxHash)) : Option TxHash :=
  (logs.find? fun log => log.1 = j).map Prod.snd

/-- An entry after its completions. -/
def completeEntry (j : JobId) (first : Option TxHash) (entry : Option Job) : Option Job :=
  match first, entry with
  | none, _ => entry
  | some h, some job =>
    some (if !job.jobStatus.isCompleted then { job with jobStatus := .completed h } else job)
  | some h, none => some (discoveredJob j h)

/-- A job after an expiration. -/
def expireJob (job : Job) : Job :=
  if !(job.jobStatus.isCompleted || job.jobStatus = .expired) then
    { job with jobStatus := .expired }
  else job

theorem firstCompletion_eq_none {j : JobId} {logs : List (JobId × TxHash)} :
    firstCompletion j logs = none ↔ ∀ h, (j, h) ∉ logs := by
  unfold firstCompletion
  rw [Option.map_eq_none_iff, List.find?_eq_none]
  constructor
  · intro hnone h hmem
    exact hnone (j, h) hmem (decide_eq_true rfl)
  · rintro hnone ⟨k, h⟩ hmem hk
    obtain rfl : k = j := of_decide_eq_true hk
    exact hnone h hmem

theorem mem_of_firstCompletion {j : JobId} {h : TxHash} {logs : List (JobId × TxHash)}
    (hfirst : firstCompletion j logs = some h) : (j, h) ∈ logs := by
  obtain ⟨⟨k, x⟩, hfind, hx⟩ := Option.map_eq_some_iff.1 hfirst
  obtain rfl : k = j := by simpa using List.find?_some hfind
  obtain rfl : x = h := hx
  exact List.mem_of_find?_eq_some hfind

theorem firstCompletion_append (j : JobId) (l l' : List (JobId × TxHash)) :
    firstCompletion j (l ++ l') = (firstCompletion j l).or (firstCompletion j l') := by
  unfold firstCompletion
  rw [List.find?_append, Option.map_or]

theorem completeEntry_completeEntry (j : JobId) (x y : Option TxHash) (entry : Option Job) :
    completeEntry j y (completeEntry j x entry) = completeEntry j (x.or y) entry := by
  cases x with
  | none => rfl
  | some h =>
    cases y with
    | none => rfl
    | some h' =>
      cases entry with
      | none => rfl
      | some job =>
        obtain ⟨id, st, owner, payload, reward, createdAt, deadline⟩ := job
        cases st <;> rfl

/-- **The first completion wins.** -/
theorem lookup_completeAll (logs : List (JobId × TxHash)) (m : JobMap) (j : JobId) :
    (completeAll logs m).lookup j = completeEntry j (firstCompletion j logs) (m.lookup j) := by
  induction logs generalizing m with
  | nil => rfl
  | cons log logs ih =>
    show (completeAll logs _).lookup j = _
    rw [ih, lookup_handleJobCompleted]
    by_cases hj : j = log.1
    · subst hj
      have hfirst : firstCompletion log.1 (log :: logs) = some log.2 := by
        simp [firstCompletion]
      rw [if_pos rfl, hfirst]
      have hsecond := completeEntry_completeEntry log.1 (some log.2) (firstCompletion log.1 logs)
        (m.lookup log.1)
      cases hm : m.lookup log.1 <;> simpa [completeEntry, hm] using hsecond
    · have hfirst : firstCompletion j (log :: logs) = firstCompletion j logs := by
        simp [firstCompletion, Ne.symm hj]
      rw [if_neg hj, hfirst]

theorem expireJob_expireJob (job : Job) : expireJob (expireJob job) = expireJob job := by
  obtain ⟨id, st, owner, payload, reward, createdAt, deadline⟩ := job
  cases st <;> rfl

/-- **One expiration is as good as many.** -/
theorem lookup_expireAll (logs : List JobId) (m : JobMap) (j : JobId) :
    (expireAll logs m).lookup j = if j ∈ logs then (m.lookup j).map expireJob else m.lookup j := by
  induction logs generalizing m with
  | nil => rfl
  | cons k logs ih =>
    show (expireAll logs _).lookup j = _
    have hone : (handleJobExpired m k).lookup j =
        if j = k then (m.lookup k).map expireJob else m.lookup j :=
      lookup_handleJobExpired m k j
    rw [ih, hone]
    by_cases hk : j = k
    · subst hk
      have hidem : expireJob ∘ expireJob = expireJob := funext expireJob_expireJob
      rw [if_pos rfl, Option.map_map, hidem]
      simp
    · simp [hk]

theorem map_expireJob_completeEntry {j : JobId} {h : TxHash} {entry : Option Job} :
    (completeEntry j (some h) entry).map expireJob = completeEntry j (some h) entry := by
  cases entry with
  | none => rfl
  | some job =>
    obtain ⟨id, st, owner, payload, reward, createdAt, deadline⟩ := job
    cases st <;> rfl

/-- An expiration before the first completion leaves no trace. -/
theorem completeEntry_map_expireJob {j : JobId} {h : TxHash} {entry : Option Job} :
    completeEntry j (some h) (entry.map expireJob) = completeEntry j (some h) entry := by
  cases entry with
  | none => rfl
  | some job =>
    obtain ⟨id, st, owner, payload, reward, createdAt, deadline⟩ := job
    cases st <;> rfl

/-! ## What the polls have applied so far -/

/-- The map after the completions of the blocks `a` to `r` and then the expirations of `a` to
`b`. -/
def settle (c : Chain) (m : JobMap) (a r b : Nat) : JobMap :=
  expireAll (c.expiredLogs a b) (completeAll (c.completedLogs a r) m)

section Settle

variable {c : Chain} {m : JobMap} {a b r h : Nat}

theorem lookup_settle (j : JobId) :
    (settle c m a r b).lookup j =
      if j ∈ c.expiredLogs a b then
        (completeEntry j (firstCompletion j (c.completedLogs a r)) (m.lookup j)).map expireJob
      else completeEntry j (firstCompletion j (c.completedLogs a r)) (m.lookup j) := by
  unfold settle
  rw [lookup_expireAll, lookup_completeAll]

/-- **More completions** fall into place, though expirations have been applied since, and though
some of them are applied again. -/
theorem completeAll_settle (hc : c.Ordered) (hab : a ≤ b + 1) (hbr : b ≤ r) (hrh : r ≤ h) :
    completeAll (c.completedLogs (b + 1) h) (settle c m a r b) = settle c m a h b := by
  refine Finmap.ext_lookup fun j => ?_
  rw [lookup_completeAll, lookup_settle, lookup_settle]
  have hfirst : firstCompletion j (c.completedLogs a h) =
      (firstCompletion j (c.completedLogs a r)).or
        (firstCompletion j (c.completedLogs (r + 1) h)) := by
    rw [← firstCompletion_append, hc.completedLogs_append (by omega) hrh]
  have hagain : firstCompletion j (c.completedLogs (b + 1) h) =
      (firstCompletion j (c.completedLogs (b + 1) r)).or
        (firstCompletion j (c.completedLogs (r + 1) h)) := by
    rw [← firstCompletion_append, hc.completedLogs_append (by omega) hrh]
  have hpart : firstCompletion j (c.completedLogs a r) =
      (firstCompletion j (c.completedLogs a b)).or
        (firstCompletion j (c.completedLogs (b + 1) r)) := by
    rw [← firstCompletion_append, hc.completedLogs_append hab hbr]
  cases hr : firstCompletion j (c.completedLogs a r) with
  | some x =>
    -- The job is completed already: nothing that is applied again changes it.
    have hdone : ∀ y, completeEntry j y (completeEntry j (some x) (m.lookup j)) =
        completeEntry j (some x) (m.lookup j) := fun y => completeEntry_completeEntry j _ y _
    rw [hfirst, hr]
    simp only [Option.some_or, map_expireJob_completeEntry, ite_self, hdone]
  | none =>
    -- The first completion is among the new ones, if there is any.
    have hnew : firstCompletion j (c.completedLogs (b + 1) r) = none := by
      rw [hr] at hpart
      exact (Option.or_eq_none_iff.1 hpart.symm).2
    rw [hfirst, hr, hagain, hnew]
    cases hlast : firstCompletion j (c.completedLogs (r + 1) h) with
    | none => rfl
    | some x =>
      split_ifs
      · simp only [Option.none_or, map_expireJob_completeEntry]
        exact completeEntry_map_expireJob
      · rfl

theorem expireAll_settle (hc : c.Ordered) (hab : a ≤ b + 1) (hbh : b ≤ h) :
    expireAll (c.expiredLogs (b + 1) h) (settle c m a r b) = settle c m a r h := by
  unfold settle expireAll
  rw [← List.foldl_append, hc.expiredLogs_append hab hbh]

/-- **Applying a part again** changes nothing. -/
theorem settle_settle {a' b' : Nat} (ha : a ≤ a') (hb : b' ≤ h) :
    settle c (settle c m a h h) a' b' b' = settle c m a h h := by
  refine Finmap.ext_lookup fun j => ?_
  rw [lookup_settle, lookup_settle]
  have hexp : j ∈ c.expiredLogs a' b' → j ∈ c.expiredLogs a h := by
    intro hj
    obtain ⟨e, he, hej, hlo, hhi⟩ := Chain.mem_expiredLogs.1 hj
    exact Chain.mem_expiredLogs.2 ⟨e, he, hej, ha.trans hlo, hhi.trans hb⟩
  have hcomp : firstCompletion j (c.completedLogs a h) = none →
      firstCompletion j (c.completedLogs a' b') = none := by
    rw [firstCompletion_eq_none, firstCompletion_eq_none]
    intro hnone x hx
    obtain ⟨e, he, hej, hex, hlo, hhi⟩ := Chain.mem_completedLogs.1 hx
    exact hnone x (Chain.mem_completedLogs.2 ⟨e, he, hej, hex, ha.trans hlo, hhi.trans hb⟩)
  cases hfirst : firstCompletion j (c.completedLogs a h) with
  | some x =>
    have hdone : ∀ y, completeEntry j y (completeEntry j (some x) (m.lookup j)) =
        completeEntry j (some x) (m.lookup j) := fun y => completeEntry_completeEntry j _ y _
    simp only [map_expireJob_completeEntry, ite_self, hdone]
  | none =>
    rw [hcomp hfirst]
    have hidem : expireJob ∘ expireJob = expireJob := funext expireJob_expireJob
    by_cases hj : j ∈ c.expiredLogs a' b'
    · simp [completeEntry, hj, hexp hj, hidem]
    · simp [completeEntry, hj]

end Settle

/-! ## Any polls -/

variable {c : Chain} {s t : Cursor} {r : Nat}

/-- What polls from `s` have led to: everything up to `last_block` has been applied, and
completions up to `r`, which is further on when a poll has failed in the middle. -/
structure Reached (c : Chain) (s t : Cursor) (r : Nat) : Prop where
  start : s.lastBlock ≤ t.lastBlock
  further : t.lastBlock ≤ r
  jobs : t.jobs = settle c s.jobs (s.lastBlock + 1) r t.lastBlock

theorem reached_refl (c : Chain) (s : Cursor) : Reached c s s s.lastBlock where
  start := Nat.le_refl _
  further := Nat.le_refl _
  jobs := by
    simp [settle, expireAll, completeAll, Chain.completedLogs, Chain.expiredLogs,
      Chain.range_succ_self]

/-- **One poll**, at a head that is not behind what has been seen. -/
theorem Reached.poll (hc : c.Ordered) (h : Reached c s t r) (a : Answers)
    (hhead : ∀ n, a.head = .ok n → r ≤ max s.lastBlock n) :
    ∃ r', Reached c s (pollEvents c t a).1 r' ∧
      (r' = r ∨ ∃ n, a.head = .ok n ∧ r' = n) ∧
        ((pollEvents c t a).2 = .ok () → r' = (pollEvents c t a).1.lastBlock) := by
  unfold pollEvents
  cases hn : a.head with
  | error e => exact ⟨r, h, .inl rfl, by simp⟩
  | ok n =>
    have hstart := h.start
    have hfurther := h.further
    have hmax := hhead n hn
    dsimp only
    split_ifs with hle
    · exact ⟨r, h, .inl rfl, fun _ => by dsimp only; omega⟩
    · have hrn : r ≤ n := by omega
      have hcompleted : completeAll (c.completedLogs (t.lastBlock + 1) n) t.jobs =
          settle c s.jobs (s.lastBlock + 1) n t.lastBlock := by
        rw [h.jobs]
        exact completeAll_settle hc (by omega) hfurther hrn
      cases hq : a.completedQuery with
      | error e => exact ⟨r, h, .inl rfl, by simp [processJobCompletedEvents, Except.map]⟩
      | ok u =>
        simp only [processJobCompletedEvents, Except.map, hcompleted]
        cases hx : a.expiredQuery with
        | error e =>
          simp only [processJobExpiredEvents, Except.map]
          exact ⟨n, ⟨hstart, by dsimp only; omega, rfl⟩, .inr ⟨n, rfl, rfl⟩, by simp⟩
        | ok u' =>
          have hexpired := expireAll_settle (m := s.jobs) (r := n) hc
            (show s.lastBlock + 1 ≤ t.lastBlock + 1 by omega) (show t.lastBlock ≤ n by omega)
          simp only [processJobExpiredEvents, Except.map, hexpired]
          exact ⟨n, ⟨by dsimp only; omega, Nat.le_refl n, rfl⟩, .inr ⟨n, rfl, rfl⟩, fun _ => rfl⟩

/-- **A sequence of polls**: `r` is where the indexer started, or a head that a poll was told. -/
theorem reached_pollAll (hc : c.Ordered) (s : Cursor) (polls : List Answers)
    (hheads : (heads polls).Pairwise (· ≤ ·)) :
    ∃ r, Reached c s (pollAll c s polls) r ∧ (r = s.lastBlock ∨ r ∈ heads polls) := by
  induction polls using List.reverseRecOn with
  | nil => exact ⟨s.lastBlock, reached_refl c s, .inl rfl⟩
  | append_singleton polls a ih =>
    have hsplit : heads (polls ++ [a]) = heads polls ++ heads [a] := List.filterMap_append
    rw [hsplit] at hheads ⊢
    obtain ⟨hbefore, -, hlast⟩ := List.pairwise_append.1 hheads
    obtain ⟨r, hr, hmem⟩ := ih hbefore
    have hhead : ∀ n, a.head = .ok n → n ∈ heads [a] := by
      intro n hn
      simp [heads, hn, Except.toOption]
    obtain ⟨r', hr', hcases, -⟩ := hr.poll hc a (by
      intro n hn
      rcases hmem with rfl | hmem
      · exact le_max_left _ _
      · exact le_max_of_le_right (hlast r hmem n (hhead n hn)))
    rw [pollAll_append]
    refine ⟨r', hr', ?_⟩
    rcases hcases with rfl | ⟨n, hn, rfl⟩
    · exact hmem.imp_right fun h => List.mem_append_left _ h
    · exact .inr (List.mem_append_right _ (hhead _ hn))

theorem lastBlock_pollEvents (c : Chain) (s : Cursor) (a : Answers) :
    (pollEvents c s a).1.lastBlock = s.lastBlock ∨
      ∃ n, a.head = .ok n ∧ s.lastBlock < n ∧ (pollEvents c s a).1.lastBlock = n := by
  cases hhead : a.head with
  | error e => exact .inl (by simp only [pollEvents, hhead])
  | ok n =>
    simp only [pollEvents, hhead]
    split_ifs with hle
    · exact .inl rfl
    · split
      · exact .inl rfl
      · split
        · exact .inl rfl
        · exact .inr ⟨n, rfl, Nat.lt_of_not_le hle, rfl⟩

theorem lastBlock_of_ok {c : Chain} {s t : Cursor} {a : Answers}
    (h : pollEvents c s a = (t, .ok ())) :
    ∃ n, a.head = .ok n ∧ t.lastBlock = max s.lastBlock n := by
  unfold pollEvents at h
  split at h
  · cases h
  · rename_i n hhead
    refine ⟨n, hhead, ?_⟩
    split_ifs at h with hle
    · cases h
      exact (Nat.max_eq_left hle).symm
    · dsimp only at h
      split at h
      · cases h
      · split at h
        · cases h
        · cases h
          exact (Nat.max_eq_right (Nat.le_of_not_le hle)).symm

theorem lastBlock_pollAll (c : Chain) (s : Cursor) (polls : List Answers) :
    s.lastBlock ≤ (pollAll c s polls).lastBlock ∧
      ((pollAll c s polls).lastBlock = s.lastBlock ∨
        (pollAll c s polls).lastBlock ∈ heads polls) := by
  induction polls using List.reverseRecOn with
  | nil => exact ⟨Nat.le_refl _, .inl rfl⟩
  | append_singleton polls a ih =>
    obtain ⟨hstart, hmem⟩ := ih
    have hsplit : heads (polls ++ [a]) = heads polls ++ heads [a] := List.filterMap_append
    rw [pollAll_append, hsplit]
    rcases lastBlock_pollEvents c (pollAll c s polls) a with hsame | ⟨n, hn, hlt, hnew⟩
    · rw [hsame]
      exact ⟨hstart, hmem.imp_right fun h => List.mem_append_left _ h⟩
    · rw [hnew]
      refine ⟨hstart.trans hlt.le, .inr (List.mem_append_right _ ?_)⟩
      simp [heads, hn, Except.toOption]

/-- **Polls come to the same however they are cut and whichever fail.** After a poll that succeeds
the indexer is where a single poll without failures would have brought it, applying any part of the
blocks once more changes nothing, and all blocks up to the head are done. -/
theorem polls_merge (c : Chain) (hc : c.Ordered) (s : Cursor) (polls : List Answers) (a : Answers)
    (hheads : (heads (polls ++ [a])).Pairwise (· ≤ ·)) (t : Cursor)
    (hok : pollEvents c (pollAll c s polls) a = (t, .ok ())) :
    t = (pollEvents c s (.all t.lastBlock)).1 ∧
      (∀ fromBlock toBlock, s.lastBlock < fromBlock → toBlock ≤ t.lastBlock →
        expireAll (c.expiredLogs fromBlock toBlock)
          (completeAll (c.completedLogs fromBlock toBlock) t.jobs) = t.jobs) ∧
      ∃ head, a.head = .ok head ∧ t.lastBlock = max s.lastBlock head := by
  have hsplit : heads (polls ++ [a]) = heads polls ++ heads [a] := List.filterMap_append
  rw [hsplit] at hheads
  obtain ⟨hbefore, -, hlast⟩ := List.pairwise_append.1 hheads
  obtain ⟨r, hr, hmem⟩ := reached_pollAll hc s polls hbefore
  obtain ⟨r', hr', -, hsettled⟩ := hr.poll hc a (by
    intro n hn
    rcases hmem with rfl | hmem
    · exact le_max_left _ _
    · exact le_max_of_le_right (hlast r hmem n (by simp [heads, hn, Except.toOption])))
  rw [hok] at hr' hsettled
  obtain rfl : r' = t.lastBlock := hsettled rfl
  obtain ⟨head, hhead, hmax⟩ := lastBlock_of_ok hok
  obtain ⟨jobs, lastBlock⟩ := t
  have hjobs : jobs = settle c s.jobs (s.lastBlock + 1) lastBlock lastBlock := hr'.jobs
  refine ⟨?_, ?_, head, hhead, ?_⟩
  · unfold pollEvents Answers.all
    dsimp only
    split_ifs with hle
    · obtain rfl : lastBlock = s.lastBlock := Nat.le_antisymm hle hr'.start
      rw [hjobs, ← (reached_refl c s).jobs]
    · rw [hjobs]
      rfl
  · intro fromBlock toBlock hfrom hto
    show settle c jobs fromBlock toBlock toBlock = jobs
    rw [hjobs]
    exact settle_settle hfrom hto
  · obtain ⟨hstart, hwhere⟩ := lastBlock_pollAll c s polls
    rw [hmax]
    rcases hwhere with hsame | hmem
    · rw [hsame]
    · have hle := hlast _ hmem head (by simp [heads, hhead, Except.toOption])
      rw [Nat.max_eq_right hle, Nat.max_eq_right (hstart.trans hle)]

/-! ## The steps of the process -/

open Transition (run)

theorem run_applyCompleted (D : Deployment) (s : Backend) (head : Nat)
    (logs : List (JobId × TxHash)) :
    run (Backend.next D) (List.replicate logs.length .pollStep)
        { s with poll := .applyCompleted head logs } =
      some { s with jobs := completeAll logs s.jobs, poll := .applyCompleted head [] } := by
  induction logs generalizing s with
  | nil => rfl
  | cons log logs ih => exact ih { s with jobs := handleJobCompleted s.jobs log.1 log.2 }

theorem run_applyExpired (D : Deployment) (s : Backend) (head : Nat) (logs : List JobId) :
    run (Backend.next D) (List.replicate logs.length .pollStep)
        { s with poll := .applyExpired head logs } =
      some { s with jobs := expireAll logs s.jobs, poll := .applyExpired head [] } := by
  induction logs generalizing s with
  | nil => rfl
  | cons j logs ih => exact ih { s with jobs := handleJobExpired s.jobs j }

/-- **A poll of the process that nothing interrupts** is `poll_events` with all answers. -/
theorem run_pollEvents (D : Deployment) (s : Backend) (hidle : s.poll = .idle) :
    ∃ n, run (Backend.next D) (.pollBegin :: List.replicate n .pollStep) s =
      some { s with
        jobs := (pollEvents s.chain ⟨s.jobs, s.lastBlock⟩ (.all s.chain.head)).1.jobs
        lastBlock :=
          (pollEvents s.chain ⟨s.jobs, s.lastBlock⟩ (.all s.chain.head)).1.lastBlock } := by
  obtain ⟨chain, contract, deadline, jobs, verified, creating, announcing, resending, lastBlock,
    poll⟩ := s
  obtain rfl : poll = .idle := hidle
  by_cases hle : chain.head ≤ lastBlock
  · refine ⟨0, ?_⟩
    simp [run, Backend.next, Backend.step, pollEvents, Answers.all, hle]
  · let begun : Backend := ⟨chain, contract, deadline, jobs, verified, creating, announcing,
      resending, lastBlock, .queryCompleted chain.head⟩
    let completed := chain.completedLogs (lastBlock + 1) chain.head
    let expired := chain.expiredLogs (lastBlock + 1) chain.head
    let done : Backend := { begun with jobs := completeAll completed jobs }
    refine ⟨1 + (completed.length + (2 + (expired.length + 1))), ?_⟩
    simp only [List.replicate_add, run, Transition.run_append]
    have hbegin : Backend.next D ⟨chain, contract, deadline, jobs, verified, creating, announcing,
        resending, lastBlock, .idle⟩ .pollBegin = some begun := by
      simp [Backend.next, Backend.step, hle, begun]
    have hquery : run (Backend.next D) (List.replicate 1 .pollStep) begun =
        some { begun with poll := .applyCompleted chain.head completed } := rfl
    have hcompleted := run_applyCompleted D begun chain.head completed
    have hturn : run (Backend.next D) (List.replicate 2 .pollStep)
        { done with poll := .applyCompleted chain.head [] } =
          some { done with poll := .applyExpired chain.head expired } := rfl
    have hexpired := run_applyExpired D done chain.head expired
    have hend : run (Backend.next D) (List.replicate 1 .pollStep)
        { done with jobs := expireAll expired done.jobs, poll := .applyExpired chain.head [] } =
          some { done with
            jobs := expireAll expired done.jobs
            lastBlock := chain.head
            poll := .idle } := rfl
    simp only [hbegin, Option.bind_some, hquery, hcompleted]
    show (run (Backend.next D) (List.replicate 2 .pollStep)
      { done with poll := .applyCompleted chain.head [] }).bind _ = _
    simp only [hturn, Option.bind_some, hexpired, hend]
    simp [pollEvents, Answers.all, hle, processJobCompletedEvents, processJobExpiredEvents,
      Except.map, done, begun, completed, expired]

/-! ## Two polls, the first of them torn -/

/-- Job 1 expires in block 1 and completes in block 2, job 2 completes in block 3 and expires in
block 4. -/
def crossed : Chain where
  world := .deployed 0
  head := 4
  logs := [⟨1, ⟨.fill 32 11⟩, .jobExpired ⟨.fill 32 1⟩⟩,
    ⟨2, ⟨.fill 32 12⟩, .jobCompleted ⟨.fill 32 1⟩ Address.zero []⟩,
    ⟨3, ⟨.fill 32 13⟩, .jobCompleted ⟨.fill 32 2⟩ Address.zero []⟩,
    ⟨4, ⟨.fill 32 14⟩, .jobExpired ⟨.fill 32 2⟩⟩]
  receipts := []

/-- The first poll stops at block 1, the second loses its query for the expirations. -/
def tornPolls : List Answers :=
  [.all 1, ⟨.ok 2, .ok (), .error (.provider "timeout")⟩]

theorem polls_merge_torn :
    pollAll crossed ⟨∅, 0⟩ (tornPolls ++ [.all 4]) = (pollEvents crossed ⟨∅, 0⟩ (.all 4)).1 := by
  have hordered : crossed.Ordered := by
    unfold Chain.Ordered crossed
    decide
  have hheads : (heads (tornPolls ++ [.all 4])).Pairwise (· ≤ ·) := by decide
  exact (polls_merge crossed hordered ⟨∅, 0⟩ tornPolls (.all 4) hheads _ rfl).1

end Indexer

end ProofMarket
