import ProofMarket.Coordinator.Polls

/-!
# What the polls read

An indexer polls with `last_block + 1` as the first block, and moves `last_block` when a poll has
gone through. So which blocks it has read is a matter of where it started, which heads it was told,
and which of its queries failed.

**The fate of one job** (`fate_pollAll`). Whatever the log, the heads and the failures, an entry is
after any polls what it was before, unless the polls have read an event of the job: a completion
makes it completed, or inserts it, and an expiration alone expires it.
-/

namespace ProofMarket

namespace Indexer

/-! ## The blocks that are read -/

/-- One of the polls was told a head that is not before the block, which comes after `start`, and
had its queries answered. -/
def BlockRead (answered : Answers → Prop) (start : Nat) (polls : List Answers)
    (block : Nat) : Prop :=
  start < block ∧ ∃ a ∈ polls, answered a ∧ ∃ head, a.head = .ok head ∧ block ≤ head

/-- The block's completions have been read. -/
def CompletionsRead : Nat → List Answers → Nat → Prop :=
  BlockRead fun a => a.completedQuery = .ok ()

/-- The block's expirations have been read, which takes both queries. -/
def ExpirationsRead : Nat → List Answers → Nat → Prop :=
  BlockRead fun a => a.completedQuery = .ok () ∧ a.expiredQuery = .ok ()

/-- The polls read a completion of the job by transaction `h`. -/
def ReadsCompletion (c : Chain) (start : Nat) (polls : List Answers) (j : JobId)
    (h : TxHash) : Prop :=
  ∃ e ∈ c.logs, e.event.completes j = true ∧ e.txHash = h ∧ CompletionsRead start polls e.block

/-- The polls read an expiration of the job. -/
def ReadsExpiration (c : Chain) (start : Nat) (polls : List Answers) (j : JobId) : Prop :=
  ∃ e ∈ c.logs, e.event.expires j = true ∧ ExpirationsRead start polls e.block

section Reads

variable {answered : Answers → Prop} {start last head block : Nat} {polls : List Answers}
  {a : Answers}

theorem ExpirationsRead.completionsRead (h : ExpirationsRead start polls block) :
    CompletionsRead start polls block := by
  obtain ⟨hlt, a, ha, hboth, hhead⟩ := h
  exact ⟨hlt, a, ha, hboth.1, hhead⟩

theorem BlockRead.append (h : BlockRead answered start polls block) :
    BlockRead answered start (polls ++ [a]) block := by
  obtain ⟨hlt, b, hb, hread⟩ := h
  exact ⟨hlt, b, List.mem_append_left _ hb, hread⟩

/-- One more poll reads the blocks up to its head, if it is answered. -/
theorem blockRead_append :
    BlockRead answered start (polls ++ [a]) block ↔
      BlockRead answered start polls block ∨
        start < block ∧ answered a ∧ ∃ head, a.head = .ok head ∧ block ≤ head := by
  unfold BlockRead
  simp only [List.mem_append, List.mem_singleton, or_and_right, exists_or, and_or_left,
    exists_eq_left]

theorem blockRead_idle
    (hlast : ∀ n, start < n → n ≤ last → BlockRead answered start polls n)
    (hidle : ∀ head, a.head = .ok head → answered a → head ≤ last) :
    BlockRead answered start (polls ++ [a]) block ↔ BlockRead answered start polls block := by
  rw [blockRead_append]
  apply or_iff_left_of_imp
  intro h
  obtain ⟨hlt, hanswered, head, hhead, hle⟩ := h
  exact hlast block hlt (hle.trans (hidle head hhead hanswered))

theorem blockRead_answered (hstart : start ≤ last)
    (hlast : ∀ n, start < n → n ≤ last → BlockRead answered start polls n)
    (hhead : a.head = .ok head) (hanswered : answered a) :
    BlockRead answered start (polls ++ [a]) block ↔
      BlockRead answered start polls block ∨ last + 1 ≤ block ∧ block ≤ head := by
  rw [blockRead_append]
  constructor
  · intro h
    rcases h with hread | ⟨hlt, -, head', hhead', hle⟩
    · exact .inl hread
    · obtain rfl : head = head' := Except.ok.inj (hhead.symm.trans hhead')
      by_cases hold : block ≤ last
      · exact .inl (hlast block hlt hold)
      · exact .inr ⟨Nat.lt_of_not_le hold, hle⟩
  · intro h
    rcases h with hread | ⟨hlo, hhi⟩
    · exact .inl hread
    · exact .inr ⟨by omega, hanswered, head, hhead, hhi⟩

end Reads

/-! ## The fate of one job -/

/-- What the polls have made of an entry, from the completions `C` of its job that they read and
whether they read an expiration of it. -/
inductive Fate (j : JobId) (C : TxHash → Prop) (E : Prop) (before : Option Job) :
    Option Job → Prop
  | completed (h : TxHash) (hread : C h) : Fate j C E before (completeEntry j (some h) before)
  | expired (hnone : ∀ h, ¬ C h) (hread : E) : Fate j C E before (before.map expireJob)
  | untouched (hnone : ∀ h, ¬ C h) (hnot : ¬ E) : Fate j C E before before

section Fate

variable {j : JobId} {C C' : TxHash → Prop} {E E' : Prop} {before after : Option Job}

theorem Fate.congr (h : Fate j C E before after) (hC : ∀ x, C' x ↔ C x) (hE : E' ↔ E) :
    Fate j C' E' before after := by
  cases h with
  | completed x hread => exact .completed x ((hC x).2 hread)
  | expired hnone hread => exact .expired (fun x hx => hnone x ((hC x).1 hx)) (hE.2 hread)
  | untouched hnone hnot =>
    exact .untouched (fun x hx => hnone x ((hC x).1 hx)) fun he => hnot (hE.1 he)

theorem Fate.complete (h : Fate j C E before after) (logs : List (JobId × TxHash))
    (hC : ∀ x, C' x ↔ C x ∨ (j, x) ∈ logs) :
    Fate j C' E before (completeEntry j (firstCompletion j logs) after) := by
  cases hfirst : firstCompletion j logs with
  | none =>
    have hlogs := firstCompletion_eq_none.1 hfirst
    exact h.congr (fun x => by simp [hC, hlogs]) Iff.rfl
  | some x =>
    have hx : C' x := (hC x).2 (.inr (mem_of_firstCompletion hfirst))
    cases h with
    | completed y hread =>
      rw [completeEntry_completeEntry]
      exact .completed y ((hC y).2 (.inl hread))
    | expired =>
      rw [completeEntry_map_expireJob]
      exact .completed x hx
    | untouched => exact .completed x hx

theorem Fate.expire (h : Fate j C E before after) (logs : List JobId)
    (hE : E' ↔ E ∨ j ∈ logs) :
    Fate j C E' before (if j ∈ logs then after.map expireJob else after) := by
  split_ifs with hj
  · have hidem : expireJob ∘ expireJob = expireJob := funext expireJob_expireJob
    cases h with
    | completed x hread =>
      rw [map_expireJob_completeEntry]
      exact .completed x hread
    | expired hnone hread =>
      rw [Option.map_map, hidem]
      exact .expired hnone (hE.2 (.inr hj))
    | untouched hnone => exact .expired hnone (hE.2 (.inr hj))
  · exact h.congr (fun _ => Iff.rfl) (by simp [hE, hj])

end Fate

/-! ## Any polls -/

variable {c : Chain} {s t : Cursor} {polls : List Answers}

/-- What polls from `s` have led to, whatever their heads. -/
structure Polled (c : Chain) (s : Cursor) (polls : List Answers) (t : Cursor) : Prop where
  start : s.lastBlock ≤ t.lastBlock
  last : ∀ n, ExpirationsRead s.lastBlock polls n ↔ s.lastBlock < n ∧ n ≤ t.lastBlock
  fate : ∀ j, Fate j (ReadsCompletion c s.lastBlock polls j)
    (ReadsExpiration c s.lastBlock polls j) (s.jobs.lookup j) (t.jobs.lookup j)

theorem polled_nil (c : Chain) (s : Cursor) : Polled c s [] s where
  start := Nat.le_refl _
  last n := by
    simp only [ExpirationsRead, BlockRead, List.not_mem_nil, false_and, exists_false, and_false,
      false_iff]
    omega
  fate j := by
    apply Fate.untouched
    · intro h hread
      obtain ⟨e, -, -, -, -, a, ha, -⟩ := hread
      cases ha
    · intro hread
      obtain ⟨e, -, -, -, a, ha, -⟩ := hread
      cases ha

theorem Polled.expirationsRead (h : Polled c s polls t) (n : Nat) (hlt : s.lastBlock < n)
    (hle : n ≤ t.lastBlock) : ExpirationsRead s.lastBlock polls n :=
  (h.last n).2 ⟨hlt, hle⟩

theorem Polled.completionsRead (h : Polled c s polls t) (n : Nat) (hlt : s.lastBlock < n)
    (hle : n ≤ t.lastBlock) : CompletionsRead s.lastBlock polls n :=
  (h.expirationsRead n hlt hle).completionsRead

theorem Polled.readsCompletion_iff (h : Polled c s polls t) {a : Answers} {head : Nat}
    (hhead : a.head = .ok head) (hcompleted : a.completedQuery = .ok ()) (j : JobId)
    (x : TxHash) :
    ReadsCompletion c s.lastBlock (polls ++ [a]) j x ↔
      ReadsCompletion c s.lastBlock polls j x ∨
        (j, x) ∈ c.completedLogs (t.lastBlock + 1) head := by
  have hread : ∀ n, CompletionsRead s.lastBlock (polls ++ [a]) n ↔
      CompletionsRead s.lastBlock polls n ∨ t.lastBlock + 1 ≤ n ∧ n ≤ head := fun n =>
    blockRead_answered h.start h.completionsRead hhead hcompleted
  simp only [ReadsCompletion, Chain.mem_completedLogs, hread, and_or_left, exists_or]

theorem Polled.idle (h : Polled c s polls t) {a : Answers}
    (hidle : ∀ head, a.head = .ok head → a.completedQuery = .ok () → head ≤ t.lastBlock) :
    Polled c s (polls ++ [a]) t := by
  have hcompleted : ∀ n, CompletionsRead s.lastBlock (polls ++ [a]) n ↔
      CompletionsRead s.lastBlock polls n := fun n => blockRead_idle h.completionsRead hidle
  have hexpired : ∀ n, ExpirationsRead s.lastBlock (polls ++ [a]) n ↔
      ExpirationsRead s.lastBlock polls n := fun n =>
    blockRead_idle h.expirationsRead fun head hhead hboth => hidle head hhead hboth.1
  refine ⟨h.start, fun n => (hexpired n).trans (h.last n), fun j => ?_⟩
  apply (h.fate j).congr
  · intro x
    simp only [ReadsCompletion, hcompleted]
  · simp only [ReadsExpiration, hexpired]

theorem Polled.poll (h : Polled c s polls t) (a : Answers) :
    Polled c s (polls ++ [a]) (pollEvents c t a).1 := by
  have hstart := h.start
  unfold pollEvents
  cases hhead : a.head with
  | error e => exact h.idle fun head hok _ => by rw [hhead] at hok; cases hok
  | ok head =>
    dsimp only
    split_ifs with hle
    · apply h.idle
      intro head' hok _
      rw [hhead] at hok
      cases hok
      exact hle
    · cases hcompleted : a.completedQuery with
      | error e => exact h.idle fun _ _ hok => by rw [hcompleted] at hok; cases hok
      | ok u =>
        have hcomplete := fun j => (h.fate j).complete (c.completedLogs (t.lastBlock + 1) head)
          (h.readsCompletion_iff hhead hcompleted j)
        cases hexpired : a.expiredQuery with
        | error e =>
          -- The completions have been applied, and the next poll asks for them again.
          have hE : ∀ n, ExpirationsRead s.lastBlock (polls ++ [a]) n ↔
              ExpirationsRead s.lastBlock polls n := fun n =>
            blockRead_idle h.expirationsRead fun _ _ hboth => by
              rw [hexpired] at hboth
              cases hboth.2
          refine ⟨hstart, fun n => (hE n).trans (h.last n), fun j => ?_⟩
          simp only [processJobCompletedEvents, processJobExpiredEvents, Except.map,
            lookup_completeAll]
          exact (hcomplete j).congr (fun _ => Iff.rfl) (by simp only [ReadsExpiration, hE])
        | ok u' =>
          have hread : ∀ n, ExpirationsRead s.lastBlock (polls ++ [a]) n ↔
              ExpirationsRead s.lastBlock polls n ∨ t.lastBlock + 1 ≤ n ∧ n ≤ head := fun n =>
            blockRead_answered hstart h.expirationsRead hhead ⟨hcompleted, hexpired⟩
          simp only [processJobCompletedEvents, processJobExpiredEvents, Except.map]
          refine ⟨by dsimp only; omega, fun n => ?_, fun j => ?_⟩
          · rw [hread n, h.last n]
            dsimp only
            omega
          · simp only [lookup_expireAll, lookup_completeAll]
            apply (hcomplete j).expire
            simp only [ReadsExpiration, Chain.mem_expiredLogs, hread, and_or_left, exists_or]

theorem polled_pollAll (c : Chain) (s : Cursor) (polls : List Answers) :
    Polled c s polls (pollAll c s polls) := by
  induction polls using List.reverseRecOn with
  | nil => exact polled_nil c s
  | append_singleton polls a ih =>
    rw [pollAll_append]
    exact ih.poll a

/-- **The fate of one job**, whatever is in the log and whatever the provider answers. -/
theorem fate_pollAll (c : Chain) (s : Cursor) (polls : List Answers) (j : JobId) :
    Fate j (ReadsCompletion c s.lastBlock polls j) (ReadsExpiration c s.lastBlock polls j)
      (s.jobs.lookup j) ((pollAll c s polls).jobs.lookup j) :=
  (polled_pollAll c s polls).fate j

end Indexer

end ProofMarket
