import ProofMarket.Registry.Lifecycle

/-!
# The chain as its clients see it

Blocks of transactions against the registry, the event log with block numbers and transaction
hashes, and the receipts. Clients only see whole blocks. The chain does not reorganise.

A transaction is any action of foreign code on the registry; one that fails is mined too, with a
receipt that says so.
-/

namespace ProofMarket

open Registry (Deployment World Act Event Msg)

/-- A log entry as a filter query returns it. -/
structure LogEntry where
  block : Nat
  txHash : TxHash
  event : Event

/-- What `get_receipt` returns, with the transaction it is about. -/
structure Receipt where
  block : Nat
  txHash : TxHash
  act : Act
  ok : Bool

/-- The call in which a transaction was executed, the registry before it, and what came of it. -/
structure Execution where
  msg : Msg
  world : World
  ok : Bool

structure Chain where
  world : World
  head : Nat
  logs : List LogEntry
  receipts : List Receipt

namespace Chain

/-- A chain on which the registry has just been deployed. -/
def genesis (prefunded : Nat) : Chain := ⟨World.deployed prefunded, 0, [], []⟩

/-- Execute one transaction in a block. -/
def execute (D : Deployment) (block : Nat) (c : Chain) (tx : TxHash × Act) : Chain :=
  let r := (Registry.machine D).exec tx.2 c.world
  { c with
    world := r.1
    logs := c.logs ++ (r.1.log.drop c.world.log.length).map fun e => ⟨block, tx.1, e⟩
    receipts := c.receipts ++ [⟨block, tx.1, tx.2, r.2⟩] }

/-- Mine a block with the transactions `txs`. -/
def mine (D : Deployment) (c : Chain) (txs : List (TxHash × Act)) : Chain :=
  { txs.foldl (execute D (c.head + 1)) c with head := c.head + 1 }

/-- The chain `blocks` after the registry's deployment. -/
def after (D : Deployment) (prefunded : Nat) (blocks : List (List (TxHash × Act))) : Chain :=
  blocks.foldl (mine D) (genesis prefunded)

/-- The entries of a block range, in chain order: what a filter query returns. -/
def range (c : Chain) (fromBlock toBlock : Nat) : List LogEntry :=
  c.logs.filter fun e => fromBlock ≤ e.block && e.block ≤ toBlock

/-- `JobCompleted` events of a block range, with the hashes of their transactions. -/
def completedLogs (c : Chain) (fromBlock toBlock : Nat) : List (JobId × TxHash) :=
  (c.range fromBlock toBlock).filterMap fun e => match e.event with
    | .jobCompleted j _ _ => some (j, e.txHash)
    | _ => none

/-- `JobExpired` events of a block range. -/
def expiredLogs (c : Chain) (fromBlock toBlock : Nat) : List JobId :=
  (c.range fromBlock toBlock).filterMap fun e => match e.event with
    | .jobExpired j => some j
    | _ => none

/-- Transaction `h` completed the job: its log holds `JobCompleted(j)`. -/
def CompletedBy (c : Chain) (j : JobId) (h : TxHash) : Prop :=
  ∃ e ∈ c.logs, e.event.completes j = true ∧ e.txHash = h

/-- The job's end on chain was `expireJob`. -/
def Expired (c : Chain) (j : JobId) : Prop := ∃ e ∈ c.logs, e.event.expires j = true

instance (c : Chain) (j : JobId) (h : TxHash) : Decidable (c.CompletedBy j h) :=
  inferInstanceAs (Decidable (∃ e ∈ c.logs, e.event.completes j = true ∧ e.txHash = h))

instance (c : Chain) (j : JobId) : Decidable (c.Expired j) :=
  inferInstanceAs (Decidable (∃ e ∈ c.logs, e.event.expires j = true))

/-- The transaction is a call of `submitProof` for the job. -/
def submitsProof (act : Act) (j : JobId) : Bool :=
  match act with
  | .call (_, .submitProof k _ _) _ _ => k = j
  | _ => false

/-- Transaction `h` was a call of `submitProof` for the job, went through, and completed it. -/
def Proves (c : Chain) (j : JobId) (h : TxHash) : Prop :=
  (∃ r ∈ c.receipts, r.txHash = h ∧ r.ok = true ∧ submitsProof r.act j = true) ∧ c.CompletedBy j h

/-- A block whose entries each execute one transaction or none executes a list of transactions. -/
theorem exists_txs {D : Deployment} {n : Nat} {ε β : Type} {f : Chain × β → ε → Chain × β}
    (hf : ∀ p e, (f p e).1 = p.1 ∨ ∃ tx, (f p e).1 = p.1.execute D n tx) (entries : List ε)
    (p : Chain × β) :
    ∃ txs : List (TxHash × Act), (entries.foldl f p).1 = txs.foldl (execute D n) p.1 := by
  induction entries generalizing p with
  | nil => exact ⟨[], rfl⟩
  | cons e entries ih =>
    obtain ⟨txs, htxs⟩ := ih (f p e)
    rw [List.foldl_cons, htxs]
    rcases hf p e with he | ⟨tx, he⟩
    · exact ⟨txs, by rw [he]⟩
    · exact ⟨tx :: txs, by rw [he, List.foldl_cons]⟩

/-! ## The log agrees with the registry -/

structure Ok (D : Deployment) (c : Chain) : Prop where
  inv : Registry.Inv D [] c.world
  log : c.logs.map LogEntry.event = c.world.log
  blocks : ∀ e ∈ c.logs, e.block ≤ c.head

theorem ok_genesis (D : Deployment) (prefunded : Nat) : (genesis prefunded).Ok D :=
  ⟨Registry.inv_deployed D prefunded, rfl, fun _ h => by cases h⟩

section Ok

variable {D : Deployment} {c : Chain}

/-- What a chain keeps when it moves on. -/
structure Extends (c c' : Chain) : Prop where
  world : c.world.Le c'.world
  logs : c.logs <+: c'.logs
  receipts : c.receipts <+: c'.receipts
  head : c.head ≤ c'.head
  fresh : ∀ e ∈ c'.logs, e ∈ c.logs ∨ c.head < e.block

theorem Extends.refl (c : Chain) : c.Extends c :=
  ⟨.refl _, List.prefix_rfl, List.prefix_rfl, Nat.le_refl _, fun _ he => .inl he⟩

/-- What executing transactions of block `b` keeps; the head moves only with the whole block. -/
private structure Mining (D : Deployment) (b : Nat) (c c' : Chain) : Prop where
  inv : Registry.Inv D [] c'.world
  log : c'.logs.map LogEntry.event = c'.world.log
  world : c.world.Le c'.world
  logs : c.logs <+: c'.logs
  receipts : c.receipts <+: c'.receipts
  fresh : ∀ e ∈ c'.logs, e ∈ c.logs ∨ e.block = b

private theorem Mining.snoc {b : Nat} {c' : Chain} (h : Mining D b c c') (tx : TxHash × Act) :
    Mining D b c (c'.execute D b tx) := by
  have hle : c'.world.Le (c'.execute D b tx).world := (Registry.grows D).exec tx.2 c'.world
  refine ⟨?_, ?_, h.world.trans hle, h.logs.trans (List.prefix_append _ _),
    h.receipts.trans (List.prefix_append _ _), fun e he => ?_⟩
  · exact CallTree.Machine.Sound.exec (Registry.Inv.sound D) h.inv tx.2
  · obtain ⟨new, hnew⟩ := hle.log
    simp only [Chain.execute] at hnew ⊢
    rw [← hnew, List.drop_left, List.map_append, List.map_map, h.log]
    simp [Function.comp_def]
  · rcases List.mem_append.1 he with he | he
    · exact h.fresh e he
    · obtain ⟨ev, -, rfl⟩ := List.mem_map.1 he
      exact .inr rfl

private theorem Mining.foldl {b : Nat} (txs : List (TxHash × Act)) :
    ∀ {c' : Chain}, Mining D b c c' → Mining D b c (txs.foldl (Chain.execute D b) c') := by
  induction txs with
  | nil => exact fun h => h
  | cons tx txs ih => exact fun h => ih (h.snoc tx)

private theorem Ok.mining (h : c.Ok D) (txs : List (TxHash × Act)) :
    Mining D (c.head + 1) c (txs.foldl (execute D (c.head + 1)) c) :=
  Mining.foldl txs ⟨h.inv, h.log, .refl _, List.prefix_rfl, List.prefix_rfl, fun _ he => .inl he⟩

theorem Ok.extends_mine (h : c.Ok D) (txs : List (TxHash × Act)) : c.Extends (c.mine D txs) := by
  have hm := h.mining txs
  refine ⟨hm.world, hm.logs, hm.receipts, Nat.le_succ _, fun e he => ?_⟩
  rcases hm.fresh e he with he | he
  · exact .inl he
  · exact .inr (he ▸ Nat.lt_succ_self _)

theorem Ok.mine (h : c.Ok D) (txs : List (TxHash × Act)) : (c.mine D txs).Ok D := by
  have hm := h.mining txs
  refine ⟨hm.inv, hm.log, fun e he => ?_⟩
  rcases hm.fresh e he with he | he
  · exact Nat.le_succ_of_le (h.blocks e he)
  · exact Nat.le_of_eq he

/-- **What the first chain satisfies and every block keeps, every chain satisfies.** -/
theorem after_invariant {I : Chain → Prop} {prefunded : Nat} (hgenesis : I (genesis prefunded))
    (hmine : ∀ c txs, I c → I (c.mine D txs)) (blocks : List (List (TxHash × Act))) :
    I (after D prefunded blocks) := by
  have hfold : ∀ c : Chain, I c → I (blocks.foldl (Chain.mine D) c) := by
    induction blocks with
    | nil => exact fun c hc => hc
    | cons txs blocks ih => exact fun c hc => ih _ (hmine c txs hc)
  exact hfold _ hgenesis

theorem ok_after (D : Deployment) (prefunded : Nat) (blocks : List (List (TxHash × Act))) :
    (after D prefunded blocks).Ok D :=
  after_invariant (ok_genesis D prefunded) (fun _ txs hc => hc.mine txs) blocks

theorem positive_after (D : Deployment) (prefunded : Nat)
    (blocks : List (List (TxHash × Act))) : ∀ e ∈ (after D prefunded blocks).logs, 0 < e.block := by
  have hgenesis : (genesis prefunded).Ok D ∧ ∀ e ∈ (genesis prefunded).logs, 0 < e.block :=
    ⟨ok_genesis D prefunded, fun e he => absurd he List.not_mem_nil⟩
  refine (after_invariant (I := fun c => c.Ok D ∧ ∀ e ∈ c.logs, 0 < e.block) hgenesis ?_ blocks).2
  rintro c txs ⟨hok, hpos⟩
  refine ⟨hok.mine txs, ?_⟩
  intro e he
  rcases (hok.extends_mine txs).fresh e he with hold | hnew
  · exact hpos e hold
  · exact Nat.zero_lt_of_lt hnew

theorem Ok.closing_unique (h : c.Ok D) {e e' : LogEntry} (he : e ∈ c.logs) (he' : e' ∈ c.logs)
    (hc : e.event.closes = true) (hc' : e'.event.closes = true)
    (hid : e.event.jobId = e'.event.jobId) : e = e' := by
  let own : LogEntry → Bool := fun a => a.event.jobId = e'.event.jobId && a.event.closes
  have hcount : (c.logs.filter own).length ≤ 1 := by
    have hclosings := h.inv.closings e'.event.jobId
    rw [Registry.completions_add_expirations, ← h.log, List.countP_filter, List.countP_map,
      List.countP_eq_length_filter] at hclosings
    have hle : (if c.world.completed e'.event.jobId = true then 1 else 0) ≤ 1 := by
      split_ifs <;> decide
    exact Nat.le_trans (Nat.le_of_eq hclosings) hle
  have hmem : e ∈ c.logs.filter own := List.mem_filter.2 ⟨he, by simp [own, hid, hc]⟩
  have hmem' : e' ∈ c.logs.filter own := List.mem_filter.2 ⟨he', by simp [own, hc']⟩
  cases hl : c.logs.filter own with
  | nil => simp [hl] at hmem
  | cons a rest =>
    rw [hl, List.length_cons] at hcount
    have hrest : rest = [] := List.eq_nil_of_length_eq_zero (by omega)
    rw [hl, hrest, List.mem_singleton] at hmem hmem'
    rw [hmem, hmem']

theorem CompletedBy.unique (h : c.Ok D) {j : JobId} {x y : TxHash} (hx : c.CompletedBy j x)
    (hy : c.CompletedBy j y) : x = y := by
  obtain ⟨e, he, hej, rfl⟩ := hx
  obtain ⟨e', he', hej', rfl⟩ := hy
  rw [h.closing_unique he he' (Event.closes_of_completes hej) (Event.closes_of_completes hej')
    ((Event.jobId_of_completes hej).trans (Event.jobId_of_completes hej').symm)]

theorem CompletedBy.not_expired (h : c.Ok D) {j : JobId} {x : TxHash} (hx : c.CompletedBy j x) :
    ¬ c.Expired j := by
  rintro ⟨e', he', hej'⟩
  obtain ⟨e, he, hej, rfl⟩ := hx
  have heq := h.closing_unique he he' (Event.closes_of_completes hej)
    (Event.closes_of_expires hej')
    ((Event.jobId_of_completes hej).trans (Event.jobId_of_expires hej').symm)
  rw [heq] at hej
  exact Event.not_completes_of_expires hej' hej

/-- The registry's flag says that the log closes the job, one way or the other. -/
theorem Ok.completed_iff (h : c.Ok D) (j : JobId) :
    c.world.completed j = true ↔ (∃ x, c.CompletedBy j x) ∨ c.Expired j := by
  have hclosings := h.inv.closings j
  rw [World.completions, World.expirations, ← h.log, List.countP_map, List.countP_map]
    at hclosings
  constructor
  · intro hj
    rw [if_pos hj] at hclosings
    by_cases hpos : 0 < c.logs.countP (Event.completes j ∘ LogEntry.event)
    · obtain ⟨e, he, hej⟩ := List.countP_pos_iff.1 hpos
      exact .inl ⟨e.txHash, e, he, hej, rfl⟩
    · obtain ⟨e, he, hej⟩ := List.countP_pos_iff.1
        (show 0 < c.logs.countP (Event.expires j ∘ LogEntry.event) by omega)
      exact .inr ⟨e, he, hej⟩
  · intro hj
    by_contra hc
    rw [if_neg hc] at hclosings
    rcases hj with ⟨x, e, he, hej, -⟩ | ⟨e, he, hej⟩
    · have : 0 < c.logs.countP (Event.completes j ∘ LogEntry.event) :=
        List.countP_pos_iff.2 ⟨e, he, hej⟩
      omega
    · have : 0 < c.logs.countP (Event.expires j ∘ LogEntry.event) :=
        List.countP_pos_iff.2 ⟨e, he, hej⟩
      omega

section Extends

variable {c' : Chain}

theorem CompletedBy.mono (h : c.Extends c') {j : JobId} {x : TxHash} (hx : c.CompletedBy j x) :
    c'.CompletedBy j x := by
  obtain ⟨e, he, hej, hh⟩ := hx
  exact ⟨e, h.logs.subset he, hej, hh⟩

theorem Proves.mono (hlogs : c.logs <+: c'.logs) (hreceipts : c.receipts <+: c'.receipts)
    {j : JobId} {x : TxHash} (hx : c.Proves j x) : c'.Proves j x := by
  obtain ⟨⟨r, hr, hproof⟩, e, he, hej, hh⟩ := hx
  exact ⟨⟨r, hreceipts.subset hr, hproof⟩, e, hlogs.subset he, hej, hh⟩

theorem Expired.mono (h : c.Extends c') {j : JobId} (hj : c.Expired j) : c'.Expired j := by
  obtain ⟨e, he, hej⟩ := hj
  exact ⟨e, h.logs.subset he, hej⟩

end Extends

/-! ## Queries -/

theorem mem_completedLogs {j : JobId} {x : TxHash} {a b : Nat} :
    (j, x) ∈ c.completedLogs a b ↔
      ∃ e ∈ c.logs, e.event.completes j = true ∧ e.txHash = x ∧ a ≤ e.block ∧ e.block ≤ b := by
  unfold completedLogs range
  rw [List.mem_filterMap]
  constructor
  · rintro ⟨e, he, hj⟩
    obtain ⟨hmem, hblock⟩ := List.mem_filter.1 he
    cases hev : e.event with
    | jobCompleted k worker result =>
      simp only [hev, Option.some.injEq, Prod.mk.injEq] at hj
      exact ⟨e, hmem, by simp [hev, Event.completes, hj.1], hj.2, by simpa using hblock⟩
    | jobSubmitted | jobExpired => simp [hev] at hj
  · rintro ⟨e, he, hej, rfl, hblock⟩
    refine ⟨e, List.mem_filter.2 ⟨he, by simpa using hblock⟩, ?_⟩
    cases hev : e.event with
    | jobCompleted k worker result => simpa [hev, Event.completes] using hej
    | jobSubmitted | jobExpired => simp [hev, Event.completes] at hej

theorem mem_expiredLogs {j : JobId} {a b : Nat} :
    j ∈ c.expiredLogs a b ↔
      ∃ e ∈ c.logs, e.event.expires j = true ∧ a ≤ e.block ∧ e.block ≤ b := by
  unfold expiredLogs range
  rw [List.mem_filterMap]
  constructor
  · rintro ⟨e, he, hj⟩
    obtain ⟨hmem, hblock⟩ := List.mem_filter.1 he
    cases hev : e.event with
    | jobExpired k =>
      simp only [hev, Option.some.injEq] at hj
      exact ⟨e, hmem, by simp [hev, Event.expires, hj], by simpa using hblock⟩
    | jobSubmitted | jobCompleted => simp [hev] at hj
  · rintro ⟨e, he, hej, hblock⟩
    refine ⟨e, List.mem_filter.2 ⟨he, by simpa using hblock⟩, ?_⟩
    cases hev : e.event with
    | jobExpired k => simpa [hev, Event.expires] using hej
    | jobSubmitted | jobCompleted => simp [hev, Event.expires] at hej

end Ok

/-! ## Receipts -/

/-- A successful `submitProof` leaves its job completed, whatever its recipient did. -/
theorem completed_of_submitsProof {D : Deployment} {act : Act} {w : World} {j : JobId}
    (hact : submitsProof act j = true) (h : ((Registry.machine D).exec act w).2 = true) :
    ((Registry.machine D).exec act w).1.completed j = true := by
  unfold submitsProof at hact
  split at hact
  · rename_i msg k journal sealBytes body ok
    obtain rfl : k = j := of_decide_eq_true hact
    cases hop : (Registry.machine D).op (msg, .submitProof k journal sealBytes) w with
    | revert e =>
      rw [CallTree.Machine.exec_call_revert hop] at h
      cases h
    | done w' =>
      obtain ⟨s, hs, -⟩ := Registry.op_done hop
      cases hs
    | yield outer inner k' =>
      obtain ⟨p, hpay, -, hinner, hsent, hfailed⟩ := Registry.op_yield hop
      have hcompleted : inner.completed k = true := by
        rw [hinner, ← show p.jobId = k from hpay.jobId]
        simp [World.complete, World.send]
      rw [CallTree.Machine.exec_call_yield hop] at h ⊢
      cases ok with
      | false =>
        simp only [hfailed] at h
        cases h
      | true =>
        have hbody := (Registry.grows D).execAll body inner
        simp only [if_true] at h ⊢
        cases hk : k' true ((Registry.machine D).execAll body inner) with
        | error e =>
          rw [hk] at h
          cases h
        | ok t =>
          show t.completed k = true
          rw [hsent _ _ hk]
          exact hbody.completed k hcompleted
  · cases hact

/-- The receipts of successful proofs are about completed jobs. -/
def ReceiptsOk (c : Chain) : Prop :=
  ∀ r ∈ c.receipts, r.ok = true → ∀ j, submitsProof r.act j = true → c.world.completed j = true

theorem receiptsOk_genesis (prefunded : Nat) : (genesis prefunded).ReceiptsOk :=
  fun _ hr => by cases hr

theorem ReceiptsOk.execute {D : Deployment} {c : Chain} (h : c.ReceiptsOk) (block : Nat)
    (tx : TxHash × Act) : (c.execute D block tx).ReceiptsOk := by
  intro r hr hok j hj
  rcases List.mem_append.1 hr with hr | hr
  · exact ((Registry.grows D).exec tx.2 c.world).completed j (h r hr hok j hj)
  · obtain rfl := List.mem_singleton.1 hr
    exact completed_of_submitsProof hj hok

theorem ReceiptsOk.mine {D : Deployment} {c : Chain} (h : c.ReceiptsOk)
    (txs : List (TxHash × Act)) : (c.mine D txs).ReceiptsOk := by
  have hfold : ∀ (block : Nat) (c : Chain), c.ReceiptsOk →
      (txs.foldl (Chain.execute D block) c).ReceiptsOk := by
    intro block
    induction txs with
    | nil => exact fun c hc => hc
    | cons tx txs ih => exact fun c hc => ih _ (hc.execute block tx)
  exact hfold (c.head + 1) c h

theorem receiptsOk_after (D : Deployment) (prefunded : Nat) (blocks : List (List (TxHash × Act))) :
    (after D prefunded blocks).ReceiptsOk :=
  after_invariant (receiptsOk_genesis prefunded) (fun _ txs hc => hc.mine txs) blocks

end Chain

end ProofMarket
