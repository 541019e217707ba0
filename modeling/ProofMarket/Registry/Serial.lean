import ProofMarket.Registry.Escrow
import ProofMarket.Lib.Serial

/-!
# The registry without re-entrancy

What the registry is for, with no recipients that call back: a board of bounties. Somebody offers a
bounty under terms that are fixed; it is settled once, by a proof or after its deadline, and then
its reward is paid. Each of this is one step.

**Theorem (`serializable`).** Whatever the recipients of rewards do, a run of the contract ends as
the board does after the calls that were not undone, one after the other, in the order in which they
finished: with the same bounties, the same balance, the same log, and the same amounts paid.

The contract marks a job completed and moves its reward before it hands over control. So what the
recipient does is about other jobs and with other ETH, and could have been done before.
-/

namespace ProofMarket.Registry

open CallTree (Atom)

/-- What a bounty is offered under. -/
structure Terms where
  owner : Address
  payload : Bytes
  reward : Nat
  deadline : Nat

inductive Bounty where
  | unknown
  | offered (terms : Terms)
  | settled (terms : Terms)

/-- The bounties, the ETH held for them, what each account has been paid, and the events. -/
structure Board where
  bounties : JobId → Bounty
  held : Nat
  paid : Address → Nat
  log : List Event

namespace Board

/-- Nothing has been offered. -/
def start (prefunded : Nat) : Board := ⟨fun _ => .unknown, prefunded, fun _ => 0, []⟩

/-- The account that a call about an offered bounty settles it with, and the event it emits; none if
the call does not settle it. -/
def settlement (D : Deployment) (terms : Terms) : Msg × Call → Option (Address × Event)
  | (_, .submitJob _ _ _) => none
  | (msg, .submitProof jobId journal sealBytes) =>
    if msg.value = 0 ∧ msg.timestamp ≤ terms.deadline ∧ 64 ≤ journal.length ∧
        journal.take 32 = jobId.bytes.val ∧
        (journal.drop 32).take 32 = (D.sha256 terms.payload).val ∧
        msg.verify sealBytes D.imageId (D.sha256 journal) = true then
      some (msg.sender, .jobCompleted jobId msg.sender (journal.drop 64))
    else none
  | (msg, .expireJob jobId) =>
    if msg.value = 0 ∧ terms.deadline < msg.timestamp then some (terms.owner, .jobExpired jobId)
    else none

/-- A bounty is settled and paid. -/
def pay (b : Board) (jobId : JobId) (terms : Terms) (recipient : Address) : Board :=
  { b with
    bounties := Function.update b.bounties jobId (.settled terms)
    held := b.held - terms.reward
    paid := Function.update b.paid recipient (b.paid recipient + terms.reward) }

def emit (b : Board) (e : Event) : Board := { b with log := b.log ++ [e] }

/-- A call that offers a bounty. -/
def offer (b : Board) : Msg × Call → Option Board
  | (msg, .submitJob jobId payload deadline) =>
    if 0 < msg.value ∧ msg.timestamp < deadline then
      some { b with
        bounties := Function.update b.bounties jobId
          (.offered ⟨msg.sender, payload, msg.value, deadline⟩)
        held := b.held + msg.value
        log := b.log ++ [.jobSubmitted jobId msg.sender msg.value deadline] }
    else none
  | _ => none

/-- A call that settles a bounty offered under these terms. -/
def settle (D : Deployment) (b : Board) (terms : Terms) (i : Msg × Call) : Option Board :=
  match settlement D terms i with
  | some (recipient, event) =>
    if terms.reward ≤ b.held then some ((b.pay i.2.jobId terms recipient).emit event) else none
  | none => none

def step (D : Deployment) (b : Board) : Atom (Msg × Call) Nat → Option Board
  | .poke amount => some { b with held := b.held + amount }
  | .call i =>
    match b.bounties i.2.jobId with
    | .unknown => b.offer i
    | .offered terms => b.settle D terms i
    | .settled _ => none

/-- The call has settled a bounty of `v` and paid it, and has yet to emit its event. -/
def Begun (D : Deployment) (i : Msg × Call) (v u : Board) : Prop :=
  ∃ terms recipient event, v.bounties i.2.jobId = .offered terms ∧
    settlement D terms i = some (recipient, event) ∧ terms.reward ≤ v.held ∧
      u = v.pay i.2.jobId terms recipient

end Board

/-! ## The registry as a board -/

namespace World

def terms (w : World) (jobId : JobId) : Terms where
  owner := (w.jobs jobId).owner
  payload := (w.jobs jobId).payload
  reward := (w.jobs jobId).reward
  deadline := (w.jobs jobId).deadline

def bounty (w : World) (jobId : JobId) : Bounty :=
  if !(w.jobs jobId).exists then .unknown
  else if w.completed jobId then .settled (w.terms jobId)
  else .offered (w.terms jobId)

/-- What the registry has sent to an account. -/
def paidTo (w : World) (account : Address) : Nat :=
  ((w.payouts.filter fun p => p.recipient = account).map Payout.amount).sum

def board (w : World) : Board where
  bounties := w.bounty
  held := w.balance
  paid := w.paidTo
  log := w.log

end World

section Board

variable {D : Deployment} {w : World} {i : Msg × Call} {p : Payout}

theorem board_emit (w : World) (e : Event) : (w.emit e).board = w.board.emit e := rfl

theorem board_submit {s : Submission} (hopen : w.completed s.jobId = false) :
    (w.submit s).board =
      { w.board with
        bounties := Function.update w.bounty s.jobId
          (.offered ⟨s.msg.sender, s.payload, s.msg.value, s.deadline⟩)
        held := w.balance + s.msg.value
        log := w.log ++ [s.event] } := by
  have hbounty : (w.submit s).bounty = Function.update w.bounty s.jobId
      (.offered ⟨s.msg.sender, s.payload, s.msg.value, s.deadline⟩) := by
    funext j
    by_cases hj : j = s.jobId
    · subst hj
      simp [World.bounty, World.terms, World.submit, Submission.job, hopen]
    · simp [World.bounty, World.terms, World.submit, hj]
  simp only [World.board, hbounty]
  rfl

theorem paidTo_pay (w : World) (p : Payout) :
    ((w.complete p.jobId).send p).paidTo =
      Function.update w.paidTo p.recipient (w.paidTo p.recipient + p.amount) := by
  funext account
  by_cases ha : account = p.recipient
  · subst ha
    simp [World.paidTo, World.send, World.complete]
  · simp [World.paidTo, World.send, World.complete, ha, Ne.symm ha]

theorem Payable.board_pay (h : Payable D w i p) :
    ((w.complete p.jobId).send p).board = w.board.pay p.jobId (w.terms p.jobId) p.recipient := by
  have hbounty : ((w.complete p.jobId).send p).bounty =
      Function.update w.bounty p.jobId (.settled (w.terms p.jobId)) := by
    funext j
    by_cases hj : j = p.jobId
    · subst hj
      simp [World.bounty, World.terms, World.send, World.complete, h.found]
    · simp [World.bounty, World.terms, World.send, World.complete, hj]
  have hheld : ((w.complete p.jobId).send p).balance =
      w.balance - (w.terms p.jobId).reward := by
    rw [World.terms, ← h.amount]
    rfl
  have hpaid := paidTo_pay w p
  rw [h.amount] at hpaid
  simp only [World.board, hbounty, hheld, hpaid]
  rfl

theorem Payable.bounty (h : Payable D w i p) : w.bounty p.jobId = .offered (w.terms p.jobId) := by
  simp [World.bounty, h.found, h.notCompleted]

theorem Payable.settlement (h : Payable D w i p) :
    Board.settlement D (w.terms p.jobId) i = some (p.recipient, p.event) := by
  cases h with
  | proof h =>
    rw [Board.settlement, if_pos]
    · rfl
    · exact ⟨h.nonPayable, h.inTime, h.long, h.jobIdMatches, h.payloadMatches, h.verified⟩
  | expiry h =>
    rw [Board.settlement, if_pos]
    · rfl
    · exact ⟨h.nonPayable, h.late⟩

end Board

/-! ## Overtaking -/

namespace Board

variable {D : Deployment} {v u u' : Board} {i : Msg × Call} {j k : JobId} {terms terms' : Terms}
  {recipient recipient' : Address}

theorem bounties_pay (hk : k ≠ j) :
    (v.pay j terms recipient).bounties k = v.bounties k :=
  Function.update_of_ne hk _ _

theorem bounties_pay_self : (v.pay j terms recipient).bounties j = .settled terms :=
  Function.update_self ..

theorem paid_comm (f : Address → Nat) (a b : Address) (x y : Nat) :
    Function.update (Function.update f a (f a + x)) b (Function.update f a (f a + x) b + y) =
      Function.update (Function.update f b (f b + y)) a (Function.update f b (f b + y) a + x) := by
  funext c
  by_cases ha : c = a <;> by_cases hb : c = b
  · subst ha hb
    simp [Nat.add_right_comm]
  · subst ha
    simp [hb]
  · subst hb
    simp [ha]
  · simp [ha, hb]

theorem pay_comm (hk : k ≠ j) :
    (v.pay j terms recipient).pay k terms' recipient' =
      (v.pay k terms' recipient').pay j terms recipient := by
  simp only [pay, Function.update_comm hk, Nat.sub_right_comm, paid_comm]

theorem offer_pay (hk : i.2.jobId ≠ j) (hle : terms.reward ≤ v.held)
    (h : (v.pay j terms recipient).offer i = some u') :
    ∃ v', v.offer i = some v' ∧ u' = v'.pay j terms recipient ∧ v'.bounties j = v.bounties j ∧
      v.held ≤ v'.held := by
  obtain ⟨msg, call⟩ := i
  cases call with
  | submitJob k payload deadline =>
    have hkj : k ≠ j := hk
    simp only [offer] at h ⊢
    split_ifs at h ⊢ with hguard
    cases h
    refine ⟨_, rfl, ?_, Function.update_of_ne hkj.symm _ _, Nat.le_add_right _ _⟩
    simp only [pay, Function.update_comm hkj, Nat.sub_add_comm hle]
  | submitProof | expireJob => cases h

theorem settle_pay (hk : i.2.jobId ≠ j)
    (h : (v.pay j terms recipient).settle D terms' i = some u') :
    ∃ v', v.settle D terms' i = some v' ∧ u' = v'.pay j terms recipient ∧
      v'.bounties j = v.bounties j ∧ (terms.reward ≤ v.held → terms.reward ≤ v'.held) := by
  unfold settle at h ⊢
  cases hsettlement : settlement D terms' i with
  | none =>
    rw [hsettlement] at h
    cases h
  | some due =>
    obtain ⟨recipient', event⟩ := due
    rw [hsettlement] at h
    dsimp only at h ⊢
    split_ifs at h with hheld
    have hboth : terms'.reward ≤ v.held - terms.reward := hheld
    cases h
    refine ⟨_, if_pos (by omega), ?_, Function.update_of_ne hk.symm _ _, fun hle => ?_⟩
    · rw [pay_comm hk]
      rfl
    · show terms.reward ≤ v.held - terms'.reward
      omega

/-- **What is done after a payment could have been done before it.** -/
theorem Begun.overtake {a : Atom (Msg × Call) Nat} (h : Begun D i v u)
    (hstep : u.step D a = some u') : ∃ v', v.step D a = some v' ∧ Begun D i v' u' := by
  obtain ⟨terms, recipient, event, hoffered, hsettlement, hle, rfl⟩ := h
  cases a with
  | poke amount =>
    cases hstep
    refine ⟨_, rfl, terms, recipient, event, hoffered, hsettlement,
      Nat.le_add_right_of_le hle, ?_⟩
    simp only [pay, Nat.sub_add_comm hle]
  | call i' =>
    simp only [step] at hstep ⊢
    by_cases hid : i'.2.jobId = i.2.jobId
    · -- The bounty has been settled.
      rw [hid, bounties_pay_self] at hstep
      cases hstep
    · rw [bounties_pay hid] at hstep
      cases hbounty : v.bounties i'.2.jobId with
      | unknown =>
        rw [hbounty] at hstep
        obtain ⟨v', hv', rfl, hsame, hheld⟩ := offer_pay hid hle hstep
        exact ⟨v', hv', terms, recipient, event, hsame.trans hoffered, hsettlement,
          Nat.le_trans hle hheld, rfl⟩
      | offered terms' =>
        rw [hbounty] at hstep
        obtain ⟨v', hv', rfl, hsame, hheld⟩ := settle_pay hid hstep
        exact ⟨v', hv', terms, recipient, event, hsame.trans hoffered, hsettlement, hheld hle, rfl⟩
      | settled terms' =>
        rw [hbounty] at hstep
        cases hstep

theorem settlement_event {event event' : Event}
    (h : settlement D terms i = some (recipient, event))
    (h' : settlement D terms' i = some (recipient', event')) : event = event' := by
  obtain ⟨msg, call⟩ := i
  cases call with
  | submitJob => cases h
  | submitProof | expireJob =>
    simp only [settlement] at h h'
    split_ifs at h h'
    cases h
    cases h'
    rfl

theorem Begun.finish {event : Event} (h : Begun D i v u)
    (hevent : settlement D terms i = some (recipient, event)) :
    v.step D (.call i) = some (u.emit event) := by
  obtain ⟨terms', recipient', event', hoffered, hsettlement, hle, rfl⟩ := h
  obtain rfl := settlement_event hevent hsettlement
  simp only [step, hoffered, settle, hsettlement, if_pos hle]

end Board

/-! ## The registry is serializable -/

theorem serial (D : Deployment) :
    (machine D).Serial (Inv D) World.board (Board.step D) (Board.Begun D) where
  sound := Inv.sound D
  poke amount w := rfl
  done owed i w w' hinv hop := by
    obtain ⟨s, rfl, hfresh, hvalue, htime, rfl⟩ := op_done hop
    have hbounty : w.board.bounties s.jobId = .unknown := by
      simp [World.board, World.bounty, hfresh]
    have hopen : w.completed s.jobId = false := by
      rw [← Bool.not_eq_true]
      intro hcompleted
      have hexists := hinv.completed_exists hcompleted
      rw [hfresh] at hexists
      cases hexists
    rw [board_submit hopen]
    simp only [Board.step, Call.jobId, hbounty, Board.offer, if_pos (And.intro hvalue htime)]
    rfl
  begun i w outer inner k hop := by
    obtain ⟨p, hpay, hle, rfl, -, -⟩ := op_yield hop
    have hreward : (w.terms p.jobId).reward ≤ w.balance := hpay.amount.symm.trans_le hle
    refine ⟨w.terms p.jobId, p.recipient, p.event, ?_, hpay.settlement, hreward, ?_⟩
    · rw [← hpay.jobId]
      exact hpay.bounty
    · rw [← hpay.jobId]
      exact hpay.board_pay
  finish i w outer inner k hop v t t' hbegun hk := by
    obtain ⟨p, hpay, -, -, hsent, -⟩ := op_yield hop
    rw [hsent t t' hk, board_emit]
    exact hbegun.finish hpay.settlement
  failed i w outer inner k hop t' := by
    obtain ⟨p, -, -, -, -, hfailed⟩ := op_yield hop
    rw [hfailed]
    nofun
  overtake i v u a u' hbegun hstep := hbegun.overtake hstep

/-- **Re-entrancy makes no difference.** Whatever the recipients of rewards do, a run of the
contract ends as the board does after the calls that were not undone, in the order in which they
finished. -/
theorem serializable (D : Deployment) (prefunded : Nat) (txs : List Act) :
    Transition.run (Board.step D) ((machine D).commitsAll txs (World.deployed prefunded))
        (.start prefunded) =
      some (run D txs (World.deployed prefunded)).board :=
  (serial D).execAll (inv_deployed D prefunded) txs

/-- The inner expiry comes before the one that it interrupted. -/
example : ((machine ⟨FixedBytes.ofBytes 32, FixedBytes.fill 32 0⟩).commitsAll reentrantExpiry
    (World.deployed 5)).map (fun atom => match atom with
      | .call i => some i.2.jobId
      | .poke _ => none) =
    [some ⟨.fill 32 1⟩, some ⟨.fill 32 2⟩, some ⟨.fill 32 2⟩, some ⟨.fill 32 1⟩] := by
  rfl

/-- **What a recipient sees.** Whenever foreign code has control, the registry is as the board is
after some calls, one after the other, but for bounties that have been settled and paid without
their event. -/
theorem observed_serial (D : Deployment) (prefunded : Nat) (txs : List Act) (w : World)
    (h : Observes D (World.deployed prefunded) txs w) :
    ∃ atoms b, Transition.run (Board.step D) atoms (.start prefunded) = some b ∧
      Relation.ReflTransGen (fun v u => ∃ i, Board.Begun D i v u) b w.board :=
  (serial D).observes h (inv_deployed D prefunded)

/-- The owner of two expired jobs sees both settled, and neither event. -/
theorem observed_serial_reentered :
    ∃ w, Observes ⟨FixedBytes.ofBytes 32, FixedBytes.fill 32 0⟩ (World.deployed 5)
        reentrantExpiry w ∧ w.log.length = 2 ∧
      ∃ atoms b, Transition.run (Board.step ⟨FixedBytes.ofBytes 32, FixedBytes.fill 32 0⟩) atoms
          (.start 5) = some b ∧
        Relation.ReflTransGen (fun v u => ∃ i, Board.Begun
          ⟨FixedBytes.ofBytes 32, FixedBytes.fill 32 0⟩ i v u) b w.board :=
  have h : Observes ⟨FixedBytes.ofBytes 32, FixedBytes.fill 32 0⟩ (World.deployed 5)
      reentrantExpiry _ := .next (.next (.callee rfl (.callee rfl .here)))
  ⟨_, h, rfl, observed_serial _ 5 _ _ h⟩

end ProofMarket.Registry
