import ProofMarket.Coordinator.Handlers
import ProofMarket.Worker.Handler

/-!
# The order of replies

Several workers claim one job. The coordinator answers every claim with a broadcast: the first claim
of a pending job with `ClaimAccepted`, which names the worker, and the others with `ClaimRejected`,
which names only the job. The replies reach a worker in any order.

**Theorem (`winner_proves_iff`).** The winner ends up proving exactly when the acceptance is the
first reply it handles: any rejection before it is taken for its own.
-/

namespace ProofMarket

namespace Coordinator

/-- `handle_claim` for a list of claims of one job, with the times they are handled at. -/
def handleClaims (jobs : JobMap) (jobId : JobId) :
    List (UInt64 × PeerId) → JobMap × List GossipMessage
  | [] => (jobs, [])
  | (now, workerId) :: claims =>
    let (jobs', reply) := handleClaim now jobs jobId workerId
    let (jobs'', replies) := handleClaims jobs' jobId claims
    (jobs'', reply :: replies)

/-- A reply to a claim of the job. -/
inductive Replies (j : JobId) : GossipMessage → Prop where
  | accepted (w : PeerId) : Replies j (.claimAccepted j w)
  | rejected (reason : String) : Replies j (.claimRejected j reason)

theorem replies_handleClaim (now : UInt64) (jobs : JobMap) (j : JobId) (w : PeerId) :
    Replies j (handleClaim now jobs j w).2 := by
  rcases handleClaim_cases now jobs j w with ⟨job, -, -, hcl⟩ | ⟨-, reason, hcl⟩
  · rw [hcl]
    exact .accepted w
  · rw [hcl]
    exact .rejected reason

theorem replies_handleClaims (j : JobId) (claims : List (UInt64 × PeerId)) :
    ∀ jobs, ∀ m ∈ (handleClaims jobs j claims).2, Replies j m := by
  induction claims with
  | nil =>
    intro jobs m hm
    cases hm
  | cons claim claims ih =>
    intro jobs m hm
    rcases List.mem_cons.1 hm with rfl | hm
    · exact replies_handleClaim ..
    · exact ih _ m hm

end Coordinator

namespace Worker

open Coordinator

/-- The worker after handling messages one by one. -/
def handleAll (now : UInt64) (w : Worker) (ms : List GossipMessage) : Worker :=
  ms.foldl (fun w m => (w.handleMessage m now).1) w

variable {w : Worker} {j : JobId} {now : UInt64}

theorem handleMessage_reply {m : GossipMessage} (hm : Replies j m)
    (hst : w.status.isClaiming j = false) : (w.handleMessage m now).1 = w := by
  have hstep : Step w (.recv m now) _ _ := .of_handleMessage m now
  generalize (w.handleMessage m now).1 = w' at hstep ⊢
  generalize (w.handleMessage m now).2 = ms at hstep
  cases hm <;> cases hstep
  case accepted.won hclaim => simp [hclaim, WorkerStatus.isClaiming] at hst
  case accepted.lost hclaim _ => simp [hclaim, WorkerStatus.isClaiming] at hst
  case rejected.rejected hclaim => simp [hclaim, WorkerStatus.isClaiming] at hst
  all_goals rfl

theorem handleAll_replies {ms : List GossipMessage} (hms : ∀ m ∈ ms, Replies j m)
    (hst : w.status.isClaiming j = false) : w.handleAll now ms = w := by
  induction ms with
  | nil => rfl
  | cons m ms ih =>
    show handleAll now (w.handleMessage m now).1 ms = w
    rw [handleMessage_reply (hms m List.mem_cons_self) hst]
    exact ih fun m' hm' => hms m' (List.mem_cons_of_mem _ hm')

/-- **The winner proves the job exactly when it handles the acceptance first.** -/
theorem winner_proves_iff (jobs : JobMap) (j : JobId) (claims : List (UInt64 × PeerId))
    (w : Worker) (job : Job) (now : UInt64) (delivered : List GossipMessage)
    (hst : w.status = .claiming job) (hid : job.id = j)
    (hwon : .claimAccepted j w.peerId ∈ (handleClaims jobs j claims).2)
    (hperm : delivered.Perm (handleClaims jobs j claims).2) :
    (w.handleAll now delivered).status = .proving job ↔
      delivered.head? = some (.claimAccepted j w.peerId) := by
  have hreplies : ∀ m ∈ delivered, Replies j m := by
    intro m hm
    exact replies_handleClaims j claims jobs m (hperm.mem_iff.1 hm)
  cases delivered with
  | nil => cases hperm.mem_iff.2 hwon
  | cons m ms =>
    have hrest : ∀ m' ∈ ms, Replies j m' := fun m' hm' => hreplies m' (List.mem_cons_of_mem _ hm')
    show (handleAll now (w.handleMessage m now).1 ms).status = .proving job ↔ some m = some _
    -- After the first reply the worker does not claim the job any more.
    cases hreplies m List.mem_cons_self with
    | accepted p =>
      by_cases hp : p = w.peerId
      · have hfirst : (w.handleMessage (.claimAccepted j p) now).1.status = .proving job := by
          simp [handleMessage, handleClaimAccepted, hst, hid, hp]
        rw [handleAll_replies hrest (by simp [hfirst, WorkerStatus.isClaiming]), hfirst]
        simp [hp]
      · have hfirst : (w.handleMessage (.claimAccepted j p) now).1.status = .idle := by
          simp [handleMessage, handleClaimAccepted, hst, hid, hp]
        rw [handleAll_replies hrest (by simp [hfirst, WorkerStatus.isClaiming]), hfirst]
        simp [hp]
    | rejected reason =>
      have hfirst : (w.handleMessage (.claimRejected j reason) now).1.status = .idle := by
        simp [handleMessage, handleClaimRejected, hst, hid, WorkerStatus.isClaiming]
      rw [handleAll_replies hrest (by simp [hfirst, WorkerStatus.isClaiming]), hfirst]
      simp

/-! ## Two workers claim one job -/

def contested : Job where
  id := ⟨.fill 32 7⟩
  jobStatus := .pending
  owner := Address.zero
  payload := [10, 0, 0, 0, 0, 0, 0, 0]
  reward := 100
  createdAt := 1000
  deadline := 1300

/-- The two claims, in the order in which the coordinator handles them. -/
def rivalClaims : List (UInt64 × PeerId) := [(1001, ⟨.fill 32 1⟩), (1002, ⟨.fill 32 2⟩)]

/-- The worker whose claim is handled first. -/
def winner : Worker := ⟨⟨.fill 32 1⟩, .claiming contested, []⟩

theorem winner_proves_first :
    (winner.handleAll 1003 (handleClaims (Finmap.insert contested.id contested ∅) contested.id
        rivalClaims).2).status = .proving contested :=
  (winner_proves_iff _ contested.id rivalClaims winner contested 1003 _ rfl rfl
    (by decide +kernel) (.refl _)).2 (by decide +kernel)

/-- The rejection of the other worker overtakes the acceptance. -/
theorem winner_idles : ¬ ∀ delivered : List GossipMessage,
    .claimAccepted contested.id winner.peerId ∈
        (handleClaims (Finmap.insert contested.id contested ∅) contested.id rivalClaims).2 →
      delivered.Perm
          (handleClaims (Finmap.insert contested.id contested ∅) contested.id rivalClaims).2 →
        (winner.handleAll 1003 delivered).status = .proving contested := by
  intro h
  have hidle := h
    [.claimRejected contested.id "job already assigned",
      .claimAccepted contested.id winner.peerId]
    (by decide +kernel) (by decide +kernel)
  revert hidle
  decide +kernel

end Worker

end ProofMarket
