import ProofMarket.Network.Attendance
import ProofMarket.Worker.Replies

/-!
# A claim is always answered

`Claiming` has no timeout: a worker leaves it when it handles a reply about its job, and never
otherwise. Replies do not say which claim they answer, so a worker may leave on the reply to another
worker's claim, claim the job again, and meet the reply to its first claim then.

**Theorem (`claims_answered`).** Over a network that delivers every broadcast to every other node
once, in any order, a worker in `Claiming` has its claim on its way to the coordinator or a reply
about the job on its way to itself. With no message on its way, no worker is in `Claiming`.

No count of the messages is needed. A worker that has been in `Claiming` since it last claimed has
handled no reply about the job in between, so each reply sent in that time is still on its way.
-/

namespace ProofMarket

open Coordinator (Replies)

namespace Worker

variable {w w' : Worker} {l : Label} {ms : List GossipMessage} {j : JobId}

/-- **How a worker comes to wait for a reply**: it claims the job in this step, or it waited before
and the step is not about a reply. -/
theorem Step.claiming_cases (hstep : Step w l w' ms) (hj : w'.status.isClaiming j = true) :
    .claimJob j w.peerId ∈ ms ∨
      w.status.isClaiming j = true ∧ ∀ m now, Replies j m → l ≠ .recv m now := by
  cases hstep with
  | @claim job now =>
    have hid : job.id = j := by simpa [WorkerStatus.isClaiming] using hj
    exact .inl (List.mem_singleton.2 (by rw [hid]))
  | won | lost | rejected | proved => cases hj
  | ignore haccepted hrejected =>
    refine .inr ⟨hj, ?_⟩
    intro m now hm hl
    cases hl
    cases hm with
    | accepted p =>
      rw [haccepted j p rfl] at hj
      cases hj
    | rejected reason =>
      rw [hrejected j reason rfl] at hj
      cases hj
  | proveFailed =>
    refine .inr ⟨?_, fun _ _ _ hl => by cases hl⟩
    dsimp only at hj
    split_ifs at hj
    · cases hj
    · exact hj
  | @leave k =>
    refine .inr ⟨?_, fun _ _ _ hl => by cases hl⟩
    have hleft : (transitionToIdle w.status k).isClaiming j = true := hj
    rw [transitionToIdle_eq] at hleft
    split_ifs at hleft
    · cases hleft
    · exact hleft
  | _ => exact .inr ⟨hj, fun _ _ _ hl => by cases hl⟩

end Worker

namespace System

variable {D : Registry.Deployment} {members : List PeerId} {s s' : System} {l : Label}

/-- The claim of `w` for the job is on its way to the coordinator, or a reply about the job is on
its way to `w`. -/
def AwaitsReply (s : System) (j : JobId) (w : PeerId) : Prop :=
  (.coordinator, .claimJob j w) ∈ s.flight ∨ ∃ m, Replies j m ∧ (.worker w, m) ∈ s.flight

structure Waiting (members : List PeerId) (s : System) : Prop where
  peer : ∀ w, (s.workers w).peerId = w
  member : ∀ j w, (s.workers w).status.isClaiming j = true → w ∈ members
  awaits : ∀ j w, (s.workers w).status.isClaiming j = true → s.AwaitsReply j w

/-- **A step of the coordinator**: a claim that it handles is answered to every worker. -/
theorem Waiting.coordinator (h : Waiting members s) {l : Backend.Label} {b : Backend}
    {ms : List GossipMessage} (hstep : s.backend.Step D l b ms) :
    Waiting members (s.afterCoordinator members l b ms) := by
  refine ⟨h.peer, h.member, fun j w hj => ?_⟩
  rcases h.awaits j w hj with hclaim | ⟨m, hm, hreply⟩
  · by_cases hhandles : (Label.coordinator l).handles = some (.claimJob j w)
    · right
      cases hstep with
      | @claim k p now reachable =>
        cases hhandles
        refine ⟨_, Coordinator.replies_handleClaim now s.backend.jobs j w, ?_⟩
        refine List.mem_append_right _ (mem_broadcast.2 ⟨List.mem_singleton.2 rfl, ?_, ?_⟩)
        · exact nofun
        · exact .inr ⟨w, h.member j w hj, rfl⟩
      | verify => cases hhandles
      | ignore _ hne =>
        cases hhandles
        exact absurd rfl (hne j w)
      | _ => cases hhandles
    · refine .inl (mem_route_of_mem hclaim fun m hm heq => hhandles ?_)
      cases heq
      exact hm
  · exact .inr ⟨m, hm, mem_route_of_mem hreply fun m' _ heq => by cases heq⟩

/-- **A step of a worker**: it claims, or its replies are left on their way. -/
theorem Waiting.worker (h : Waiting members s) {id : PeerId} {l : Worker.Label} {w : Worker}
    {ms : List GossipMessage} (hstep : (s.workers id).Step l w ms)
    (hmember : ByMember members (.worker id l)) :
    Waiting members (s.afterWorker members id l w ms) := by
  have hid : id ∈ members := by
    rcases hmember with hc | ⟨q, hq, hnode⟩
    · cases hc
    · cases hnode
      exact hq
  refine ⟨fun p => ?_, fun j p hj => ?_, fun j p hj => ?_⟩
  · by_cases hp : p = id
    · subst hp
      simpa using hstep.peerId.trans (h.peer p)
    · simpa [hp] using h.peer p
  · by_cases hp : p = id
    · exact hp ▸ hid
    · exact h.member j p (by simpa [hp] using hj)
  · -- A claim is not for a worker, so the step leaves it on its way.
    have hclaimed : (.coordinator, .claimJob j p) ∈ s.flight →
        (s.afterWorker members id l w ms).AwaitsReply j p := fun hclaim =>
      .inl (mem_route_of_mem hclaim fun m _ heq => by cases heq)
    by_cases hp : p = id
    · subst hp
      rcases hstep.claiming_cases (by simpa using hj) with hclaim | ⟨hbefore, hother⟩
      · rw [h.peer p] at hclaim
        exact .inl (List.mem_append_right _ (mem_broadcast.2 ⟨hclaim, nofun, .inl rfl⟩))
      · rcases h.awaits j p hbefore with hclaim | ⟨m, hm, hreply⟩
        · exact hclaimed hclaim
        · refine .inr ⟨m, hm, mem_route_of_mem hreply fun m' hm' heq => ?_⟩
          cases heq
          obtain ⟨now, hl⟩ := recv_of_handles hm'
          exact hother m now hm hl
    · rcases h.awaits j p (by simpa [hp] using hj) with hclaim | ⟨m, hm, hreply⟩
      · exact hclaimed hclaim
      · refine .inr ⟨m, hm, mem_route_of_mem hreply fun m' _ heq => ?_⟩
        cases heq
        exact hp rfl

theorem Waiting.step (h : Waiting members s) (hstep : Step D members s l s')
    (hmember : ByMember members l) : Waiting members s' := by
  cases hstep with
  | coordinator hb => exact h.coordinator hb
  | worker hw => exact h.worker hw hmember

/-- A running coordinator, whatever it has loaded or begun, and workers that have just started. -/
def startWith (b : Backend) : System := ⟨b, Worker.start, [], [], []⟩

theorem waiting_startWith (members : List PeerId) (b : Backend) :
    Waiting members (startWith b) where
  peer _ := rfl
  member j w h := by cases h
  awaits j w h := by cases h

/-- **No worker waits for a reply that will never come.** -/
theorem claims_answered (D : Registry.Deployment) (members : List PeerId) (b : Backend)
    (s : System) (h : Steps D members (fun u l => u.ExactlyOnce l ∧ ByMember members l)
      (startWith b) s) :
    (∀ w job, (s.workers w).status = .claiming job → s.AwaitsReply job.id w) ∧
      (s.flight = [] → ∀ w job, (s.workers w).status ≠ .claiming job) := by
  have hwaiting : Waiting members s := by
    refine Transition.Steps.invariant ?_ h (waiting_startWith members b)
    intro u l v hu hl hnext
    exact hu.step (.of_step hnext) hl.2
  have hawaits : ∀ w job, (s.workers w).status = .claiming job → s.AwaitsReply job.id w :=
    fun w job hst =>
      hwaiting.awaits job.id w (WorkerStatus.isClaiming_iff.2 ⟨job, hst, rfl⟩)
  refine ⟨hawaits, fun hquiet w job hst => ?_⟩
  rcases hawaits w job hst with hclaim | ⟨m, -, hreply⟩
  · rw [hquiet] at hclaim
    cases hclaim
  · rw [hquiet] at hreply
    cases hreply

/-! ## A worker that claims twice -/

open Sample

def bystander : PeerId := ⟨.fill 32 2⟩

/-- The job is announced twice and claimed by both workers. The reply to the other claim frees the
prover, which claims the job again before its first claim is handled. -/
def claimedTwice : List Label :=
  [.coordinator (.create request nonce 1000), .coordinator (.insert job),
    .coordinator (.collect jobId), .coordinator (.announce job), .coordinator .resend,
    .worker prover (.recv (.jobAvailable job) 1001),
    .worker bystander (.recv (.jobAvailable job) 1001),
    .coordinator (.recv (.claimJob jobId bystander) 1002 true),
    .worker prover (.recv (.claimAccepted jobId bystander) 1003),
    .worker prover (.recv (.jobAvailable job) 1004)]

/-- A coordinator without jobs. -/
def emptyBackend : Backend := .start (Chain.after deployment 0 []) true 300 ∅ 0

theorem claims_answered_twice :
    ∃ s, Steps deployment [prover, bystander]
        (fun u l => u.ExactlyOnce l ∧ ByMember [prover, bystander] l) (startWith emptyBackend) s ∧
      s.flight.count (.coordinator, .claimJob jobId prover) = 2 ∧ s.AwaitsReply job.id prover := by
  have hrun : (Transition.run (Transition.checked (step deployment [prover, bystander])
      fun u l => u.ExactlyOnce l ∧ ByMember [prover, bystander] l) claimedTwice
        (startWith emptyBackend)).map
          (fun s => decide ((s.workers prover).status = .claiming job ∧
            s.flight.count (.coordinator, .claimJob jobId prover) = 2)) = some true := by
    decide +kernel
  obtain ⟨s, hs, hst⟩ := Transition.exists_of_checked hrun
  obtain ⟨hclaiming, hcount⟩ := of_decide_eq_true hst
  have hanswered := claims_answered deployment [prover, bystander] emptyBackend s hs
  exact ⟨s, hs, hcount, hanswered.1 prover job hclaiming⟩

end System

end ProofMarket
