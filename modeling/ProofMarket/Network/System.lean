import ProofMarket.Coordinator.Assignments
import ProofMarket.Worker.Handler

/-!
# Coordinator, workers and the network

One coordinator process, a worker for every peer id, and the messages between them. A broadcast
goes to every other node. `sent` holds every message ever broadcast, `flight` those on their way to
a node; a step that handles a message takes one copy off the way.

Two networks are restrictions of the runs: one that may lose, delay, reorder and duplicate messages
(`Lossy`) and one that delivers every message to every node once, in any order (`ExactlyOnce`).

`failed` is a record that no code reads: the proving tasks that ended without success.
-/

namespace ProofMarket

open Registry (Deployment)

/-- The job a message is about. -/
def GossipMessage.jobId : GossipMessage → JobId
  | .jobAvailable job => job.id
  | .claimJob j _ | .claimAccepted j _ | .claimRejected j _ | .jobCompleted j _ => j

inductive Node where
  | coordinator
  | worker (id : PeerId)
  deriving DecidableEq

structure System where
  backend : Backend
  workers : PeerId → Worker
  sent : List GossipMessage
  flight : List (Node × GossipMessage)
  failed : List (PeerId × JobId)

namespace System

/-- A coordinator with an empty map, idle workers, and no message yet. -/
def start (chain : Chain) (contract : Bool) (defaultDeadlineSecs : UInt64) (startBlock : Nat) :
    System where
  backend := .start chain contract defaultDeadlineSecs ∅ startBlock
  workers := Worker.start
  sent := []
  flight := []
  failed := []

inductive Label where
  | coordinator (l : Backend.Label)
  | worker (id : PeerId) (l : Worker.Label)

/-- The node that takes the step. -/
def Label.node : Label → Node
  | .coordinator _ => .coordinator
  | .worker id _ => .worker id

/-- The message that the step handles. -/
def Label.handles : Label → Option GossipMessage
  | .coordinator (.recv m _ _) => some m
  | .worker _ (.recv m _) => some m
  | _ => none

/-- A broadcast by `source` to all other nodes. -/
def broadcast (members : List PeerId) (source : Node) (ms : List GossipMessage) :
    List (Node × GossipMessage) :=
  ms.flatMap fun m =>
    ((.coordinator :: members.map .worker).filter fun node => node ≠ source).map fun node =>
      (node, m)

/-- The way after a step: one copy of the message handled is off it, the new ones are on it. -/
def route (members : List PeerId) (s : System) (l : Label) (ms : List GossipMessage) :
    List (Node × GossipMessage) :=
  (match l.handles with
    | some m => s.flight.erase (l.node, m)
    | none => s.flight) ++ broadcast members l.node ms

/-- A step of a worker in which its task ends without success: proving, proof extraction or
submission failed, or the transaction was mined as reverted. -/
def failures (c : Chain) (id : PeerId) : Worker.Label → List (PeerId × JobId)
  | .proved jobId _ (.error _) => [(id, jobId)]
  | .submitted job _ (.error _) => [(id, job.id)]
  | .submitted job _ (.ok txHash) =>
    if c.receipts.any fun r => r.txHash = txHash && r.ok then [] else [(id, job.id)]
  | _ => []

def step (D : Deployment) (members : List PeerId) (s : System) (l : Label) : Option System :=
  match l with
  | .coordinator bl =>
    (s.backend.step D bl).map fun (backend, ms) =>
      { s with backend, sent := s.sent ++ ms, flight := s.route members l ms }
  | .worker id wl =>
    ((s.workers id).step wl).map fun (w, ms) =>
      { s with
        workers := Function.update s.workers id w
        sent := s.sent ++ ms
        flight := s.route members l ms
        failed := s.failed ++ failures s.backend.chain id wl }

/-- Runs whose every step satisfies `ok`. -/
abbrev Steps (D : Deployment) (members : List PeerId) (ok : System → Label → Prop) :
    System → System → Prop :=
  Transition.Steps (step D members) ok

/-- The network loses, delays, reorders and duplicates messages, but does not invent any. -/
def Lossy (s : System) (l : Label) : Prop := ∀ m ∈ l.handles, m ∈ s.sent

/-- The network delivers a message to a node only when a copy is on its way there. -/
def ExactlyOnce (s : System) (l : Label) : Prop := ∀ m ∈ l.handles, (l.node, m) ∈ s.flight

/-- The node that takes the step is the coordinator or a member. -/
def ByMember (members : List PeerId) (l : Label) : Prop :=
  l.node = .coordinator ∨ ∃ id ∈ members, l.node = .worker id

/-- `create_job` chooses fresh ids. -/
def Fresh (D : Deployment) (s : System) : Label → Prop
  | .coordinator l => s.backend.ChoosesFresh D l
  | .worker _ _ => True

instance (s : System) (l : Label) : Decidable (s.Lossy l) :=
  inferInstanceAs (Decidable (∀ m ∈ l.handles, m ∈ s.sent))

instance (s : System) (l : Label) : Decidable (s.ExactlyOnce l) :=
  inferInstanceAs (Decidable (∀ m ∈ l.handles, (l.node, m) ∈ s.flight))

instance (members : List PeerId) (l : Label) : Decidable (ByMember members l) :=
  inferInstanceAs (Decidable (_ ∨ ∃ id ∈ members, l.node = .worker id))

instance (D : Deployment) (s : System) (l : Label) : Decidable (s.Fresh D l) :=
  match l with
  | .coordinator bl => inferInstanceAs (Decidable (s.backend.ChoosesFresh D bl))
  | .worker _ _ => isTrue trivial

/-! ## What a step does -/

section Step

variable {D : Deployment} {members : List PeerId} {s s' : System} {l : Label}

/-- The ways a step can go. -/
inductive Step (D : Deployment) (members : List PeerId) (s : System) : Label → System → Prop where
  | coordinator {l : Backend.Label} {b : Backend} {ms : List GossipMessage} :
      s.backend.Step D l b ms →
      Step D members s (.coordinator l)
        { s with
          backend := b
          sent := s.sent ++ ms
          flight := s.route members (.coordinator l) ms }
  | worker {id : PeerId} {l : Worker.Label} {w : Worker} {ms : List GossipMessage} :
      (s.workers id).Step l w ms →
      Step D members s (.worker id l)
        { s with
          workers := Function.update s.workers id w
          sent := s.sent ++ ms
          flight := s.route members (.worker id l) ms
          failed := s.failed ++ failures s.backend.chain id l }

theorem Step.of_step (h : s.step D members l = some s') : Step D members s l s' := by
  cases l with
  | coordinator bl =>
    obtain ⟨⟨b, ms⟩, hb, rfl⟩ := Option.map_eq_some_iff.1 h
    exact .coordinator (.of_step hb)
  | worker id wl =>
    obtain ⟨⟨w, ms⟩, hw, rfl⟩ := Option.map_eq_some_iff.1 h
    exact .worker (.of_step hw)

theorem mem_broadcast {source node : Node} {ms : List GossipMessage} {m : GossipMessage} :
    (node, m) ∈ broadcast members source ms ↔
      m ∈ ms ∧ node ≠ source ∧ (node = .coordinator ∨ ∃ id ∈ members, node = .worker id) := by
  unfold broadcast
  simp only [List.mem_flatMap, List.mem_map, List.mem_filter, List.mem_cons, Prod.mk.injEq,
    decide_eq_true_eq]
  constructor
  · rintro ⟨m', hm', node', ⟨hnode, hne⟩, rfl, rfl⟩
    refine ⟨hm', hne, ?_⟩
    rcases hnode with rfl | ⟨id, hid, rfl⟩
    · exact .inl rfl
    · exact .inr ⟨id, hid, rfl⟩
  · rintro ⟨hm, hne, hnode⟩
    refine ⟨m, hm, node, ⟨?_, hne⟩, rfl, rfl⟩
    rcases hnode with rfl | ⟨id, hid, rfl⟩
    · exact .inl rfl
    · exact .inr ⟨id, hid, rfl⟩

theorem mem_route {ms : List GossipMessage} {d : Node × GossipMessage}
    (hd : d ∈ s.route members l ms) : d ∈ s.flight ∨ d ∈ broadcast members l.node ms := by
  rcases List.mem_append.1 hd with hd | hd
  · left
    split at hd
    · exact List.mem_of_mem_erase hd
    · exact hd
  · exact .inr hd

theorem mem_route_of_mem {ms : List GossipMessage} {d : Node × GossipMessage} (hd : d ∈ s.flight)
    (hne : ∀ m, l.handles = some m → d ≠ (l.node, m)) : d ∈ s.route members l ms := by
  refine List.mem_append_left _ ?_
  split
  · rename_i m hm
    exact (List.mem_erase_of_ne (hne m hm)).2 hd
  · exact hd

end Step

end System

end ProofMarket
