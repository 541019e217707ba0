import ProofMarket.Gossip.Incoming
import ProofMarket.Lib.Channel

/-!
# A node's tasks and queues

The run loop of a node takes envelopes from one queue of 256 places, `incoming`, and sends them into
queues of 64 places, one for each connection. The task of a connection selects between reading a
frame, which it then has to send into `incoming`, and writing out what is in its queue. While it
waits for room in `incoming` it does not write, and while the run loop waits for room in a
connection's queue it does not receive.
-/

namespace ProofMarket

/-- The task of a connection, with its end of the outgoing queue. -/
inductive ConnectionTask where
  | selecting (outgoing : Channel 64 GossipEnvelope)
  /-- In `incoming_tx.send(..).await`. -/
  | holding (envelope : GossipEnvelope) (outgoing : Channel 64 GossipEnvelope)
  /-- Not started, or over: its end of the queue is dropped. -/
  | ended

/-- What is in the task's queue. -/
def ConnectionTask.queued : ConnectionTask → List GossipEnvelope
  | .selecting outgoing => outgoing.items
  | .holding _ outgoing => outgoing.items
  | .ended => []

/-- The task waits for room in `incoming`. -/
def ConnectionTask.holds : ConnectionTask → Bool
  | .holding .. => true
  | _ => false

/-- A node with its run loop and the tasks of its connections. -/
structure Tasks where
  node : GossipNode
  nextConnectionId : ConnectionId
  fresh : ∀ c ∈ node.ids, c < nextConnectionId
  incoming : Channel 256 (GossipEnvelope × ConnectionId)
  /-- What the run loop has yet to send; it is in its select when there is nothing. -/
  pending : List (ConnectionId × GossipEnvelope)
  task : ConnectionId → ConnectionTask

namespace Tasks

/-- `GossipNode::new`. -/
def new (peerId : PeerId) (config : GossipConfig) : Tasks where
  node := .new peerId config
  nextConnectionId := 0
  fresh := GossipNode.lt_of_mem_ids_new peerId config
  incoming := .empty
  pending := []
  task _ := .ended

inductive Label where
  /-- `spawn_connection`. -/
  | opened
  /-- The run loop receives an envelope and processes it up to its first `send`. -/
  | receive (rng : Shuffle)
  /-- The run loop's next `tx.send(..).await`. -/
  | send
  /-- A task reads a valid frame from its remote. -/
  | read (c : ConnectionId) (e : GossipEnvelope)
  /-- A task gets its envelope into `incoming`. -/
  | enqueue (c : ConnectionId)
  /-- A task writes an envelope to its remote. -/
  | write (c : ConnectionId)
  /-- A task breaks out of its loop. -/
  | closed (c : ConnectionId)

/-- What the tasks do by themselves, whatever the remotes do. -/
def Label.internal : Label → Bool
  | .receive _ | .send | .enqueue _ | .write _ => true
  | .opened | .read .. | .closed _ => false

/-- What `process_incoming` sends, one connection after the other. -/
def sends (node : GossipNode) (rng : Shuffle) (source : ConnectionId) :
    Option GossipEnvelope → List (ConnectionId × GossipEnvelope)
  | none => []
  | some e => (node.relays rng e source).map fun c => (c, e.countDown)

def setTask (s : Tasks) (c : ConnectionId) (t : ConnectionTask) : Tasks :=
  { s with task := Function.update s.task c t }

/-- `spawn_connection`. -/
def spawnConnection (s : Tasks) : Tasks where
  node := s.node.insertConnection s.nextConnectionId fun h => Nat.lt_irrefl _ (s.fresh _ h)
  nextConnectionId := s.nextConnectionId + 1
  fresh := by
    rw [GossipNode.ids_insertConnection]
    intro c hc
    rcases List.mem_append.1 hc with hc | hc
    · exact Nat.lt_succ_of_lt (s.fresh c hc)
    · exact List.mem_singleton.1 hc ▸ Nat.lt_succ_self _
  incoming := s.incoming
  pending := s.pending
  task := Function.update s.task s.nextConnectionId (.selecting .empty)

def step (verifier : Verifier) (s : Tasks) : Label → Option Tasks
  | .opened => some s.spawnConnection
  | .receive rng =>
    match s.pending, s.incoming.pop with
    | [], some ((e, source), incoming) =>
      let outcome := s.node.processIncoming verifier rng e source
      some { s with
        node := outcome.1
        fresh := by
          rw [GossipNode.ids_processIncoming]
          exact s.fresh
        incoming := incoming
        pending := sends s.node rng source outcome.2 }
    | _, _ => none
  | .send =>
    match s.pending with
    | [] => none
    | (c, e) :: rest =>
      match s.task c with
      | .ended => some { s with pending := rest }
      | .selecting outgoing => do
        let outgoing ← outgoing.push e
        return { s with pending := rest }.setTask c (.selecting outgoing)
      | .holding held outgoing => do
        let outgoing ← outgoing.push e
        return { s with pending := rest }.setTask c (.holding held outgoing)
  | .read c e =>
    match s.task c with
    | .selecting outgoing => some (s.setTask c (.holding e outgoing))
    | _ => none
  | .enqueue c =>
    match s.task c with
    | .holding e outgoing => do
      let incoming ← s.incoming.push (e, c)
      return { s with incoming := incoming }.setTask c (.selecting outgoing)
    | _ => none
  | .write c =>
    match s.task c with
    | .selecting outgoing => do
      let (_, outgoing) ← outgoing.pop
      return s.setTask c (.selecting outgoing)
    | _ => none
  | .closed c =>
    match s.task c with
    | .selecting _ => some (s.setTask c .ended)
    | _ => none

end Tasks

end ProofMarket
