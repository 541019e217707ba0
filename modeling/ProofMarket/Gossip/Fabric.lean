import ProofMarket.Gossip.Mesh
import ProofMarket.Gossip.Progress
import ProofMarket.Gossip.Transport

/-!
# Nodes, queues and bytes

Nodes with everything between them: the run loop and the `broadcast` calls of each node, its bounded
queues, the tasks of its connections, and the streams that carry the frames as bytes, in pieces of
any size. A stream may break at any time, and what is queued for it then is lost.

The tasks of a node are those of `Tasks`, and the streams those of `Streams`: a step of a task that
reads or writes a frame is a step of both.
-/

namespace ProofMarket

open Streams (other)

/-! ## One node -/

/-- What a task has read and not passed on. -/
def ConnectionTask.held : ConnectionTask → List GossipEnvelope
  | .holding e _ => [e]
  | .selecting _ | .ended => []

namespace Tasks

/-- `broadcast`, up to its first `send`. -/
def broadcast (s : Tasks) (rng : Shuffle) (m : GossipMessage) (id : MessageId)
    (sig : FixedBytes 64) : Tasks :=
  { s with
    node := s.node.broadcast rng m id sig
    fresh := by
      rw [GossipNode.broadcast, GossipNode.sendToPeers, GossipNode.ids_queueOn]
      exact s.fresh }

/-- `tx.send(..)` on a connection; `none` is waiting for room. The queue of a task that is over is
gone. -/
def offer (s : Tasks) (c : ConnectionId) (e : GossipEnvelope) : Option Tasks :=
  match s.task c with
  | .ended => some s
  | .selecting outgoing => (outgoing.push e).map fun outgoing => s.setTask c (.selecting outgoing)
  | .holding held outgoing =>
    (outgoing.push e).map fun outgoing => s.setTask c (.holding held outgoing)

/-- After a write: the task is over when it has left its loop. -/
def settle (verifier : Verifier) (s : Tasks) (c : ConnectionId) (task : StreamTask) :
    Option Tasks :=
  if task.buffer.isSome then some s else s.step verifier (.closed c)

/-- What `framed.next` has given to the task. -/
def take (verifier : Verifier) (s : Tasks) (c : ConnectionId) (task : StreamTask) : Option Tasks :=
  if task.buffer.isSome then task.delivered.getLast?.bind fun e => s.step verifier (.read c e)
  else s.step verifier (.closed c)

/-! ### What a step does -/

section Step

variable {verifier : Verifier} {s t : Tasks} {c : ConnectionId} {e : GossipEnvelope}

theorem of_offer (h : s.offer c e = some t) :
    ∃ r, t = s.setTask c r ∧ r.held = (s.task c).held ∧
      (s.task c = .ended ∧ r = .ended ∨
        s.task c ≠ .ended ∧ r.queued = (s.task c).queued ++ [e]) := by
  unfold offer at h
  split at h
  · rename_i htask
    cases h
    refine ⟨.ended, ?_, by rw [htask], .inl ⟨htask, rfl⟩⟩
    rw [setTask, ← htask, Function.update_eq_self]
  · rename_i outgoing htask
    obtain ⟨outgoing', hpush, rfl⟩ := Option.map_eq_some_iff.1 h
    refine ⟨_, rfl, by rw [htask]; rfl, .inr ⟨by simp [htask], ?_⟩⟩
    rw [htask]
    exact (Channel.push_eq_some hpush).2
  · rename_i held outgoing htask
    obtain ⟨outgoing', hpush, rfl⟩ := Option.map_eq_some_iff.1 h
    refine ⟨_, rfl, by rw [htask]; rfl, .inr ⟨by simp [htask], ?_⟩⟩
    rw [htask]
    exact (Channel.push_eq_some hpush).2

theorem of_step_send (h : s.step verifier .send = some t) :
    ∃ c e rest, s.pending = (c, e) :: rest ∧ { s with pending := rest }.offer c e = some t := by
  simp only [step] at h
  split at h
  · cases h
  · rename_i c e rest hpending
    refine ⟨c, e, rest, hpending, ?_⟩
    unfold offer
    split at h
    · rename_i htask
      simp only [htask]
      exact h
    · rename_i outgoing htask
      obtain ⟨outgoing', hpush, hset⟩ := Option.bind_eq_some_iff.1 h
      simp only [htask, hpush]
      exact hset
    · rename_i held outgoing htask
      obtain ⟨outgoing', hpush, hset⟩ := Option.bind_eq_some_iff.1 h
      simp only [htask, hpush]
      exact hset

theorem of_step_write (h : s.step verifier (.write c) = some t) :
    ∃ outgoing e rest, s.task c = .selecting outgoing ∧ outgoing.items = e :: rest.items ∧
      t = s.setTask c (.selecting rest) := by
  simp only [step] at h
  split at h
  · rename_i outgoing htask
    obtain ⟨⟨e, rest⟩, hpop, hset⟩ := Option.bind_eq_some_iff.1 h
    cases hset
    exact ⟨outgoing, e, rest, htask, Channel.pop_eq_some hpop, rfl⟩
  · cases h

theorem of_step_read (h : s.step verifier (.read c e) = some t) :
    ∃ outgoing, s.task c = .selecting outgoing ∧ t = s.setTask c (.holding e outgoing) := by
  simp only [step] at h
  split at h
  · rename_i outgoing htask
    cases h
    exact ⟨outgoing, htask, rfl⟩
  · cases h

theorem of_step_enqueue (h : s.step verifier (.enqueue c) = some t) :
    ∃ e outgoing incoming, s.task c = .holding e outgoing ∧
      incoming.items = s.incoming.items ++ [(e, c)] ∧
      t = { s with incoming }.setTask c (.selecting outgoing) := by
  simp only [step] at h
  split at h
  · rename_i e outgoing htask
    obtain ⟨incoming, hpush, hset⟩ := Option.bind_eq_some_iff.1 h
    cases hset
    exact ⟨e, outgoing, incoming, htask, (Channel.push_eq_some hpush).2, rfl⟩
  · cases h

theorem of_step_closed (h : s.step verifier (.closed c) = some t) :
    ∃ outgoing, s.task c = .selecting outgoing ∧ t = s.setTask c .ended := by
  simp only [step] at h
  split at h
  · rename_i outgoing htask
    cases h
    exact ⟨outgoing, htask, rfl⟩
  · cases h

/-- What the run loop does with the envelope that it receives. -/
structure Received (verifier : Verifier) (rng : Shuffle) (e : GossipEnvelope)
    (source : ConnectionId) (s t : Tasks) : Prop where
  node : t.node = (s.node.processIncoming verifier rng e source).1
  idle : s.pending = []
  pending : t.pending = sends s.node rng source (s.node.processIncoming verifier rng e source).2
  incoming : s.incoming.items = (e, source) :: t.incoming.items
  task : t.task = s.task

theorem of_step_receive {rng : Shuffle} {source : ConnectionId}
    (hhead : s.incoming.items.head? = some (e, source))
    (h : s.step verifier (.receive rng) = some t) : Received verifier rng e source s t := by
  simp only [step] at h
  split at h
  · rename_i d source' incoming hpending hpop
    have hitems := Channel.pop_eq_some hpop
    rw [hitems] at hhead
    cases hhead
    cases h
    exact ⟨rfl, hpending, rfl, hitems, rfl⟩
  · cases h

end Step

end Tasks

/-- A node at work: its tasks, the `broadcast` calls under way with what each has yet to send, and
what it has handed to its subscribers, the latest first. -/
structure BusyNode where
  tasks : Tasks
  calls : List (List (ConnectionId × GossipEnvelope))
  delivered : List GossipEnvelope

namespace BusyNode

/-- A call of `broadcast` begins. -/
def broadcast (n : BusyNode) (rng : Shuffle) (m : GossipMessage) (id : MessageId)
    (sig : FixedBytes 64) : BusyNode :=
  let node := n.tasks.node
  { n with
    tasks := n.tasks.broadcast rng m id sig
    calls := n.calls ++ [(node.pickPeers rng none).map fun c => (c, node.envelope m id sig)] }

/-- The next `send` of a call. -/
def post (n : BusyNode) (i : Nat) : Option BusyNode :=
  match n.calls[i]? with
  | some ((c, e) :: rest) =>
    (n.tasks.offer c e).map fun tasks => { n with tasks, calls := n.calls.set i rest }
  | _ => none

/-- The run loop receives the envelope. -/
def receive (verifier : Verifier) (n : BusyNode) (rng : Shuffle) (e : GossipEnvelope)
    (source : ConnectionId) : Option BusyNode :=
  if n.tasks.incoming.items.head? = some (e, source) then
    (n.tasks.step verifier (.receive rng)).map fun tasks =>
      { n with
        tasks
        delivered := (n.tasks.node.processIncoming verifier rng e source).2.toList ++ n.delivered }
  else none

end BusyNode

/-! ## The network -/

/-- How nodes `ν` are connected by connections `κ`: where each end is, and what is at a connection
of a node. -/
structure Cabling (κ ν : Type) where
  place : κ × Bool → ν × ConnectionId
  endAt : ν → ConnectionId → Option (κ × Bool)
  endAt_eq_some : ∀ v c x, endAt v c = some x ↔ place x = (v, c)

namespace Cabling

variable {κ ν : Type} (K : Cabling κ ν) {x y : κ × Bool}

/-- The other ends, as a `Mesh` has them. -/
def wiring : Wiring ν := fun v c => (K.endAt v c).map fun x => K.place (other x)

theorem endAt_place (x : κ × Bool) : K.endAt (K.place x).1 (K.place x).2 = some x :=
  (K.endAt_eq_some _ _ x).2 rfl

theorem place_injective : Function.Injective K.place := by
  intro x y h
  have hx := K.endAt_place x
  rw [h, K.endAt_place] at hx
  exact (Option.some.inj hx).symm

theorem wiring_eq_some {v : ν} {c : ConnectionId} :
    K.wiring v c = some (K.place (other x)) ↔ K.place x = (v, c) := by
  unfold wiring
  rw [← K.endAt_eq_some, Option.map_eq_some_iff]
  constructor
  · rintro ⟨y, hy, hplace⟩
    have hother : other y = other x := K.place_injective hplace
    rw [← Streams.other_other y, hother, Streams.other_other] at hy
    exact hy
  · intro hx
    exact ⟨x, hx, rfl⟩

end Cabling

structure Fabric (κ ν : Type) where
  nodes : ν → BusyNode
  streams : Streams κ

namespace Fabric

variable {κ ν : Type}

/-- Nothing has been said yet; connections may have been opened. -/
def start (first : ν → Tasks) : Fabric κ ν := ⟨fun v => ⟨first v, [], []⟩, Streams.start⟩

inductive Label (κ ν : Type) where
  | broadcast (v : ν) (rng : Shuffle) (m : SizedMessage) (id : MessageId) (sig : FixedBytes 64)
  /-- The next `send` of a call of `broadcast`. -/
  | post (v : ν) (i : Nat)
  /-- The run loop receives an envelope and processes it up to its first `send`. -/
  | receive (v : ν) (rng : Shuffle) (e : GossipEnvelope) (source : ConnectionId)
  /-- The next `send` of the run loop. -/
  | send (v : ν)
  /-- A task takes an envelope off its queue and writes it as a frame. -/
  | write (x : κ × Bool) (e : SizedEnvelope)
  /-- At most `n` bytes come in. -/
  | arrive (x : κ × Bool) (n : Nat)
  /-- A task takes a frame off its stream. -/
  | read (x : κ × Bool)
  /-- A task gets the envelope it holds into the queue of the run loop. -/
  | enqueue (x : κ × Bool)
  /-- The stream ends or fails. -/
  | lost (x : κ × Bool)

/-- What happens that others can see: a broadcast, or a call of `process_incoming`. -/
inductive Seen (ν : Type) where
  | broadcast (v : ν) (rng : Shuffle) (m : GossipMessage) (id : MessageId) (sig : FixedBytes 64)
  | processed (v : ν) (rng : Shuffle) (e : GossipEnvelope) (source : ConnectionId)

def Label.seen : Label κ ν → Option (Seen ν)
  | .broadcast v rng m id sig => some (.broadcast v rng m.1 id sig)
  | .receive v rng e source => some (.processed v rng e source)
  | _ => none

/-- How many broadcasts have begun. -/
def broadcasts : List (Seen ν) → ℕ
  | [] => 0
  | .broadcast .. :: seen => broadcasts seen + 1
  | .processed .. :: seen => broadcasts seen

/-- How many envelopes have been processed. -/
def processed : List (Seen ν) → ℕ
  | [] => 0
  | .broadcast .. :: seen => processed seen
  | .processed .. :: seen => processed seen + 1

variable [DecidableEq κ] [DecidableEq ν]

/-- One node goes on. -/
def update (s : Fabric κ ν) (v : ν) (node : BusyNode) : Fabric κ ν :=
  { s with nodes := Function.update s.nodes v node }

/-- The tasks of one node go on. -/
def setTasks (s : Fabric κ ν) (v : ν) (tasks : Tasks) : Fabric κ ν :=
  s.update v { s.nodes v with tasks }

def step (format : FrameFormat) (verifier : Verifier) (K : Cabling κ ν) (s : Fabric κ ν) :
    Label κ ν → Option (Fabric κ ν)
  | .broadcast v rng m id sig => some (s.update v ((s.nodes v).broadcast rng m.1 id sig))
  | .post v i => ((s.nodes v).post i).map (s.update v)
  | .receive v rng e source => ((s.nodes v).receive verifier rng e source).map (s.update v)
  | .send v => ((s.nodes v).tasks.step verifier .send).map (s.setTasks v)
  | .write x e =>
    let (v, c) := K.place x
    if ((s.nodes v).tasks.task c).queued.head? = some e.1 then do
      let tasks ← (s.nodes v).tasks.step verifier (.write c)
      let streams ← Streams.step format s.streams (x, .outgoing e)
      let tasks ← tasks.settle verifier c (streams x)
      return { s with streams }.setTasks v tasks
    else none
  | .arrive x n =>
    (Streams.step format s.streams (x, .arrive n)).map fun streams => { s with streams }
  | .read x => do
    let (v, c) := K.place x
    let streams ← Streams.step format s.streams (x, .next)
    let tasks ← (s.nodes v).tasks.take verifier c (streams x)
    return { s with streams }.setTasks v tasks
  | .enqueue x =>
    let (v, c) := K.place x
    ((s.nodes v).tasks.step verifier (.enqueue c)).map (s.setTasks v)
  | .lost x => do
    let (v, c) := K.place x
    let streams ← Streams.step format s.streams (x, .lost)
    let tasks ← (s.nodes v).tasks.step verifier (.closed c)
    return { s with streams }.setTasks v tasks

end Fabric

end ProofMarket
