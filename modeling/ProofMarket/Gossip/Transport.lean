import ProofMarket.Gossip.RoundTrip
import ProofMarket.Lib.Framing
import ProofMarket.Lib.Transition

/-!
# Envelopes over a stream

`spawn_connection`: the task at one end of a connection writes the envelopes of its queue as frames
and decodes the frames it reads. It leaves its loop when a frame is broken or does not decode, when
a frame is too long to be written, and when the stream ends; after that it neither reads nor writes.

Nodes that run this code share their network with peers that put any bytes on their streams, in any
pieces.

**Theorem (`stream_delivery`).** What a task delivers are the envelopes that were written at the
other end, in order and each once, and all of them once it waits on an empty stream. Between two
nodes that run this code no task ever leaves its loop, whatever the others send them, as long as
the messages they broadcast themselves fit in a frame.

The second part is about relays. A relay writes again what a stranger wrote; it does not need a
longer frame for it (`length_encode_le`).
-/

namespace ProofMarket

open Codec Transition

namespace Wire

/-! ## Frames do not grow -/

theorem compact_jobId : jobId.Compact := (compact_raw 32).through.ofEquiv

theorem compact_peerId : peerId.Compact := (compact_raw 32).through.ofEquiv

theorem compact_messageId : messageId.Compact := (compact_raw 32).through.ofEquiv

theorem compact_txHash : txHash.Compact := (compact_raw 32).through.ofEquiv

theorem compact_address : address.Compact := compact_bytes.through.ofEquiv

theorem compact_string : string.Compact := compact_bytes.through

theorem compact_statusFields : ∀ i, (statusFields i).Compact
  | 0 => compact_unit
  | 1 => compact_peerId.pair compact_u64
  | 2 => compact_unit
  | 3 => compact_txHash
  | 4 => compact_bytes
  | 5 => compact_unit

theorem compact_jobStatus : jobStatus.Compact :=
  ((compact_index 6).sigma compact_statusFields).ofEquiv

theorem compact_job : job.Compact :=
  (compact_jobId.pair (compact_jobStatus.pair (compact_address.pair (compact_bytes.pair
    (compact_u128.pair (compact_u64.pair compact_u64)))))).ofEquiv

theorem compact_messageFields : ∀ i, (messageFields i).Compact
  | 0 => compact_job
  | 1 => compact_jobId.pair compact_peerId
  | 2 => compact_jobId.pair compact_peerId
  | 3 => compact_jobId.pair compact_string
  | 4 => compact_jobId.pair compact_txHash

theorem compact_message : message.Compact :=
  ((compact_index 5).sigma compact_messageFields).ofEquiv

theorem compact_envelope : envelope.Compact :=
  (compact_messageId.pair (compact_peerId.pair (compact_byte.pair (compact_message.pair
    compact_bytes.through)))).ofEquiv

end Wire

namespace GossipEnvelope

/-- **An envelope needs no longer frame than the one it came in.** -/
theorem length_encode_le {frame : Bytes} {e : GossipEnvelope} (h : ofFrame frame = some e) :
    (Wire.envelope.encode e).length ≤ frame.length := by
  obtain ⟨⟨d, rest⟩, hdecode, rfl⟩ := Option.map_eq_some_iff.1 h
  exact (Nat.le_add_right _ _).trans (Wire.compact_envelope _ _ _ hdecode)

/-- Counting the ttl down does not change the length: it is one byte. -/
theorem length_encode_countDown (e : GossipEnvelope) :
    (Wire.envelope.encode e.countDown).length = (Wire.envelope.encode e).length := by
  simp [Wire.envelope, Codec.ofEquiv, Codec.through, Codec.pair, Codec.byte, countDown]

end GossipEnvelope

namespace Wire

/-- The frames of a stream, as envelopes: `framed.next`, and `decode_from_slice` on the frame. -/
def envelopes (format : FrameFormat) : Framing UInt8 GossipEnvelope :=
  format.framing.decoding GossipEnvelope.ofFrame

variable {format : FrameFormat} {b rest bytes : Bytes}

theorem drain_envelopes {e : SizedEnvelope}
    (h : format.write (envelope.encode e.1) = some bytes) :
    (envelopes format).drain bytes = ([e.1], some []) := by
  have hscan : (envelopes format).scan (bytes ++ []) = .item e.1 [] :=
    Framing.scan_decoding (GossipEnvelope.ofFrame_encode e.2) (format.writes _ _ h [])
  rw [List.append_nil] at hscan
  rw [Framing.drain_item hscan, Framing.drain_nil]

theorem length_le_of_scan {e : GossipEnvelope} (h : (envelopes format).scan b = .item e rest) :
    (envelope.encode e).length ≤ format.limit := by
  obtain ⟨frame, hframe, hdecode⟩ := Framing.item_of_scan_decoding h
  exact (GossipEnvelope.length_encode_le hdecode).trans (format.length_le hframe)

end Wire

/-- One end of a connection: the task that `spawn_connection` started there, and its side of the
stream. -/
structure StreamTask where
  /-- What has arrived behind the last frame taken off; nothing after the task has left its loop. -/
  buffer : Option Bytes
  /-- What went into `incoming_tx`. -/
  delivered : List GossipEnvelope
  /-- The envelopes it has written. -/
  written : List GossipEnvelope
  /-- All the bytes written here. -/
  stream : Bytes
  /-- Those of them that have not arrived at the other end. -/
  pipe : Bytes

namespace StreamTask

def start : StreamTask := ⟨some [], [], [], [], []⟩

/-- The task breaks out of its loop. -/
def leave (task : StreamTask) : StreamTask := { task with buffer := none }

/-- Bytes are written, for these envelopes. -/
def put (task : StreamTask) (bytes : Bytes) (envelopes : List GossipEnvelope) : StreamTask :=
  { task with
    written := task.written ++ envelopes
    stream := task.stream ++ bytes
    pipe := task.pipe ++ bytes }

/-- `framed.send`: an envelope as a frame. -/
def send (format : FrameFormat) (task : StreamTask) (e : GossipEnvelope) : StreamTask :=
  match format.write (Wire.envelope.encode e) with
  | some bytes => task.put bytes [e]
  | none => task.leave

/-- What `framed.next` gives, which waits while no frame is complete. -/
def next (format : FrameFormat) (task : StreamTask) (buffer : Bytes) : Option StreamTask :=
  match (Wire.envelopes format).scan buffer with
  | .incomplete => none
  | .broken => some task.leave
  | .item e rest => some { task with buffer := some rest, delivered := task.delivered ++ [e] }

end StreamTask

/-- The connections `κ` of a network, by their two ends. -/
abbrev Streams (κ : Type) := κ × Bool → StreamTask

namespace Streams

variable {κ ν : Type}

/-- The other end of the connection. -/
def other (x : κ × Bool) : κ × Bool := (x.1, !x.2)

@[simp] theorem other_other (x : κ × Bool) : other (other x) = x := by
  simp [other]

theorem other_ne (x : κ × Bool) : other x ≠ x := by
  intro h
  simpa [other] using congrArg Prod.snd h

/-- What happens at an end. -/
inductive Event where
  /-- `outgoing_rx.recv()` gives an envelope. -/
  | outgoing (e : SizedEnvelope)
  /-- A peer that does not run this code writes something. -/
  | inject (bytes : Bytes)
  /-- At most `n` bytes come in. -/
  | arrive (n : Nat)
  | next
  /-- The stream ends or fails. -/
  | lost

variable [DecidableEq κ]

def step (format : FrameFormat) (s : Streams κ) : (κ × Bool) × Event → Option (Streams κ)
  | (x, .outgoing e) =>
    if (s x).buffer.isSome then some (Function.update s x ((s x).send format e.1)) else none
  | (x, .inject bytes) => some (Function.update s x ((s x).put bytes []))
  | (x, .arrive n) => do
    let buffer ← (s x).buffer
    let peer := s (other x)
    return Function.update
      (Function.update s x { s x with buffer := some (buffer ++ peer.pipe.take n) })
      (other x) { peer with pipe := peer.pipe.drop n }
  | (x, .next) => do
    let buffer ← (s x).buffer
    let task ← (s x).next format buffer
    return Function.update s x task
  | (x, .lost) => some (Function.update s x (s x).leave)

/-- Nothing has been written yet. -/
def start : Streams κ := fun _ => .start

/-- Whose ends they are decides what may be written: frames by the nodes that run this code, any
bytes by the others. -/
def Allowed (owner : κ × Bool → ν) (honest : ν → Bool) (_ : Streams κ) :
    (κ × Bool) × Event → Prop
  | (x, .outgoing _) => honest (owner x) = true
  | (x, .inject _) => honest (owner x) = false
  | (_, .arrive _) | (_, .next) | (_, .lost) => True

/-- A stream between two nodes that run this code stays up as long as both want it. What a node
writes is an envelope of its own that fits in a frame, or one that it got on any of its
connections, with the ttl counted down. -/
def Reliable (format : FrameFormat) (owner : κ × Bool → ν) (honest : ν → Bool) (s : Streams κ) :
    (κ × Bool) × Event → Prop
  | (x, .outgoing e) => (Wire.envelope.encode e.1).length ≤ format.limit ∨
      ∃ y, owner y = owner x ∧ ∃ d ∈ (s y).delivered, e.1 = d.countDown
  | (x, .lost) => honest (owner x) = true → honest (owner (other x)) = true →
      (s (other x)).buffer = none
  | (_, .inject _) | (_, .arrive _) | (_, .next) => True

/-- What holds in every run. -/
structure Inv (format : FrameFormat) (owner : κ × Bool → ν) (honest : ν → Bool) (s : Streams κ) :
    Prop where
  whole : ∀ x, honest (owner x) = true →
    (Wire.envelopes format).drain (s x).stream = ((s x).written, some [])
  taken : ∀ x buffer, (s x).buffer = some buffer → (Wire.envelopes format).Taken (s x).delivered
    (s (other x)).stream (buffer ++ (s (other x)).pipe)
  isPrefix : ∀ x, (s x).delivered <+: ((Wire.envelopes format).drain (s (other x)).stream).1
  short : ∀ x, ∀ e ∈ (s x).delivered, (Wire.envelope.encode e).length ≤ format.limit

namespace Inv

variable {format : FrameFormat} {owner : κ × Bool → ν} {honest : ν → Bool} {s t : Streams κ}
  {x : κ × Bool}

omit [DecidableEq κ] in
theorem start : Inv format owner honest (start : Streams κ) where
  whole _ _ := Framing.drain_nil
  taken x buffer h := by
    cases h
    exact .start _ _
  isPrefix _ := List.nil_prefix
  short _ _ h := absurd h List.not_mem_nil

theorem leave (h : Inv format owner honest s) (x : κ × Bool) :
    Inv format owner honest (Function.update s x (s x).leave) := by
  have hsame : ∀ y, (Function.update s x (s x).leave y).delivered = (s y).delivered ∧
      (Function.update s x (s x).leave y).written = (s y).written ∧
      (Function.update s x (s x).leave y).stream = (s y).stream ∧
      (Function.update s x (s x).leave y).pipe = (s y).pipe := by
    intro y
    by_cases hy : y = x
    · subst hy
      rw [Function.update_self]
      exact ⟨rfl, rfl, rfl, rfl⟩
    · rw [Function.update_of_ne hy]
      exact ⟨rfl, rfl, rfl, rfl⟩
  constructor
  · intro y hy
    rw [(hsame y).2.1, (hsame y).2.2.1]
    exact h.whole y hy
  · intro y buffer hbuffer
    rw [(hsame y).1, (hsame _).2.2.1, (hsame _).2.2.2]
    refine h.taken y buffer ?_
    by_cases hy : y = x
    · subst hy
      rw [Function.update_self] at hbuffer
      cases hbuffer
    · rwa [Function.update_of_ne hy] at hbuffer
  · intro y
    rw [(hsame y).1, (hsame _).2.2.1]
    exact h.isPrefix y
  · intro y
    rw [(hsame y).1]
    exact h.short y

theorem put (h : Inv format owner honest s) (x : κ × Bool) {bytes : Bytes}
    {envelopes : List GossipEnvelope} (hwhole : honest (owner x) = true →
      (Wire.envelopes format).drain bytes = (envelopes, some [])) :
    Inv format owner honest (Function.update s x ((s x).put bytes envelopes)) := by
  have hreader : ∀ y, (Function.update s x ((s x).put bytes envelopes) y).buffer =
        (s y).buffer ∧
      (Function.update s x ((s x).put bytes envelopes) y).delivered = (s y).delivered := by
    intro y
    by_cases hy : y = x
    · subst hy
      rw [Function.update_self]
      exact ⟨rfl, rfl⟩
    · rw [Function.update_of_ne hy]
      exact ⟨rfl, rfl⟩
  constructor
  · intro y hy
    by_cases hyx : y = x
    · subst hyx
      rw [Function.update_self]
      show (Wire.envelopes format).drain (_ ++ bytes) = (_ ++ envelopes, some [])
      rw [Framing.drain_append_of_some (h.whole y hy), List.nil_append, hwhole hy]
    · rw [Function.update_of_ne hyx]
      exact h.whole y hy
  · intro y buffer hbuffer
    rw [(hreader y).1] at hbuffer
    rw [(hreader y).2]
    have htaken := h.taken y buffer hbuffer
    by_cases hyx : other y = x
    · subst hyx
      rw [Function.update_self]
      show (Wire.envelopes format).Taken _ (_ ++ bytes) (buffer ++ (_ ++ bytes))
      rw [← List.append_assoc]
      exact htaken.append bytes
    · rw [Function.update_of_ne hyx]
      exact htaken
  · intro y
    rw [(hreader y).2]
    refine (h.isPrefix y).trans ?_
    by_cases hyx : other y = x
    · subst hyx
      rw [Function.update_self]
      exact Framing.drain_prefix (List.prefix_append _ _)
    · simp [Function.update_of_ne hyx]
  · intro y
    rw [(hreader y).2]
    exact h.short y

theorem arrive (h : Inv format owner honest s) {buffer : Bytes} (n : Nat)
    (hbuffer : (s x).buffer = some buffer) :
    Inv format owner honest (Function.update
      (Function.update s x { s x with buffer := some (buffer ++ (s (other x)).pipe.take n) })
      (other x) { s (other x) with pipe := (s (other x)).pipe.drop n }) := by
  set t := Function.update
      (Function.update s x { s x with buffer := some (buffer ++ (s (other x)).pipe.take n) })
      (other x) { s (other x) with pipe := (s (other x)).pipe.drop n } with ht
  have hx : t x = { s x with buffer := some (buffer ++ (s (other x)).pipe.take n) } := by
    rw [ht, Function.update_of_ne (other_ne x).symm, Function.update_self]
  have hpeer : t (other x) = { s (other x) with pipe := (s (other x)).pipe.drop n } := by
    rw [ht, Function.update_self]
  have helse : ∀ y, y ≠ x → y ≠ other x → t y = s y := by
    intro y hy hy'
    rw [ht, Function.update_of_ne hy', Function.update_of_ne hy]
  have hsame : ∀ y, (t y).delivered = (s y).delivered ∧ (t y).written = (s y).written ∧
      (t y).stream = (s y).stream := by
    intro y
    by_cases hy : y = x
    · rw [hy, hx]
      exact ⟨rfl, rfl, rfl⟩
    · by_cases hy' : y = other x
      · rw [hy', hpeer]
        exact ⟨rfl, rfl, rfl⟩
      · rw [helse y hy hy']
        exact ⟨rfl, rfl, rfl⟩
  constructor
  · intro y hy
    rw [(hsame y).2.1, (hsame y).2.2]
    exact h.whole y hy
  · intro y b hb
    rw [(hsame y).1, (hsame _).2.2]
    by_cases hy : y = x
    · subst hy
      rw [hx] at hb
      cases hb
      rw [hpeer]
      show (Wire.envelopes format).Taken _ _ (buffer ++ _ ++ _)
      rw [List.append_assoc, List.take_append_drop]
      exact h.taken y buffer hbuffer
    · by_cases hy' : y = other x
      · subst hy'
        rw [hpeer] at hb
        rw [other_other, hx]
        have htaken := h.taken (other x) b hb
        rwa [other_other] at htaken
      · have hne : other y ≠ x := fun heq => hy' (by rw [← heq, other_other])
        have hne' : other y ≠ other x := fun heq => hy (by rw [← other_other y, heq, other_other])
        rw [helse y hy hy'] at hb
        rw [helse _ hne hne']
        exact h.taken y b hb
  · intro y
    rw [(hsame y).1, (hsame _).2.2]
    exact h.isPrefix y
  · intro y
    rw [(hsame y).1]
    exact h.short y

theorem deliver (h : Inv format owner honest s) {buffer rest : Bytes} {e : GossipEnvelope}
    (hbuffer : (s x).buffer = some buffer)
    (hscan : (Wire.envelopes format).scan buffer = .item e rest) :
    Inv format owner honest (Function.update s x
      { s x with buffer := some rest, delivered := (s x).delivered ++ [e] }) := by
  set t := Function.update s x
    { s x with buffer := some rest, delivered := (s x).delivered ++ [e] } with ht
  have hx : t x = { s x with buffer := some rest, delivered := (s x).delivered ++ [e] } := by
    rw [ht, Function.update_self]
  have helse : ∀ y, y ≠ x → t y = s y := fun y hy => by rw [ht, Function.update_of_ne hy]
  have hsame : ∀ y, (t y).written = (s y).written ∧ (t y).stream = (s y).stream ∧
      (t y).pipe = (s y).pipe := by
    intro y
    by_cases hy : y = x
    · rw [hy, hx]
      exact ⟨rfl, rfl, rfl⟩
    · rw [helse y hy]
      exact ⟨rfl, rfl, rfl⟩
  have htaken : (Wire.envelopes format).Taken ((s x).delivered ++ [e]) (s (other x)).stream
      (rest ++ (s (other x)).pipe) :=
    (h.taken x buffer hbuffer).next ((Wire.envelopes format).item_append _ hscan)
  constructor
  · intro y hy
    rw [(hsame y).1, (hsame y).2.1]
    exact h.whole y hy
  · intro y b hb
    rw [(hsame _).2.1, (hsame _).2.2]
    by_cases hy : y = x
    · subst hy
      rw [hx] at hb ⊢
      cases hb
      exact htaken
    · rw [helse y hy] at hb ⊢
      exact h.taken y b hb
  · intro y
    rw [(hsame _).2.1]
    by_cases hy : y = x
    · subst hy
      rw [hx]
      exact htaken.isPrefix
    · rw [helse y hy]
      exact h.isPrefix y
  · intro y d hd
    by_cases hy : y = x
    · subst hy
      rw [hx] at hd
      rcases List.mem_append.1 hd with hd | hd
      · exact h.short y d hd
      · rw [List.mem_singleton.1 hd]
        exact Wire.length_le_of_scan hscan
    · rw [helse y hy] at hd
      exact h.short y d hd

theorem step {l : (κ × Bool) × Event} (h : Inv format owner honest s)
    (hl : Allowed owner honest s l) (hst : step format s l = some t) :
    Inv format owner honest t := by
  obtain ⟨x, event⟩ := l
  cases event with
  | outgoing e =>
    simp only [Streams.step, Option.ite_none_right_eq_some] at hst
    obtain ⟨-, hst⟩ := hst
    cases hst
    unfold StreamTask.send
    cases hwrite : format.write (Wire.envelope.encode e.1) with
    | none => exact h.leave x
    | some bytes => exact h.put x fun _ => Wire.drain_envelopes hwrite
  | inject bytes =>
    cases hst
    exact h.put x fun hx => absurd (hx.symm.trans hl) (by decide)
  | arrive n =>
    obtain ⟨buffer, hbuffer, hst⟩ := Option.bind_eq_some_iff.1 hst
    cases hst
    exact h.arrive n hbuffer
  | next =>
    obtain ⟨buffer, hbuffer, hst⟩ := Option.bind_eq_some_iff.1 hst
    obtain ⟨task, htask, hst⟩ := Option.bind_eq_some_iff.1 hst
    cases hst
    unfold StreamTask.next at htask
    split at htask
    · cases htask
    · cases htask
      exact h.leave x
    · rename_i e rest hscan
      cases htask
      exact h.deliver hbuffer hscan
  | lost =>
    cases hst
    exact h.leave x

end Inv

/-- What the tasks of a network have delivered. -/
structure Delivery (format : FrameFormat) (owner : κ × Bool → ν) (honest : ν → Bool)
    (s : Streams κ) : Prop where
  /-- Whoever is at the other end, how the bytes came in makes no difference. -/
  ofStream : ∀ x, (s x).delivered <+: ((Wire.envelopes format).drain (s (other x)).stream).1
  inOrder : ∀ x, honest (owner (other x)) = true → (s x).delivered <+: (s (other x)).written
  /-- A task that waits for more of an empty stream has delivered everything. -/
  complete : ∀ x buffer, honest (owner (other x)) = true → (s x).buffer = some buffer →
    (Wire.envelopes format).scan buffer = .incomplete → (s (other x)).pipe = [] →
    (s x).delivered = (s (other x)).written ∧ buffer = []

variable {format : FrameFormat} {owner : κ × Bool → ν} {honest : ν → Bool} {s t : Streams κ}

omit [DecidableEq κ] in
theorem Inv.delivery (h : Inv format owner honest s) : Delivery format owner honest s where
  ofStream := h.isPrefix
  inOrder x hx := by
    have hprefix := h.isPrefix x
    rwa [h.whole _ hx] at hprefix
  complete x buffer hx hbuffer hscan hpipe := by
    have htaken := h.taken x buffer hbuffer
    rw [hpipe, List.append_nil] at htaken
    have hdrain := (htaken.of_incomplete hscan).symm.trans (h.whole _ hx)
    obtain ⟨hitems, hrest⟩ := Prod.mk.inj hdrain
    exact ⟨hitems, Option.some.inj hrest⟩

/-- The tasks of the connections between nodes that run this code are in their loops. -/
def Live (owner : κ × Bool → ν) (honest : ν → Bool) (s : Streams κ) : Prop :=
  ∀ x, honest (owner x) = true → honest (owner (other x)) = true → (s x).buffer.isSome = true

namespace Live

variable {x : κ × Bool}

theorem update (h : Live owner honest s) {task : StreamTask}
    (htask : honest (owner x) = true → honest (owner (other x)) = true →
      task.buffer.isSome = true) :
    Live owner honest (Function.update s x task) := by
  intro y hy hpeer
  by_cases hyx : y = x
  · subst hyx
    rw [Function.update_self]
    exact htask hy hpeer
  · rw [Function.update_of_ne hyx]
    exact h y hy hpeer

theorem step {l : (κ × Bool) × Event} (h : Live owner honest s) (hs : Inv format owner honest s)
    (hl : Reliable format owner honest s l) (hst : step format s l = some t) :
    Live owner honest t := by
  obtain ⟨x, event⟩ := l
  cases event with
  | outgoing e =>
    simp only [Streams.step, Option.ite_none_right_eq_some] at hst
    obtain ⟨hbuffer, hst⟩ := hst
    cases hst
    refine h.update fun _ _ => ?_
    -- What came in a frame goes out in one.
    have hshort : (Wire.envelope.encode e.1).length ≤ format.limit := by
      rcases hl with hown | ⟨y, -, d, hd, hforward⟩
      · exact hown
      · rw [hforward, GossipEnvelope.length_encode_countDown]
        exact hs.short y d hd
    obtain ⟨bytes, hwrite⟩ := Option.isSome_iff_exists.1 ((format.write_isSome _).2 hshort)
    rw [StreamTask.send, hwrite]
    exact hbuffer
  | inject bytes =>
    cases hst
    exact h.update fun hx hpeer => h x hx hpeer
  | arrive n =>
    obtain ⟨buffer, hbuffer, hst⟩ := Option.bind_eq_some_iff.1 hst
    cases hst
    refine (h.update fun _ _ => rfl).update fun hpeer hx => ?_
    exact h (other x) hpeer hx
  | next =>
    obtain ⟨buffer, hbuffer, hst⟩ := Option.bind_eq_some_iff.1 hst
    obtain ⟨task, htask, hst⟩ := Option.bind_eq_some_iff.1 hst
    cases hst
    refine h.update fun hx hpeer => ?_
    unfold StreamTask.next at htask
    split at htask
    · cases htask
    · rename_i hscan
      have hbroken := (hs.taken x buffer hbuffer).of_broken
        ((Wire.envelopes format).broken_append _ hscan)
      rw [hs.whole _ hpeer] at hbroken
      cases (Prod.mk.inj hbroken).2
    · cases htask
      rfl
  | lost =>
    cases hst
    refine h.update fun hx hpeer => ?_
    have halive := h (other x) hpeer (by rwa [other_other])
    rw [hl hx hpeer] at halive
    cases halive

end Live

theorem inv_of_steps (h : Steps (step format) (Allowed owner honest) start s) :
    Inv format owner honest s :=
  h.invariant (fun _ _ _ hs hl hst => hs.step hl hst) .start

/-- **What one end writes is what the other end delivers**, whatever happens to the streams. -/
theorem stream_delivery (h : Steps (step format) (Allowed owner honest) start s) :
    Delivery format owner honest s :=
  (inv_of_steps h).delivery

/-- `LengthDelimitedCodec::new`. -/
def codecNew : FrameFormat := .lengthDelimited (8 * 1024 * 1024) (by decide)

/-- A claim goes over a connection in two pieces. -/
def claimOver : List ((Bool × Bool) × Event) :=
  [((true, false), .outgoing ⟨Nodes.raisedClaim, Nodes.claimMessage.2⟩), ((true, true), .arrive 3),
    ((true, true), .arrive 200), ((true, true), .next)]

theorem stream_delivery_claim : ∃ s : Streams Bool, (s (true, true)).delivered =
    (s (true, false)).written ∧ (s (true, false)).written = [Nodes.raisedClaim] := by
  have hok : ∀ l ∈ claimOver, ∀ s, Allowed (fun x => x) (fun _ => true) s l := by
    simp [claimOver, Allowed]
  have hrun : (run (step codecNew) claimOver start).map (fun s =>
      ((s (true, true)).buffer, (s (true, false)).pipe, (s (true, false)).written)) =
        some (some [], [], [Nodes.raisedClaim]) := by decide +kernel
  obtain ⟨s, hs, heq⟩ := exists_of_run hok hrun
  simp only [Prod.mk.injEq] at heq
  have hwaits : (Wire.envelopes codecNew).scan [] = .incomplete := Framing.scan_nil _
  have hcomplete := (stream_delivery hs).complete (true, true) [] rfl heq.1 hwaits heq.2.1
  exact ⟨s, hcomplete.1, heq.2.2⟩

/-- **Nobody breaks a connection between two others.** -/
theorem stays_live (h : Steps (step format)
    (fun s l => Allowed owner honest s l ∧ Reliable format owner honest s l) start s) :
    Live owner honest s := by
  have hboth := h.invariant (I := fun s => Inv format owner honest s ∧ Live owner honest s)
    (fun _ _ _ hs hl hst => ⟨hs.1.step hl.1 hst, hs.2.step hs.1 hl.2 hst⟩)
    ⟨.start, fun _ _ _ => rfl⟩
  exact hboth.2

/-- A stranger at the far end of the other connection sends garbage. -/
def garbage : List ((Bool × Bool) × Event) :=
  [((false, false), .inject [255, 255, 255, 255]), ((false, true), .arrive 4),
    ((false, true), .next)]

theorem stays_live_garbage : ∃ s : Streams Bool, (s (false, true)).buffer = none ∧
    (s (true, true)).buffer.isSome = true := by
  let honest : Bool × Bool → Bool := fun x => x != (false, false)
  have hok : ∀ l ∈ garbage, ∀ s, Allowed (fun x => x) honest s l ∧
      Reliable codecNew (fun x => x) honest s l := by
    simp [garbage, Allowed, Reliable, honest]
  have hrun : (run (step codecNew) garbage start).map (fun s => (s (false, true)).buffer) =
      some none := by decide +kernel
  obtain ⟨s, hs, heq⟩ := exists_of_run hok hrun
  exact ⟨s, heq, stays_live hs (true, true) rfl rfl⟩

end Streams

end ProofMarket
