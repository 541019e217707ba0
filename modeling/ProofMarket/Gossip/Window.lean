import ProofMarket.Gossip.Suppression
import ProofMarket.Lib.Lru

/-!
# How long the cache remembers an id

The cache of a node holds the last ids it has processed: those of the envelopes with a valid
signature, repeats included, and those of its own broadcasts. So an id that it has delivered or
broadcast is delivered (again) only after so many others that the cache has forgotten it.

**Theorem (`dedup_window`).** In between, the node has processed at least as many distinct other ids
as its cache has room for.
-/

namespace ProofMarket

open Transition (run)

namespace Endpoint

variable {verifier : Verifier} {s t : Endpoint}

/-- The id that an event has the node process. -/
def Event.processed (verifier : Verifier) : Event → Option MessageId
  | .incoming e _ _ => if e.verify verifier then some e.id else none
  | .broadcast _ _ id _ => some id
  | .send _ _ | .connections _ _ => none

/-- The id that an event delivers to the subscribers. -/
def Event.delivers (verifier : Verifier) (s : Endpoint) : Event → Option MessageId
  | .incoming e rng source =>
    (s.node.processIncoming verifier rng e source).2.map GossipEnvelope.id
  | .broadcast _ _ _ _ | .send _ _ | .connections _ _ => none

/-- The id that an event broadcasts. -/
def Event.announces : Event → Option MessageId
  | .broadcast _ _ id _ => some id
  | .incoming _ _ _ | .send _ _ | .connections _ _ => none

/-- What the events have the node process, the latest first. -/
def history (verifier : Verifier) (events : List Event) : List MessageId :=
  (events.filterMap (Event.processed verifier)).reverse

theorem Event.processed_of_delivers {l : Event} {x : MessageId}
    (h : l.delivers verifier s = some x) : l.processed verifier = some x := by
  cases l with
  | incoming e rng source =>
    obtain ⟨d, hd, rfl⟩ := Option.map_eq_some_iff.1 h
    obtain ⟨rfl, hv, -⟩ := GossipNode.delivered_iff.1 hd
    exact if_pos hv
  | broadcast | send | connections => cases h

theorem Event.processed_of_announces {l : Event} {x : MessageId} (h : l.announces = some x) :
    l.processed verifier = some x := by
  cases l with
  | broadcast => exact h
  | incoming | send | connections => cases h

theorem Event.not_mem_of_delivers {l : Event} {x : MessageId}
    (h : l.delivers verifier s = some x) : x ∉ s.node.seen := by
  cases l with
  | incoming e rng source =>
    obtain ⟨d, hd, rfl⟩ := Option.map_eq_some_iff.1 h
    obtain ⟨rfl, -, hnew⟩ := GossipNode.delivered_iff.1 hd
    exact hnew
  | broadcast | send | connections => cases h

/-- The cache holds the last ids of the history. -/
def Caches (s : Endpoint) (h : List MessageId) : Prop :=
  s.node.seen = (Lru.recency h).take s.node.config.seenCacheSize

theorem config_step {l : Event} (h : step verifier s l = some t) :
    t.node.config = s.node.config := by
  cases l <;> cases h
  · exact GossipNode.config_processIncoming
  all_goals rfl

/-- **One event**: the id it has the node process becomes the most recent one. -/
theorem Caches.step {l : Event} {h : List MessageId} (hs : s.Caches h)
    (hstep : Endpoint.step verifier s l = some t) :
    t.Caches ((l.processed verifier).toList ++ h) := by
  unfold Caches at hs ⊢
  rw [config_step hstep]
  have hput : ∀ id, GossipNode.putSeen s.node.config.seenCacheSize id s.node.seen =
      (Lru.recency (id :: h)).take s.node.config.seenCacheSize := by
    intro id
    rw [hs]
    exact Lru.put_take _ id h
  cases l with
  | incoming e rng source =>
    cases hstep
    cases hv : e.verify verifier with
    | false => simpa [GossipNode.processIncoming_invalid hv, Event.processed, hv] using hs
    | true =>
      by_cases hseen : e.id ∈ s.node.seen
      · simp only [GossipNode.processIncoming_seen hv hseen, Event.processed, hv, if_true]
        rw [hs] at hseen ⊢
        exact Lru.touch_take hseen
      · simpa [(GossipNode.processIncoming_new hv hseen).2, Event.processed, hv] using hput e.id
  | broadcast m rng id sig =>
    cases hstep
    exact hput id
  | send | connections =>
    cases hstep
    exact hs

theorem Caches.run {events : List Event} {h : List MessageId} (hs : s.Caches h)
    (hrun : run (Endpoint.step verifier) events s = some t) :
    t.Caches (history verifier events ++ h) := by
  induction events generalizing s h with
  | nil =>
    cases hrun
    exact hs
  | cons l events ih =>
    obtain ⟨u, hu, hrest⟩ := Option.bind_eq_some_iff.1 hrun
    have hnext := ih (hs.step hu) hrest
    have hsplit : history verifier (l :: events) ++ h =
        history verifier events ++ ((l.processed verifier).toList ++ h) := by
      unfold history
      cases hl : l.processed verifier <;> simp [hl]
    rwa [hsplit]

theorem config_run {events : List Event} (hrun : run (step verifier) events s = some t) :
    t.node.config = s.node.config := by
  induction events generalizing s with
  | nil =>
    cases hrun
    rfl
  | cons l events ih =>
    obtain ⟨u, hu, hrest⟩ := Option.bind_eq_some_iff.1 hrun
    exact (ih hrest).trans (config_step hu)

/-- The uses since the last one of `x` are among those since any one of them. -/
theorem mem_of_mem_takeWhile {recent h : List MessageId} {x y : MessageId}
    (hy : y ∈ (recent ++ x :: h).takeWhile fun z => z ≠ x) : y ∈ recent ∧ y ≠ x := by
  induction recent with
  | nil => simp at hy
  | cons z recent ih =>
    by_cases hz : z = x
    · subst hz
      simp at hy
    · have hcons : y = z ∨ y ∈ (recent ++ x :: h).takeWhile fun z => z ≠ x := by
        simpa [hz] using hy
      rcases hcons with rfl | hrest
      · exact ⟨List.mem_cons_self, hz⟩
      · exact (ih hrest).imp_left (List.mem_cons_of_mem _)

/-- After the events `before`, the event `first` delivers or broadcasts `x`; the events `between`
follow, and then `second` delivers `x`. -/
def Repeats (verifier : Verifier) (start : Endpoint) (before : List Event) (first : Event)
    (between : List Event) (second : Event) (x : MessageId) : Prop :=
  ∃ s t, run (step verifier) before start = some s ∧
    run (step verifier) (first :: between) s = some t ∧
      (first.delivers verifier s = some x ∨ first.announces = some x) ∧
        second.delivers verifier t = some x

/-- The distinct ids that the events have the node process. -/
def distinct (verifier : Verifier) (events : List Event) : Finset MessageId :=
  (events.filterMap (Event.processed verifier)).toFinset

/-- **A node delivers what it has delivered or broadcast before** only after it has processed as
many distinct other ids as its cache has room for; so with fewer ids than that it never does. -/
theorem dedup_window (verifier : Verifier) (peerId : PeerId) (config : GossipConfig) :
    (∀ before first between second x,
      Repeats verifier (new peerId config) before first between second x →
        config.seenCacheSize ≤ ((distinct verifier between).erase x).card) ∧
    ∀ events, (distinct verifier events).card < config.seenCacheSize →
      ∀ before first between second after x,
        events = before ++ first :: between ++ second :: after →
          ¬ Repeats verifier (new peerId config) before first between second x := by
  have hwindow : ∀ before first between second x,
      Repeats verifier (new peerId config) before first between second x →
        config.seenCacheSize ≤ ((distinct verifier between).erase x).card := by
    rintro before first between second x ⟨s, t, hs, ht, hfirst, hsecond⟩
    have hprocessed : first.processed verifier = some x := by
      rcases hfirst with hfirst | hfirst
      · exact Event.processed_of_delivers hfirst
      · exact Event.processed_of_announces hfirst
    have hstart : (new peerId config).Caches [] := by
      simp [Caches, new, GossipNode.new, Lru.recency]
    have hcache := (hstart.run hs).run ht
    have hhistory : history verifier (first :: between) =
        history verifier between ++ [x] := by
      simp [history, hprocessed]
    rw [Caches, config_run ht, config_run hs, hhistory, List.append_nil, List.append_assoc,
      List.singleton_append] at hcache
    have hout := Event.not_mem_of_delivers hsecond
    rw [hcache] at hout
    refine (Lru.le_card_of_evicted (by simp) hout).trans (Finset.card_le_card fun y hy => ?_)
    obtain ⟨hmem, hne⟩ := mem_of_mem_takeWhile (List.mem_toFinset.1 hy)
    refine Finset.mem_erase.2 ⟨hne, List.mem_toFinset.2 ?_⟩
    simpa [history] using hmem
  refine ⟨hwindow, ?_⟩
  rintro events hfew before first between second after x rfl hrepeats
  have hle := hwindow before first between second x hrepeats
  have hsub : (distinct verifier between).erase x ⊆
      distinct verifier (before ++ first :: between ++ second :: after) := by
    intro y hy
    have hmem := List.mem_toFinset.1 (Finset.mem_of_mem_erase hy)
    have hpart : between.Sublist (before ++ first :: between ++ second :: after) := by
      rw [List.append_assoc]
      refine List.Sublist.trans ?_ (List.sublist_append_right before _)
      exact (List.sublist_append_left between _).trans (List.sublist_cons_self first _)
    exact List.mem_toFinset.2 ((hpart.filterMap _).subset hmem)
  have hcard := Finset.card_le_card hsub
  omega

/-! ## A cache with room for one id -/

/-- A frame with the envelope arrives. -/
def arrives (e : GossipEnvelope) : Event := .incoming e .trivial 0

/-- Another message, under an id of its own. -/
def stranger : GossipEnvelope := { squatter with id := ⟨.fill 32 6⟩ }

/-- One other message is enough to have the claim delivered twice. -/
theorem dedup_window_one :
    1 ≤ ((distinct (fun _ _ _ => true) [arrives stranger]).erase honestClaim.id).card := by
  refine (dedup_window (fun _ _ _ => true) ⟨.fill 32 9⟩ ⟨3, 3, 1⟩).1 [] (arrives honestClaim)
    [arrives stranger] (arrives honestClaim) honestClaim.id ⟨_, _, rfl, rfl, .inl ?_, ?_⟩
  · decide +kernel
  · decide +kernel

end Endpoint

end ProofMarket
