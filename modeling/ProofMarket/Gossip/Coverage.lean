import Mathlib.Tactic.FinCases
import ProofMarket.Gossip.Spreading

/-!
# Who gets a broadcast

A node passes on only the first copy it gets, with the ttl of that copy. When a copy that came a
longer way arrives first, its ttl may be used up, and what the node could have passed on is dropped.

**Theorem (`coverage`).** When all copies have arrived, no node has delivered the message more than
once. Every node but the broadcaster has delivered it, unless on every path to it the copy of some
inner node was on its last hop.

`Spreading` says that a node which passed the message on has reached its neighbours. So the message
gets on along a path until it is spent.
-/

namespace ProofMarket.Mesh

section Quiet

variable {ν ι : Type} {wiring : Wiring ν} {s : Mesh ν ι} {u : ν} {env : GossipEnvelope}

/-- How often a node has delivered the message with the id. -/
def deliveries (s : Mesh ν ι) (x : MessageId) (v : ν) : ℕ :=
  (s.delivered v).countP fun e => e.id = x

/-- The copy that the node delivered was on its last hop. -/
def Spent (s : Mesh ν ι) (x : MessageId) (v : ν) : Prop :=
  ∃ e ∈ s.delivered v, e.id = x ∧ e.ttl ≤ 1

theorem Spreading.deliveries_le (hs : Spreading wiring u env s) (v : ν) :
    deliveries s env.id v ≤ 1 := by
  by_cases hv : v = u
  · subst hv
    exact hs.never.trans_le (Nat.zero_le 1)
  · refine (hs.once v hv).trans_le ?_
    split_ifs <;> omega

/-- When nothing is in flight any more, a node that offered the message has all its neighbours
covered. -/
theorem Spreading.covered (hs : Spreading wiring u env s)
    (hdone : ∀ p ∈ s.flight, p.envelope.id ≠ env.id) {v w : ν} {c d : ConnectionId}
    (hwire : wiring v c = some (w, d)) (hoffers : Offers u env s v) (hw : w ≠ u) :
    deliveries s env.id w = 1 := by
  rcases hs.offered hwire hoffers with hseen | ⟨p, hp, -, hid⟩
  · exact (hs.once w hw).trans (if_pos hseen)
  · exact absurd hid (hdone p hp)

theorem exists_wired {v w : ν} (hj : Joined wiring s) (h : (topology wiring).Adj v w) :
    ∃ c d, wiring v c = some (w, d) := by
  rcases h.2 with hforth | ⟨c, d, hback⟩
  · exact hforth
  · exact ⟨d, c, hj.back hback⟩

/-- **Along a path on which it is not spent** the message gets on. -/
theorem Spreading.along (hj : Joined wiring s) (hs : Spreading wiring u env s)
    (hdone : ∀ p ∈ s.flight, p.envelope.id ≠ env.id) {w : ν} (hw : w ≠ u) {v : ν}
    (walk : (topology wiring).Walk v w) (hne : v ≠ w) (hoffers : Offers u env s v)
    (hfree : ∀ a ∈ walk.support, a ≠ u → a ≠ w → ¬ Spent s env.id a) :
    deliveries s env.id w = 1 := by
  induction walk with
  | nil => exact absurd rfl hne
  | @cons v a w hadj rest ih =>
    obtain ⟨c, d, hwire⟩ := exists_wired hj hadj
    by_cases haw : a = w
    · subst haw
      exact hs.covered hdone hwire hoffers hw
    · refine ih hw haw ?_ fun b hb => hfree b (List.mem_cons_of_mem _ hb)
      by_cases hau : a = u
      · exact .inl hau
      · -- The next node has delivered a copy that it passed on.
        have hpos : 0 < deliveries s env.id a := by
          rw [hs.covered hdone hwire hoffers hau]
          exact Nat.one_pos
        obtain ⟨e, he, hid⟩ := List.countP_pos_iff.1 hpos
        have heid : e.id = env.id := of_decide_eq_true hid
        have hnot := hfree a (List.mem_cons_of_mem _ rest.start_mem_support) hau haw
        exact .inr ⟨e, he, heid, UInt8.not_le.1 fun hlast => hnot ⟨e, he, heid, hlast⟩⟩

end Quiet

variable {ν ι : Type} [DecidableEq ν] [DecidableEq ι] {verifier : Verifier} {wiring : Wiring ν}
  {s t : Mesh ν ι} {u : ν} {env : GossipEnvelope}

/-- What a run that only broadcasts other messages and never overflows a cache may do. -/
def Calm (x : MessageId) (s : Mesh ν ι) (l : Label ν ι) : Prop := Roomy s ∧ l.Elsewhere x

/-- **The invariant along a run.** -/
theorem Spreading.run (hj : Joined wiring s) (hconn : (topology wiring).Connected)
    (hsig : env.verify verifier = true) (hs : Spreading wiring u env s)
    (h : Transition.Steps (Mesh.step verifier wiring) (Calm env.id) s t) :
    Joined wiring t ∧ Spreading wiring u env t := by
  refine h.invariant (I := fun s => Joined wiring s ∧ Spreading wiring u env s) ?_ ⟨hj, hs⟩
  rintro s l t ⟨hj, hs⟩ ⟨hroom, hl⟩ hst
  exact ⟨hj.step hst, hs.step hj hconn hroom hsig hl hst⟩

/-- **Who gets a broadcast**, when no copy of it is in flight any more. -/
theorem coverage (verifier : Verifier) (wiring : Wiring ν) (s t : Mesh ν ι) (u : ν) (rng : Shuffle)
    (m : GossipMessage) (id : MessageId) (sig : FixedBytes 64) (root : ι) (hj : Joined wiring s)
    (hconn : (topology wiring).Connected) (hroom : Roomy s) (hunused : Unused id s)
    (hsig : ((s.nodes u).envelope m id sig).verify verifier = true)
    (hrun : Transition.Steps (step verifier wiring) (Calm id)
      (s.broadcast wiring u rng m id sig root) t)
    (hdone : ∀ p ∈ t.flight, p.envelope.id ≠ id) :
    (∀ v, deliveries t id v ≤ 1 ∧ ∀ e ∈ t.delivered v, e.id = id → e.payload = m) ∧
    deliveries t id u = 0 ∧
    ∀ w, w ≠ u → deliveries t id w = 1 ∨
      ∀ walk : (topology wiring).Walk u w, ∃ v ∈ walk.support, v ≠ u ∧ v ≠ w ∧ Spent t id v := by
  have hfirst : step verifier wiring s (.broadcast u rng m id sig root) =
      some (s.broadcast wiring u rng m id sig root) := rfl
  obtain ⟨hjt, hst⟩ := (hunused.spreading hj hconn hroom).run (hj.step hfirst) hconn hsig hrun
  refine ⟨?_, hst.never, ?_⟩
  · intro v
    refine ⟨hst.deliveries_le v, ?_⟩
    intro e he hid
    rw [(hst.kept v e he hid).1]
    rfl
  · intro w hw
    rw [or_iff_not_imp_right]
    intro hsome
    push Not at hsome
    obtain ⟨walk, hfree⟩ := hsome
    exact hst.along hjt hdone hw walk hw.symm (.inl rfl) hfree

/-! ## A race -/

section Decide

variable {n : ℕ} {ι : Type}

instance (s : Mesh (Fin n) ι) : Decidable (Roomy s) :=
  inferInstanceAs (Decidable (∀ v, (s.nodes v).seen.length < (s.nodes v).config.seenCacheSize))

instance (x : MessageId) : ∀ l : Label (Fin n) ι, Decidable (l.Elsewhere x)
  | .receive _ _ => .isTrue trivial
  | .broadcast _ _ _ id _ _ => inferInstanceAs (Decidable (id ≠ x))

instance (x : MessageId) (s : Mesh (Fin n) ι) (l : Label (Fin n) ι) : Decidable (Calm x s l) :=
  inferInstanceAs (Decidable (_ ∧ _))

end Decide

theorem joined_onGraph {n : ℕ} {adj : Fin n → Fin n → Bool} {config : GossipConfig}
    (hsymm : ∀ v w, adj v w = adj w v)
    (hdegree : ∀ v, ((List.finRange n).filter fun w => adj v w).length ≤ config.fanout) :
    Joined (graphWiring adj) (onGraph adj config) := by
  refine ⟨?_, ?_, ?_⟩
  · intro v c w d h
    unfold graphWiring at h ⊢
    split_ifs at h with hc hadj
    cases h
    rw [dif_pos v.isLt, if_pos (by rw [hsymm]; exact hadj)]
  · intro v c
    unfold graphWiring
    simp only [GossipNode.ids, onGraph, List.map_map, List.mem_map, List.mem_filter,
      List.mem_finRange, true_and, Function.comp]
    constructor
    · rintro ⟨w, hadj, rfl⟩
      simp [hadj]
    · intro h
      split_ifs at h with hc hadj
      · exact ⟨⟨c, hc⟩, hadj, rfl⟩
      · cases h
      · cases h
  · intro v
    simpa [onGraph, GossipNode.ids] using hdegree v

local instance : NeZero 5 := ⟨by decide⟩

/-- Nodes 0, 1 and 2 know each other, 3 hangs on 2 and 4 on 3. -/
def raceAdj (v w : Fin 5) : Bool :=
  let edges : List (Fin 5 × Fin 5) := [(0, 1), (0, 2), (1, 2), (2, 3), (3, 4)]
  (v, w) ∈ edges || (w, v) ∈ edges

def raceStart : Mesh (Fin 5) Unit := onGraph raceAdj .new

def raceId : MessageId := ⟨.fill 32 5⟩

/-- Node 0 has broadcast. -/
def raceBroadcast : Mesh (Fin 5) Unit :=
  raceStart.broadcast (graphWiring raceAdj) 0 .trivial (.claimRejected ⟨.fill 32 7⟩ "") raceId
    (.fill 64 0) ()

/-- What arrives at a node from another, with the ttl. -/
def arrival (v w : Fin 5) (ttl : UInt8) : Label (Fin 5) Unit :=
  .receive ⟨v, w, { (raceStart.nodes 0).envelope (.claimRejected ⟨.fill 32 7⟩ "") raceId
    (.fill 64 0) with ttl := ttl }, ()⟩ .trivial

/-- The copy from 1 reaches node 2 before the one from 0. -/
def race : List (Label (Fin 5) Unit) :=
  [arrival 1 0 3, arrival 2 1 2, arrival 2 0 3, arrival 0 2 1, arrival 3 2 1]

theorem exists_race : ∃ t,
    Transition.Steps (step (fun _ _ _ => true) (graphWiring raceAdj)) (Calm raceId)
      raceBroadcast t ∧
    (t.flight, deliveries t raceId 4, (t.delivered 2).map GossipEnvelope.ttl) = (0, 0, [2]) := by
  have hrun : (Transition.run (Transition.checked (step (fun _ _ _ => true) (graphWiring raceAdj))
      (Calm raceId)) race raceBroadcast).map (fun t =>
        (t.flight, deliveries t raceId 4, (t.delivered 2).map GossipEnvelope.ttl)) =
          some (0, 0, [2]) := by
    decide +kernel
  exact Transition.exists_of_checked hrun

theorem race_joined : Joined (graphWiring raceAdj) raceStart :=
  joined_onGraph (by decide) (by decide)

theorem race_adj {v w : Fin 5} (h : raceAdj v w = true) (hne : v ≠ w) :
    (topology (graphWiring raceAdj)).Adj v w :=
  ⟨hne, .inl ⟨w, v, by simp [graphWiring, h]⟩⟩

/-- From node 0 to node 3. -/
def raceWalk : (topology (graphWiring raceAdj)).Walk 0 3 :=
  .cons (race_adj (v := 0) (w := 2) rfl (by decide))
    (.cons (race_adj (v := 2) (w := 3) rfl (by decide)) .nil)

theorem race_reachable (v : Fin 5) : (topology (graphWiring raceAdj)).Reachable 0 v := by
  fin_cases v
  · rfl
  · exact (race_adj (v := 0) (w := 1) rfl (by decide)).reachable
  · exact (race_adj (v := 0) (w := 2) rfl (by decide)).reachable
  · exact raceWalk.reachable
  · exact raceWalk.reachable.trans (race_adj (v := 3) (w := 4) rfl (by decide)).reachable

theorem race_connected : (topology (graphWiring raceAdj)).Connected where
  preconnected v w := (race_reachable v).symm.trans (race_reachable w)
  nonempty := ⟨0⟩

theorem coverage_race : ∃ t : Mesh (Fin 5) Unit, t.flight = 0 ∧ deliveries t raceId 0 = 0 ∧
    deliveries t raceId 1 = 1 ∧ deliveries t raceId 2 = 1 ∧ deliveries t raceId 3 = 1 := by
  obtain ⟨t, hrun, ht⟩ := exists_race
  have hflight : t.flight = 0 := congrArg Prod.fst ht
  have hsecond : (t.delivered 2).map GossipEnvelope.ttl = [2] := congrArg (fun x => x.2.2) ht
  obtain ⟨-, hnever, hcover⟩ := coverage (fun _ _ _ => true) (graphWiring raceAdj) raceStart t 0
    .trivial (.claimRejected ⟨.fill 32 7⟩ "") raceId (.fill 64 0) () race_joined race_connected
    (by decide) ⟨by decide, by simp [raceStart, onGraph], by simp [raceStart, onGraph]⟩ rfl hrun
    (by simp [hflight])
  -- Node 2 passes on what it got.
  have hon : ¬ Spent t raceId 2 := by
    rintro ⟨e, he, -, httl⟩
    have hmem : e.ttl ∈ (t.delivered 2).map GossipEnvelope.ttl := List.mem_map_of_mem he
    rw [hsecond, List.mem_singleton] at hmem
    rw [hmem] at httl
    exact absurd httl (by decide)
  refine ⟨t, hflight, hnever, ?_, ?_, ?_⟩
  · refine (hcover 1 (by decide)).resolve_right fun hall => ?_
    obtain ⟨v, hv, hfirst, hlast, -⟩ :=
      hall (.cons (race_adj (v := 0) (w := 1) rfl (by decide)) .nil)
    simp [hfirst, hlast] at hv
  · refine (hcover 2 (by decide)).resolve_right fun hall => ?_
    obtain ⟨v, hv, hfirst, hlast, -⟩ :=
      hall (.cons (race_adj (v := 0) (w := 2) rfl (by decide)) .nil)
    simp [hfirst, hlast] at hv
  · refine (hcover 3 (by decide)).resolve_right fun hall => ?_
    obtain ⟨v, hv, hfirst, hlast, hspent⟩ := hall raceWalk
    obtain rfl : v = 2 := by simpa [raceWalk, hfirst, hlast] using hv
    exact hon hspent

/-- **Node 4 is three hops away and never gets the message**, in a connected network in which
nothing is lost or forgotten. -/
theorem race_uncovered :
    Joined (graphWiring raceAdj) raceStart ∧ (topology (graphWiring raceAdj)).Connected ∧
    Unused raceId raceStart ∧
    ¬ ∀ t, Transition.Steps (step (fun _ _ _ => true) (graphWiring raceAdj)) (Calm raceId)
        raceBroadcast t → (∀ p ∈ t.flight, p.envelope.id ≠ raceId) →
      ∀ w, 1 ≤ (topology (graphWiring raceAdj)).dist 0 w →
        (topology (graphWiring raceAdj)).dist 0 w ≤ (raceStart.nodes 0).config.maxTtl.toNat →
        deliveries t raceId w = 1 := by
  refine ⟨race_joined, race_connected,
    ⟨by decide, by simp [raceStart, onGraph], by simp [raceStart, onGraph]⟩, ?_⟩
  intro hall
  obtain ⟨t, hrun, ht⟩ := exists_race
  have hflight : t.flight = 0 := congrArg Prod.fst ht
  have hzero : deliveries t raceId 4 = 0 := congrArg (fun x => x.2.1) ht
  let walk : (topology (graphWiring raceAdj)).Walk 0 4 :=
    raceWalk.append (.cons (race_adj (v := 3) (w := 4) rfl (by decide)) .nil)
  have hnear : (topology (graphWiring raceAdj)).dist 0 4 ≤ 3 := SimpleGraph.dist_le walk
  have hone := hall t hrun (by simp [hflight]) 4
    (race_connected.pos_dist_of_ne (by decide)) hnear
  omega

end ProofMarket.Mesh
