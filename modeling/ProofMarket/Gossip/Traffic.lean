import ProofMarket.Gossip.Mesh
import ProofMarket.Lib.Branching

/-!
# Gossip dies out

Every receipt uses up one envelope and passes on copies with a smaller ttl, to `fanout` peers at
most. The ttl alone ends every schedule, whatever the caches hold and forget.

**Theorem (`traffic_bounded`).** With a fanout of `f`, an envelope of ttl `t` causes
`1 + f + … + f ^ (max t 1 - 1)` receipts at most, itself included, and a broadcast causes
`f + … + f ^ (max maxTtl 1)` transmissions at most. Ttl 0 counts like 1: neither is passed on.
-/

namespace ProofMarket.Mesh

open Branching

section Spread

variable {ν ι : Type} {verifier : Verifier} {wiring : Wiring ν} {s : Mesh ν ι} {p : Packet ν ι}
  {rng : Shuffle}

/-- How often a packet can still be passed on. -/
def hops (p : Packet ν ι) : ℕ := p.envelope.ttl.toNat - 1

theorem length_spread_le :
    (spread verifier wiring s p rng).length ≤ (s.nodes p.dest).config.fanout := by
  refine (length_route_le _ _ _).trans ?_
  by_cases h : p.envelope.verify verifier = true ∧ p.envelope.id ∉ (s.nodes p.dest).seen
  · rw [GossipNode.sent_processIncoming_new h.1 h.2, List.length_map]
    refine (GossipNode.length_filter_le_of_subset _).trans ?_
    unfold GossipNode.relays
    split_ifs
    · exact GossipNode.length_pickPeers_le _ _ _
    · exact Nat.zero_le _
  · rw [GossipNode.sent_processIncoming_old h]
    exact Nat.zero_le _

theorem envelope_of_mem_spread {q : Packet ν ι} (h : q ∈ spread verifier wiring s p rng) :
    1 < p.envelope.ttl ∧ q.envelope = p.envelope.countDown ∧ q.root = p.root := by
  obtain ⟨c, hsent, -, hroot⟩ := mem_route.1 h
  obtain ⟨httl, henv⟩ := GossipNode.eq_of_mem_sent hsent
  exact ⟨httl, henv, hroot⟩

theorem hops_lt_of_mem_spread {q : Packet ν ι} (h : q ∈ spread verifier wiring s p rng) :
    hops q < hops p := by
  obtain ⟨httl, henv, -⟩ := envelope_of_mem_spread h
  have hdown := GossipEnvelope.ttl_countDown httl
  have hone : 1 < p.envelope.ttl.toNat := httl
  unfold hops
  rw [henv]
  omega

theorem sum_hops (f : ℕ) (p : Packet ν ι) :
    cost f (hops p) = ∑ k ∈ Finset.range (max p.envelope.ttl.toNat 1), f ^ k := by
  unfold cost hops
  congr 2
  omega

end Spread

variable {ν ι : Type} [DecidableEq ν] [DecidableEq ι] {verifier : Verifier} {wiring : Wiring ν}
  {s t : Mesh ν ι} {p : Packet ν ι} {rng : Shuffle}

/-- **A receipt is a branching step.** -/
theorem branches {f : ℕ} (hf : (s.nodes p.dest).config.fanout ≤ f)
    (h : step verifier wiring s (.receive p rng) = some t) :
    Step f hops Packet.root s.flight p t.flight := by
  obtain ⟨hp, rfl⟩ := step_receive h
  refine ⟨s.flight.erase p, spread verifier wiring s p rng, (Multiset.cons_erase hp).symm, rfl,
    length_spread_le.trans hf, ?_⟩
  intro q hq
  exact ⟨hops_lt_of_mem_spread hq, (envelope_of_mem_spread hq).2.2⟩

/-- Receipts one after another. -/
def receipts (schedule : List (Packet ν ι × Shuffle)) : List (Label ν ι) :=
  schedule.map fun x => .receive x.1 x.2

theorem branching_run {f : ℕ} {schedule : List (Packet ν ι × Shuffle)}
    (hf : ∀ v, (s.nodes v).config.fanout ≤ f)
    (h : Transition.run (step verifier wiring) (receipts schedule) s = some t) :
    Run f hops Packet.root s.flight (schedule.map Prod.fst) t.flight := by
  induction schedule generalizing s with
  | nil =>
    cases h
    exact .nil _
  | cons x schedule ih =>
    obtain ⟨u, hu, hrest⟩ := Option.bind_eq_some_iff.1 h
    refine .cons (branches (hf _) hu) (ih ?_ hrest)
    intro v
    rw [config_step hu]
    exact hf v

theorem budget_broadcast {f : ℕ} {v : ν} {m : GossipMessage} {id : MessageId} {sig : FixedBytes 64}
    {root : ι} (hf : (s.nodes v).config.fanout ≤ f) (hroot : ∀ p ∈ s.flight, p.root ≠ root) :
    budget f hops Packet.root root (s.broadcast wiring v rng m id sig root).flight ≤
      f * cost f ((s.nodes v).config.maxTtl.toNat - 1) := by
  let fresh := route wiring v root ((s.nodes v).sent ((s.nodes v).broadcast rng m id sig))
  have hflight : (s.broadcast wiring v rng m id sig root).flight = ↑fresh + s.flight := rfl
  have hlength : fresh.length ≤ f := by
    refine (length_route_le _ _ _).trans ?_
    rw [GossipNode.sent_broadcast, List.length_map]
    exact (GossipNode.length_filter_le_of_subset _).trans
      ((GossipNode.length_pickPeers_le _ _ _).trans hf)
  have hhops : ∀ q ∈ (fresh : Multiset (Packet ν ι)), hops q ≤
      (s.nodes v).config.maxTtl.toNat - 1 := by
    intro q hq
    obtain ⟨c, hsent, -, -⟩ := mem_route.1 (Multiset.mem_coe.1 hq)
    rw [GossipNode.sent_broadcast] at hsent
    obtain ⟨k, -, heq⟩ := List.mem_map.1 hsent
    have henv : q.envelope = (s.nodes v).envelope m id sig := (congrArg Prod.snd heq).symm
    unfold hops
    rw [henv]
    rfl
  have hnone : s.flight.filter (fun p => p.root = root) = 0 := Multiset.filter_eq_nil.2 hroot
  unfold budget
  rw [hflight, Multiset.filter_add, hnone, Multiset.add_zero]
  calc worth f hops ((fresh : Multiset (Packet ν ι)).filter fun p => p.root = root)
      ≤ ((fresh : Multiset (Packet ν ι)).filter fun p => p.root = root).card *
          cost f ((s.nodes v).config.maxTtl.toNat - 1) :=
        worth_le _ fun q hq => hhops q (Multiset.mem_of_mem_filter hq)
    _ ≤ f * cost f ((s.nodes v).config.maxTtl.toNat - 1) := by
        refine Nat.mul_le_mul_right _ ?_
        exact (Multiset.card_le_card (Multiset.filter_le _ _)).trans hlength

theorem mul_cost (f : ℕ) (n : ℕ) :
    f * cost f (n - 1) = ∑ k ∈ Finset.range (max n 1), f ^ (k + 1) := by
  have hmax : n - 1 + 1 = max n 1 := by omega
  rw [cost, hmax, Finset.mul_sum]
  simp only [pow_succ']

/-- **Traffic is bounded.** From any state, without new broadcasts: no schedule of receipts is
infinite; an envelope in flight, the only one with its root, causes a bounded number of receipts;
and so does a broadcast, all its transmissions counted, received or still in flight. -/
theorem traffic_bounded (verifier : Verifier) (wiring : Wiring ν) (f : ℕ) (s : Mesh ν ι)
    (hf : ∀ v, (s.nodes v).config.fanout ≤ f) :
    (∀ (state : ℕ → Mesh ν ι) (received : ℕ → Packet ν ι × Shuffle), state 0 = s →
      ¬ ∀ n, step verifier wiring (state n) (.receive (received n).1 (received n).2) =
        some (state (n + 1))) ∧
    (∀ schedule t, Transition.run (step verifier wiring) (receipts schedule) s = some t →
      ∀ p, s.flight.filter (fun q => q.root = p.root) = {p} →
        (schedule.map Prod.fst).countP (fun q => q.root = p.root) ≤
          ∑ k ∈ Finset.range (max p.envelope.ttl.toNat 1), f ^ k) ∧
    ∀ v rng m id sig root, (∀ p ∈ s.flight, p.root ≠ root) → ∀ schedule t,
      Transition.run (step verifier wiring)
        (.broadcast v rng m id sig root :: receipts schedule) s = some t →
      (schedule.map Prod.fst).countP (fun q => q.root = root) +
          (t.flight.filter fun q => q.root = root).card ≤
        ∑ k ∈ Finset.range (max (s.nodes v).config.maxTtl.toNat 1), f ^ (k + 1) := by
  refine ⟨?_, ?_, ?_⟩
  · intro state received hzero hsteps
    have hfanout : ∀ n v, ((state n).nodes v).config.fanout ≤ f := by
      intro n
      induction n with
      | zero =>
        rw [hzero]
        exact hf
      | succ n ih =>
        intro v
        rw [config_step (hsteps n)]
        exact ih v
    exact not_infinite (fun n => (state n).flight) (fun n => (received n).1)
      fun n => branches (hfanout n _) (hsteps n)
  · intro schedule t hrun p hp
    have hcount := (branching_run hf hrun).countP_add_budget_le p.root
    rw [budget_of_unique hp, sum_hops] at hcount
    omega
  · intro v rng m id sig root hroot schedule t hrun
    obtain ⟨u, hu, hrest⟩ := Option.bind_eq_some_iff.1 hrun
    have hbudget : budget f hops Packet.root root (s.broadcast wiring v rng m id sig root).flight ≤
        f * cost f ((s.nodes v).config.maxTtl.toNat - 1) := budget_broadcast (hf v) hroot
    have hfu : ∀ w, (u.nodes w).config.fanout ≤ f := by
      intro w
      rw [config_step hu]
      exact hf w
    cases hu
    have hcount := (branching_run hfu hrest).countP_add_card_le root
    rw [mul_cost] at hbudget
    omega

/-! ## A broadcast among neighbours -/

/-- Three nodes, each connected with the others. -/
def threeNodes : Mesh (Fin 3) Unit := onGraph (fun v w => v ≠ w) .new

def threeWired : Wiring (Fin 3) := graphWiring fun v w => v ≠ w

/-- What node 0 broadcasts. -/
def rejection : GossipEnvelope :=
  ⟨⟨.fill 32 5⟩, ⟨.fill 32 0⟩, 3, .claimRejected ⟨.fill 32 7⟩ "", .fill 64 0⟩

/-- Both other nodes receive it and pass it on to each other. -/
def bothReceive : List (Packet (Fin 3) Unit × Shuffle) :=
  [(⟨1, 0, rejection, ()⟩, .trivial), (⟨2, 0, rejection, ()⟩, .trivial)]

theorem traffic_bounded_three : ∃ t,
    Transition.run (step (fun _ _ _ => true) threeWired)
      (.broadcast 0 .trivial rejection.payload rejection.id rejection.signature () ::
        receipts bothReceive) threeNodes = some t ∧
    t.delivered 1 = [rejection] ∧ t.delivered 2 = [rejection] ∧ t.flight.card = 2 ∧
    bothReceive.length + (t.flight.filter fun q => q.root = ()).card ≤ 39 := by
  have hrun : (Transition.run (step (fun _ _ _ => true) threeWired)
      (.broadcast 0 .trivial rejection.payload rejection.id rejection.signature () ::
        receipts bothReceive) threeNodes).map (fun t =>
          (t.delivered 1, t.delivered 2, t.flight.card)) =
            some ([rejection], [rejection], 2) := by
    decide +kernel
  obtain ⟨t, ht, hseen⟩ := Option.map_eq_some_iff.1 hrun
  have hbound := (traffic_bounded (fun _ _ _ => true) threeWired 3 threeNodes
    fun _ => le_rfl).2.2 0 .trivial rejection.payload rejection.id rejection.signature ()
    (by simp [threeNodes, onGraph]) bothReceive t ht
  refine ⟨t, ht, congrArg Prod.fst hseen, congrArg (fun x => x.2.1) hseen,
    congrArg (fun x => x.2.2) hseen, ?_⟩
  simpa [bothReceive, threeNodes, onGraph, GossipConfig.new, Finset.sum_range_succ] using hbound

/-- Two nodes that are connected with each other. -/
def twoNodes (config : GossipConfig) : Mesh (Fin 2) Unit := onGraph (fun v w => v ≠ w) config

def twoWired : Wiring (Fin 2) := graphWiring fun v w => v ≠ w

/-- With `max_ttl` 0 the sum up to `f ^ max_ttl` is empty, and still one envelope is sent. -/
theorem ttl_zero_sent :
    let s := twoNodes ⟨3, 0, 10000⟩
    ¬ ((s.broadcast twoWired 0 .trivial (.claimRejected ⟨.fill 32 7⟩ "") ⟨.fill 32 5⟩ (.fill 64 0)
        ()).flight.filter fun q => q.root = ()).card ≤
      ∑ k ∈ Finset.range (s.nodes 0).config.maxTtl.toNat, 3 ^ (k + 1) := by
  decide +kernel

end ProofMarket.Mesh
