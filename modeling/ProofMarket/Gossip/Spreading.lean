import Mathlib.Combinatorics.SimpleGraph.Metric
import ProofMarket.Gossip.Mesh

/-!
# A broadcast spreads

What holds of one broadcast while its copies go through a network in which nothing is lost and
nothing forgotten.

**The invariant (`Spreading`).**

- Every copy, in flight or delivered, is the broadcast envelope with a smaller ttl, and the ttl has
  been counted down at least once for each hop away from the broadcaster.
- A node has the id in its cache exactly when it has delivered the message, once; the broadcaster
  has it and delivers nothing.
- Whoever sent a copy has the id. A node that passed the message on, or broadcast it, has reached
  all its neighbours: they have the id, or a copy is on its way to them.
-/

namespace ProofMarket.Mesh

variable {ν ι : Type}

/-- The nodes and the connections between them. -/
def topology (wiring : Wiring ν) : SimpleGraph ν :=
  .fromRel fun v w => ∃ c d, wiring v c = some (w, d)

/-- Every connection has two ends that are both alive, and no node has more of them than its
fanout. -/
structure Joined (wiring : Wiring ν) (s : Mesh ν ι) : Prop where
  back : ∀ {v c w d}, wiring v c = some (w, d) → wiring w d = some (v, c)
  live : ∀ {v c}, c ∈ (s.nodes v).ids ↔ (wiring v c).isSome
  narrow : ∀ v, (s.nodes v).ids.length ≤ (s.nodes v).config.fanout

/-- No cache evicts anything when one more id is put into it. -/
def Roomy (s : Mesh ν ι) : Prop :=
  ∀ v, (s.nodes v).seen.length < (s.nodes v).config.seenCacheSize

/-- A copy of `env` as it can be at `v`. -/
def Near (wiring : Wiring ν) (u : ν) (env : GossipEnvelope) (v : ν) (e : GossipEnvelope) : Prop :=
  e = { env with ttl := e.ttl } ∧
    e.ttl.toNat + (topology wiring).dist u v ≤ env.ttl.toNat + 1

/-- The node has sent copies of `env` to its neighbours. -/
def Offers (u : ν) (env : GossipEnvelope) (s : Mesh ν ι) (v : ν) : Prop :=
  v = u ∨ ∃ e ∈ s.delivered v, e.id = env.id ∧ 1 < e.ttl

/-- `u` has broadcast `env`. -/
structure Spreading (wiring : Wiring ν) (u : ν) (env : GossipEnvelope) (s : Mesh ν ι) : Prop where
  origin : env.id ∈ (s.nodes u).seen
  copies : ∀ p ∈ s.flight, p.envelope.id = env.id → Near wiring u env p.dest p.envelope
  kept : ∀ v, ∀ e ∈ s.delivered v, e.id = env.id → Near wiring u env v e
  sender : ∀ p ∈ s.flight, p.envelope.id = env.id → ∀ {w d},
    wiring p.dest p.source = some (w, d) → env.id ∈ (s.nodes w).seen
  never : (s.delivered u).countP (fun e => e.id = env.id) = 0
  once : ∀ v, v ≠ u →
    (s.delivered v).countP (fun e => e.id = env.id) = if env.id ∈ (s.nodes v).seen then 1 else 0
  offered : ∀ {v c w d}, wiring v c = some (w, d) → Offers u env s v →
    env.id ∈ (s.nodes w).seen ∨ ∃ p ∈ s.flight, p.dest = w ∧ p.envelope.id = env.id

section Copies

variable {verifier : Verifier} {wiring : Wiring ν} {s t : Mesh ν ι} {p q : Packet ν ι}
  {rng : Shuffle}

theorem Joined.mem_route_iff (hj : Joined wiring s) {v : ν} {root : ι} {e : GossipEnvelope}
    {exclude : Option ConnectionId} :
    q ∈ route wiring v root
        (((s.nodes v).ids.filter fun c => c ∈ (s.nodes v).pickPeers rng exclude).map
          fun c => (c, e)) ↔
      q.envelope = e ∧ q.root = root ∧
        ∃ c, some c ≠ exclude ∧ wiring v c = some (q.dest, q.source) := by
  rw [mem_route]
  constructor
  · rintro ⟨c, hsent, hwire, hroot⟩
    obtain ⟨k, hk, heq⟩ := List.mem_map.1 hsent
    have hpicked := of_decide_eq_true (List.mem_filter.1 hk).2
    have hout := ((GossipNode.mem_pickPeers_of_le (hj.narrow v)).1 hpicked).2
    obtain ⟨rfl, rfl⟩ := Prod.mk.inj heq
    exact ⟨rfl, hroot, k, hout, hwire⟩
  · rintro ⟨rfl, hroot, c, hout, hwire⟩
    have hids : c ∈ (s.nodes v).ids := hj.live.2 (by simp [hwire])
    refine ⟨c, List.mem_map.2 ⟨c, List.mem_filter.2 ⟨hids, ?_⟩, rfl⟩, hwire, hroot⟩
    exact decide_eq_true ((GossipNode.mem_pickPeers_of_le (hj.narrow v)).2 ⟨hids, hout⟩)

/-- A new envelope with a ttl above one goes to all neighbours but the one it came from. -/
theorem Joined.mem_spread (hj : Joined wiring s) (hv : p.envelope.verify verifier = true)
    (hs : p.envelope.id ∉ (s.nodes p.dest).seen) :
    q ∈ spread verifier wiring s p rng ↔
      1 < p.envelope.ttl ∧ q.envelope = p.envelope.countDown ∧ q.root = p.root ∧
        ∃ c, c ≠ p.source ∧ wiring p.dest c = some (q.dest, q.source) := by
  unfold spread
  rw [GossipNode.sent_processIncoming_new hv hs]
  unfold GossipNode.relays
  by_cases httl : 1 < p.envelope.ttl
  · rw [if_pos httl, hj.mem_route_iff]
    simp [httl]
  · simp [httl, route]

variable {u : ν} {env : GossipEnvelope}

/-- A step that has nothing to do with the broadcast, or only drops a copy at a node that has seen
it. -/
theorem Spreading.other (hs : Spreading wiring u env s)
    (hseen : ∀ v, env.id ∈ (t.nodes v).seen ↔ env.id ∈ (s.nodes v).seen)
    (hdelivered : ∀ v, (t.delivered v).filter (fun e => e.id = env.id) =
      (s.delivered v).filter fun e => e.id = env.id)
    (hflight : ∀ p ∈ t.flight, p.envelope.id = env.id → p ∈ s.flight)
    (hkeep : ∀ p ∈ s.flight, p.envelope.id = env.id →
      p ∈ t.flight ∨ env.id ∈ (s.nodes p.dest).seen) : Spreading wiring u env t := by
  have hmem : ∀ v e, e.id = env.id → (e ∈ t.delivered v ↔ e ∈ s.delivered v) := by
    intro v e he
    have hfilter : e ∈ (t.delivered v).filter (fun e => e.id = env.id) ↔
        e ∈ (s.delivered v).filter fun e => e.id = env.id := by rw [hdelivered]
    simpa [he] using hfilter
  have hcount : ∀ v, (t.delivered v).countP (fun e => e.id = env.id) =
      (s.delivered v).countP fun e => e.id = env.id := by
    intro v
    rw [List.countP_eq_length_filter, List.countP_eq_length_filter, hdelivered]
  refine ⟨(hseen u).2 hs.origin, ?_, ?_, ?_, ?_, ?_, ?_⟩
  · intro p hp hid
    exact hs.copies p (hflight p hp hid) hid
  · intro v e he hid
    exact hs.kept v e ((hmem v e hid).1 he) hid
  · intro p hp hid w d hwire
    exact (hseen w).2 (hs.sender p (hflight p hp hid) hid hwire)
  · rw [hcount]
    exact hs.never
  · intro v hv
    rw [hcount, hs.once v hv]
    exact if_congr (hseen v).symm rfl rfl
  · intro v c w d hwire hoffers
    have hbefore : Offers u env s v := by
      rcases hoffers with rfl | ⟨e, he, hid, httl⟩
      · exact .inl rfl
      · exact .inr ⟨e, (hmem v e hid).1 he, hid, httl⟩
    rcases hs.offered hwire hbefore with hw | ⟨p, hp, rfl, hid⟩
    · exact .inl ((hseen w).2 hw)
    · rcases hkeep p hp hid with hin | hw
      · exact .inr ⟨p, hin, rfl, hid⟩
      · exact .inl ((hseen _).2 hw)

theorem Near.verify {v : ν} {e : GossipEnvelope} (h : Near wiring u env v e) :
    e.verify verifier = env.verify verifier := by
  rw [h.1]
  rfl

theorem dist_le_of_wired (hconn : (topology wiring).Connected) {v w : ν} {c d : ConnectionId}
    (h : wiring v c = some (w, d)) :
    (topology wiring).dist u w ≤ (topology wiring).dist u v + 1 := by
  have hone : (topology wiring).dist v w ≤ 1 := by
    by_cases hvw : v = w
    · simp [hvw]
    · have hadj : (topology wiring).Adj v w := ⟨hvw, .inl ⟨c, d, h⟩⟩
      exact (SimpleGraph.dist_eq_one_iff_adj.2 hadj).le
  have htriangle := hconn.dist_triangle (u := u) (v := v) (w := w)
  omega

theorem Near.countDown (hconn : (topology wiring).Connected) {v w : ν} {c d : ConnectionId}
    {e : GossipEnvelope} (h : Near wiring u env v e) (hwire : wiring v c = some (w, d))
    (httl : 1 < e.ttl) : Near wiring u env w e.countDown := by
  have hhop := dist_le_of_wired (u := u) hconn hwire
  have hdown := GossipEnvelope.ttl_countDown httl
  have hbudget := h.2
  refine ⟨?_, by omega⟩
  rw [h.1]
  rfl

end Copies

section Step

variable [DecidableEq ν] [DecidableEq ι] {verifier : Verifier} {wiring : Wiring ν}
  {s t : Mesh ν ι} {p q : Packet ν ι} {rng : Shuffle} {x : MessageId}

theorem Joined.step {l : Label ν ι} (hj : Joined wiring s)
    (h : step verifier wiring s l = some t) : Joined wiring t := by
  have hids : ∀ v, (t.nodes v).ids = (s.nodes v).ids := by
    intro v
    cases l with
    | receive p rng =>
      obtain ⟨-, rfl⟩ := step_receive h
      rw [nodes_receive]
      by_cases hv : v = p.dest
      · subst hv
        simp
      · simp [hv]
    | broadcast u rng m id sig root =>
      cases h
      show (Function.update s.nodes u _ v).ids = _
      by_cases hv : v = u
      · subst hv
        rw [Function.update_self]
        exact GossipNode.ids_queueOn _ _ _
      · rw [Function.update_of_ne hv]
  refine ⟨hj.back, ?_, ?_⟩
  · intro v c
    rw [hids]
    exact hj.live
  · intro v
    rw [hids, config_step h]
    exact hj.narrow v

theorem seen_receive (hroom : Roomy s) {v : ν} :
    x ∈ ((s.receive verifier wiring p rng).nodes v).seen ↔
      x ∈ (s.nodes v).seen ∨
        v = p.dest ∧ p.envelope.verify verifier = true ∧ x = p.envelope.id := by
  rw [nodes_receive]
  by_cases hdest : v = p.dest
  · subst hdest
    rw [Function.update_self]
    cases hv : p.envelope.verify verifier with
    | false => simp [GossipNode.processIncoming_invalid hv]
    | true =>
      by_cases hs : p.envelope.id ∈ (s.nodes p.dest).seen
      · rw [GossipNode.processIncoming_seen hv hs]
        have hkeep : x = p.envelope.id → x ∈ (s.nodes p.dest).seen := fun h => h ▸ hs
        simp only [GossipNode.mem_touchSeen hs, true_and]
        tauto
      · rw [(GossipNode.processIncoming_new hv hs).2, GossipNode.mem_putSeen (hroom _)]
        tauto
  · simp [hdest]

theorem delivered_receive (v : ν) :
    (s.receive verifier wiring p rng).delivered v =
      if v = p.dest ∧ p.envelope.verify verifier = true ∧
          p.envelope.id ∉ (s.nodes p.dest).seen then p.envelope :: s.delivered v
      else s.delivered v := by
  show Function.update s.delivered p.dest _ v = _
  by_cases hdest : v = p.dest
  · subst hdest
    rw [Function.update_self]
    cases hv : p.envelope.verify verifier with
    | false => simp [GossipNode.processIncoming_invalid hv]
    | true =>
      by_cases hs : p.envelope.id ∈ (s.nodes p.dest).seen
      · simp [GossipNode.processIncoming_seen hv hs, hs]
      · simp [(GossipNode.processIncoming_new hv hs).1, hs]
  · simp [hdest]

theorem mem_flight_receive :
    q ∈ (s.receive verifier wiring p rng).flight ↔
      q ∈ spread verifier wiring s p rng ∨ q ∈ s.flight.erase p := by
  rw [flight_receive, Multiset.mem_add, Multiset.mem_coe]

variable {u : ν} {env : GossipEnvelope}

/-- **The first copy that a node gets.** -/
theorem Spreading.receive_new (hj : Joined wiring s) (hconn : (topology wiring).Connected)
    (hroom : Roomy s) (hsig : env.verify verifier = true) (hs : Spreading wiring u env s)
    (hp : p ∈ s.flight) (hid : p.envelope.id = env.id)
    (hnew : env.id ∉ (s.nodes p.dest).seen) :
    Spreading wiring u env (s.receive verifier wiring p rng) := by
  have hnear := hs.copies p hp hid
  have hv : p.envelope.verify verifier = true := hnear.verify.trans hsig
  have hunseen : p.envelope.id ∉ (s.nodes p.dest).seen := by
    rw [hid]
    exact hnew
  have hdest : p.dest ≠ u := fun h => hnew (h ▸ hs.origin)
  have hseen : ∀ v, env.id ∈ ((s.receive verifier wiring p rng).nodes v).seen ↔
      env.id ∈ (s.nodes v).seen ∨ v = p.dest := by
    intro v
    rw [seen_receive hroom]
    simp [hv, hid]
  have hdelivered : ∀ v, (s.receive verifier wiring p rng).delivered v =
      if v = p.dest then p.envelope :: s.delivered v else s.delivered v := by
    intro v
    rw [delivered_receive]
    simp [hv, hunseen]
  refine ⟨(hseen u).2 (.inl hs.origin), ?_, ?_, ?_, ?_, ?_, ?_⟩
  · intro q hq hqid
    rcases mem_flight_receive.1 hq with hq | hq
    · obtain ⟨httl, henv, -, c, -, hwire⟩ := (hj.mem_spread hv hunseen).1 hq
      rw [henv]
      exact hnear.countDown hconn hwire httl
    · exact hs.copies q (Multiset.mem_of_mem_erase hq) hqid
  · intro v e he heid
    rw [hdelivered] at he
    split_ifs at he with hvd
    · subst hvd
      rcases List.mem_cons.1 he with rfl | he
      · exact hnear
      · exact hs.kept _ e he heid
    · exact hs.kept v e he heid
  · intro q hq hqid w d hwire
    refine (hseen w).2 ?_
    rcases mem_flight_receive.1 hq with hq | hq
    · obtain ⟨-, -, -, c, -, hout⟩ := (hj.mem_spread hv hunseen).1 hq
      rw [hj.back hout] at hwire
      cases hwire
      exact .inr rfl
    · exact .inl (hs.sender q (Multiset.mem_of_mem_erase hq) hqid hwire)
  · rw [hdelivered, if_neg hdest.symm]
    exact hs.never
  · intro v hvu
    rw [hdelivered]
    by_cases hvd : v = p.dest
    · subst hvd
      rw [if_pos rfl, List.countP_cons, hs.once _ hvu, if_neg hnew, if_pos ((hseen _).2 (.inr rfl))]
      simp [hid]
    · rw [if_neg hvd, hs.once v hvu]
      exact if_congr (by simp [hseen, hvd]) rfl rfl
  · intro v c w d hwire hoffers
    by_cases hfresh : v = p.dest ∧ 1 < p.envelope.ttl ∧ c ≠ p.source
    · obtain ⟨rfl, httl, hc⟩ := hfresh
      refine .inr ⟨⟨w, d, p.envelope.countDown, p.root⟩, mem_flight_receive.2 (.inl ?_), rfl, hid⟩
      exact (hj.mem_spread hv hunseen).2 ⟨httl, rfl, rfl, c, hc, hwire⟩
    · by_cases hback : v = p.dest ∧ c = p.source
      · obtain ⟨rfl, rfl⟩ := hback
        exact .inl ((hseen w).2 (.inl (hs.sender p hp hid hwire)))
      · have hbefore : Offers u env s v := by
          rcases hoffers with rfl | ⟨e, he, heid, httl⟩
          · exact .inl rfl
          · rw [hdelivered] at he
            split_ifs at he with hvd
            · rcases List.mem_cons.1 he with rfl | he
              · exact absurd ⟨hvd, httl, fun hc => hback ⟨hvd, hc⟩⟩ hfresh
              · exact .inr ⟨e, he, heid, httl⟩
            · exact .inr ⟨e, he, heid, httl⟩
        rcases hs.offered hwire hbefore with hw | ⟨q, hq, rfl, hqid⟩
        · exact .inl ((hseen w).2 (.inl hw))
        · by_cases hqp : q = p
          · subst hqp
            exact .inl ((hseen _).2 (.inr rfl))
          · refine .inr ⟨q, mem_flight_receive.2 (.inr ?_), rfl, hqid⟩
            exact (Multiset.mem_erase_of_ne hqp).2 hq

/-- A receipt, or a broadcast under another id. -/
def Label.Elsewhere (x : MessageId) : Label ν ι → Prop
  | .receive .. => True
  | .broadcast _ _ _ id _ _ => id ≠ x

omit [DecidableEq ι] in
theorem seen_broadcast (hroom : Roomy s) {v w : ν} {m : GossipMessage} {id : MessageId}
    {sig : FixedBytes 64} {root : ι} :
    x ∈ ((s.broadcast wiring v rng m id sig root).nodes w).seen ↔
      x ∈ (s.nodes w).seen ∨ w = v ∧ x = id := by
  show x ∈ (Function.update s.nodes v _ w).seen ↔ _
  by_cases hw : w = v
  · subst hw
    rw [Function.update_self]
    show x ∈ GossipNode.putSeen _ id _ ↔ _
    rw [GossipNode.mem_putSeen (hroom w)]
    tauto
  · simp [hw]

omit [DecidableEq ι] in
theorem flight_broadcast {v : ν} {m : GossipMessage} {id : MessageId} {sig : FixedBytes 64}
    {root : ι} :
    (s.broadcast wiring v rng m id sig root).flight =
      ↑(route wiring v root (((s.nodes v).ids.filter
        fun c => c ∈ (s.nodes v).pickPeers rng none).map
          fun c => (c, (s.nodes v).envelope m id sig))) + s.flight := by
  rw [← GossipNode.sent_broadcast]
  rfl

/-- **Every step keeps the invariant.** -/
theorem Spreading.step {l : Label ν ι} (hj : Joined wiring s)
    (hconn : (topology wiring).Connected) (hroom : Roomy s)
    (hsig : env.verify verifier = true) (hs : Spreading wiring u env s)
    (hl : l.Elsewhere env.id) (h : step verifier wiring s l = some t) :
    Spreading wiring u env t := by
  cases l with
  | receive p rng =>
    obtain ⟨hp, rfl⟩ := step_receive h
    by_cases hid : p.envelope.id = env.id
    · by_cases hnew : env.id ∈ (s.nodes p.dest).seen
      · -- A copy at a node that has seen one before.
        have hold : ¬ (p.envelope.verify verifier = true ∧
            p.envelope.id ∉ (s.nodes p.dest).seen) := by
          rw [hid]
          exact fun h => h.2 hnew
        have hspread : spread verifier wiring s p rng = [] := by
          unfold spread
          rw [GossipNode.sent_processIncoming_old hold]
          rfl
        refine hs.other ?_ ?_ ?_ ?_
        · intro v
          rw [seen_receive hroom]
          constructor
          · rintro (hv | ⟨rfl, -, -⟩)
            · exact hv
            · exact hnew
          · exact .inl
        · intro v
          rw [delivered_receive, if_neg]
          exact fun h => hold h.2
        · intro q hq _
          rw [mem_flight_receive, hspread] at hq
          rcases hq with hq | hq
          · cases hq
          · exact Multiset.mem_of_mem_erase hq
        · intro q hq hqid
          by_cases hqp : q = p
          · subst hqp
            exact .inr hnew
          · exact .inl (mem_flight_receive.2 (.inr ((Multiset.mem_erase_of_ne hqp).2 hq)))
      · exact hs.receive_new hj hconn hroom hsig hp hid hnew
    · -- An envelope of another message.
      refine hs.other ?_ ?_ ?_ ?_
      · intro v
        rw [seen_receive hroom]
        simp [Ne.symm hid]
      · intro v
        rw [delivered_receive]
        split_ifs
        · rw [List.filter_cons_of_neg (by simpa using hid)]
        · rfl
      · intro q hq hqid
        rcases mem_flight_receive.1 hq with hq | hq
        · obtain ⟨c, hsent, -, -⟩ := mem_route.1 hq
          by_cases hnew : p.envelope.verify verifier = true ∧
              p.envelope.id ∉ (s.nodes p.dest).seen
          · obtain ⟨-, henv, -, -⟩ := (hj.mem_spread hnew.1 hnew.2).1 hq
            rw [henv] at hqid
            exact absurd hqid hid
          · rw [GossipNode.sent_processIncoming_old hnew] at hsent
            cases hsent
        · exact Multiset.mem_of_mem_erase hq
      · intro q hq hqid
        have hqp : q ≠ p := fun h => hid (h ▸ hqid)
        exact .inl (mem_flight_receive.2 (.inr ((Multiset.mem_erase_of_ne hqp).2 hq)))
  | broadcast v rng m id sig root =>
    cases h
    have hne : id ≠ env.id := hl
    refine hs.other ?_ (fun _ => rfl) ?_ ?_
    · intro w
      rw [seen_broadcast hroom]
      simp [hne.symm]
    · intro q hq hqid
      rw [flight_broadcast, Multiset.mem_add, Multiset.mem_coe] at hq
      rcases hq with hq | hq
      · obtain ⟨henv, -, -⟩ := hj.mem_route_iff.1 hq
        rw [henv] at hqid
        exact absurd hqid hne
      · exact hq
    · intro q hq _
      rw [flight_broadcast, Multiset.mem_add]
      exact .inl (.inr hq)

/-- No node has met the id. -/
structure Unused (x : MessageId) (s : Mesh ν ι) : Prop where
  seen : ∀ v, x ∉ (s.nodes v).seen
  flight : ∀ p ∈ s.flight, p.envelope.id ≠ x
  delivered : ∀ v, ∀ e ∈ s.delivered v, e.id ≠ x

omit [DecidableEq ι] in
/-- **A broadcast sets the invariant up.** -/
theorem Unused.spreading {m : GossipMessage} {id : MessageId} {sig : FixedBytes 64} {root : ι}
    (hj : Joined wiring s) (hconn : (topology wiring).Connected) (hroom : Roomy s)
    (hunused : Unused id s) :
    Spreading wiring u ((s.nodes u).envelope m id sig)
      (s.broadcast wiring u rng m id sig root) := by
  have hseen : ∀ v, id ∈ ((s.broadcast wiring u rng m id sig root).nodes v).seen ↔ v = u := by
    intro v
    rw [seen_broadcast hroom]
    simp [hunused.seen v]
  have hflight : ∀ p ∈ (s.broadcast wiring u rng m id sig root).flight, p.envelope.id = id →
      p.envelope = (s.nodes u).envelope m id sig ∧
        ∃ c, wiring u c = some (p.dest, p.source) := by
    intro p hp hid
    rw [flight_broadcast, Multiset.mem_add, Multiset.mem_coe] at hp
    rcases hp with hp | hp
    · obtain ⟨henv, -, c, -, hwire⟩ := hj.mem_route_iff.1 hp
      exact ⟨henv, c, hwire⟩
    · exact absurd hid (hunused.flight p hp)
  have hnone : ∀ v, (s.delivered v).countP (fun e => e.id = id) = 0 := by
    intro v
    rw [List.countP_eq_zero]
    intro e he
    simpa using hunused.delivered v e he
  refine ⟨(hseen u).2 rfl, ?_, ?_, ?_, hnone u, ?_, ?_⟩
  · intro p hp hid
    obtain ⟨henv, c, hwire⟩ := hflight p hp hid
    have hhop := dist_le_of_wired (u := u) hconn hwire
    rw [SimpleGraph.dist_self] at hhop
    rw [henv]
    exact ⟨rfl, by omega⟩
  · intro v e he hid
    exact absurd hid (hunused.delivered v e he)
  · intro p hp hid w d hwire
    obtain ⟨-, c, hout⟩ := hflight p hp hid
    rw [hj.back hout] at hwire
    cases hwire
    exact (hseen u).2 rfl
  · intro v hv
    exact (hnone v).trans (if_neg fun h => hv ((hseen v).1 h)).symm
  · intro v c w d hwire hoffers
    rcases hoffers with rfl | ⟨e, he, hid, -⟩
    · refine .inr ⟨⟨w, d, (s.nodes v).envelope m id sig, root⟩, ?_, rfl, rfl⟩
      rw [flight_broadcast, Multiset.mem_add, Multiset.mem_coe]
      exact .inl (hj.mem_route_iff.2 ⟨rfl, rfl, c, Option.some_ne_none c, hwire⟩)
    · exact absurd hid (hunused.delivered v e he)

end Step

end ProofMarket.Mesh
