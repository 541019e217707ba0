import ProofMarket.Gossip.Progress
import ProofMarket.Lib.Subscription
import ProofMarket.Network.Refinement

/-!
# The loops of the parties

`run_gossip_handler` and `Worker::run` receive what their nodes deliver over a channel of 256
envelopes that does not wait for them. A loop that falls behind is told so, and goes on with the
oldest envelope that is left. What was delivered before it subscribed, it never sees.

**Theorem (`loops_follow`).** Parties that run these loops are parties that handle what their nodes
have delivered. Each envelope that is delivered after a loop has subscribed is handled at most once,
in the order of delivery; it is handled, it waits, or it is among the missed ones that are counted.
None is missed unless the loop was more than 256 envelopes behind at some time.
-/

namespace ProofMarket

open Registry (Deployment)
open Subscription (Reader)

/-- `broadcast::channel(256)`. -/
def subscriberCapacity : Nat := 256

/-- A loop, with how much its node had delivered when it subscribed. -/
structure Loop where
  start : Nat
  reader : Reader GossipEnvelope

/-- Parties with the loops that have been started. -/
structure LoopingParties where
  parties : Parties
  loops : Node → Option Loop

namespace LoopingParties

def start (s : Parties) : LoopingParties := ⟨s, fun _ => none⟩

/-- The key of the node of a party. -/
def key (K : Keys) : Node → PeerId
  | .coordinator => K.hub
  | .worker key => key

/-- What has been sent to the subscribers, the first one first. -/
def sent (K : Keys) (s : LoopingParties) (node : Node) : List GossipEnvelope :=
  (s.parties.nodes (key K node)).delivered.reverse

inductive Label where
  | party (l : Parties.Label)
  | subscribe (node : Node)
  | lagged (node : Node)

/-- The envelope that a step handles, and the party whose loop has received it. -/
def handling : Parties.Label → Option (Node × GossipEnvelope)
  | .gossip _ _ => none
  | .coordinator _ heard _ => heard.map fun e => (.coordinator, e)
  | .worker key _ heard _ => heard.map fun e => (.worker key, e)

/-- The loop of the party receives the envelope. -/
def receive (K : Keys) (s : LoopingParties) (node : Node) (e : GossipEnvelope) : Option Loop := do
  let loop ← s.loops node
  let (received, reader) ← loop.reader.value subscriberCapacity (s.sent K node)
  if received = e then some { loop with reader } else none

def step (D : Deployment) (K : Keys) (s : LoopingParties) : Label → Option LoopingParties
  | .party l =>
    (s.parties.step D K l).bind fun parties =>
      match handling l with
      | none => some { s with parties }
      | some (node, e) =>
        (s.receive K node e).map fun loop =>
          ⟨parties, Function.update s.loops node (some loop)⟩
  | .subscribe node =>
    match s.loops node with
    | none =>
      let loop : Loop := ⟨(s.sent K node).length, .new (s.sent K node)⟩
      some { s with loops := Function.update s.loops node (some loop) }
    | some _ => none
  | .lagged node =>
    (s.loops node).bind fun loop =>
      (loop.reader.lagged subscriberCapacity (s.sent K node)).map fun reader =>
        { s with loops := Function.update s.loops node (some { loop with reader }) }

/-- What the parties may do. -/
def Within (ok : Parties → Parties.Label → Prop) (s : LoopingParties) : Label → Prop
  | .party l => ok s.parties l
  | .subscribe _ | .lagged _ => True

instance (ok : Parties → Parties.Label → Prop) [∀ s l, Decidable (ok s l)] (s : LoopingParties)
    (l : Label) : Decidable (Within ok s l) :=
  match l with
  | .party l => inferInstanceAs (Decidable (ok s.parties l))
  | .subscribe _ | .lagged _ => isTrue trivial

abbrev Path (D : Deployment) (K : Keys) (ok : Parties → Parties.Label → Prop) :
    LoopingParties → List LoopingParties → LoopingParties → Prop :=
  Transition.Path (step D K) (Within ok)

/-- The loop of the party is so far behind that the channel has dropped what it was to get. -/
def Behind (K : Keys) (s : LoopingParties) (node : Node) : Prop :=
  ∃ loop, s.loops node = some loop ∧ subscriberCapacity < loop.reader.backlog (s.sent K node)

/-- How a loop stands. -/
structure Follows (K : Keys) (past : List LoopingParties) (s : LoopingParties) (node : Node)
    (loop : Loop) : Prop where
  tally : loop.reader.Tally loop.start (s.sent K node)
  lost : loop.reader.missed = 0 ∨ ∃ u ∈ past, u.Behind K node

section Step

variable {D : Deployment} {K : Keys} {ok : Parties → Parties.Label → Prop}
  {past : List LoopingParties} {s t : LoopingParties} {node : Node} {loop : Loop}

theorem Follows.deliver (h : Follows K past s node loop) {more : List GossipEnvelope}
    (hsent : t.sent K node = s.sent K node ++ more) : Follows K (t :: past) t node loop where
  tally := by
    rw [hsent]
    exact h.tally.append more
  lost := h.lost.imp_right fun ⟨u, hu, hbehind⟩ => ⟨u, List.mem_cons_of_mem _ hu, hbehind⟩

/-- Every loop stands so. -/
def AllFollow (K : Keys) (past : List LoopingParties) (s : LoopingParties)
    (loops : Node → Option Loop) : Prop :=
  ∀ node loop, loops node = some loop → Follows K past s node loop

theorem AllFollow.update {loops : Node → Option Loop} (h : AllFollow K past s loops)
    (hnew : Follows K past s node loop) :
    AllFollow K past s (Function.update loops node (some loop)) := by
  intro other old hold
  by_cases hother : other = node
  · subst hother
    rw [Function.update_self] at hold
    cases hold
    exact hnew
  · rw [Function.update_of_ne hother] at hold
    exact h other old hold

theorem sent_step {l : Parties.Label} {parties : Parties}
    (h : s.parties.step D K l = some parties) (loops : Node → Option Loop) (node : Node) :
    ∃ more, sent K ⟨parties, loops⟩ node = s.sent K node ++ more := by
  obtain ⟨new, hnew, -⟩ := (Parties.Step.of_step h).delivered (key K node)
  refine ⟨new.reverse, ?_⟩
  simp only [sent, hnew, List.reverse_append]

theorem receive_eq_some {e : GossipEnvelope} {loop' : Loop}
    (h : s.receive K node e = some loop') :
    ∃ loop, s.loops node = some loop ∧ loop'.start = loop.start ∧
      loop.reader.value subscriberCapacity (s.sent K node) = some (e, loop'.reader) := by
  obtain ⟨loop, hloop, h⟩ := Option.bind_eq_some_iff.1 h
  obtain ⟨⟨received, reader⟩, hvalue, h⟩ := Option.bind_eq_some_iff.1 h
  simp only at h
  split_ifs at h with hsame
  cases h
  subst hsame
  exact ⟨loop, hloop, rfl, hvalue⟩

theorem steps_parties {l : Label} (hl : Within ok s l) (hst : step D K s l = some t) :
    Parties.Steps D K ok s.parties t.parties := by
  cases l with
  | party l =>
    obtain ⟨parties, hparties, hst⟩ := Option.bind_eq_some_iff.1 hst
    have hsame : t.parties = parties := by
      split at hst
      · cases hst
        rfl
      · obtain ⟨loop, -, rfl⟩ := Option.map_eq_some_iff.1 hst
        rfl
    rw [hsame]
    exact .single ⟨l, hl, hparties⟩
  | subscribe node =>
    simp only [step] at hst
    split at hst
    · cases hst
      exact .refl
    · cases hst
  | lagged node =>
    obtain ⟨loop, -, hst⟩ := Option.bind_eq_some_iff.1 hst
    obtain ⟨reader, -, rfl⟩ := Option.map_eq_some_iff.1 hst
    exact .refl

theorem AllFollow.receive {e : GossipEnvelope} (h : AllFollow K past s s.loops)
    (hr : s.receive K node e = some loop) : Follows K past s node loop := by
  obtain ⟨old, hold, hstart, hvalue⟩ := receive_eq_some hr
  have hfollows := h node old hold
  obtain ⟨-, hreader⟩ := Reader.value_eq_some hvalue
  constructor
  · rw [hstart]
    exact hfollows.tally.value hvalue
  · rw [hreader]
    exact hfollows.lost

theorem AllFollow.step {l : Label} (h : AllFollow K past s s.loops) (hself : s ∈ past)
    (hst : LoopingParties.step D K s l = some t) : AllFollow K (t :: past) t t.loops := by
  cases l with
  | party l =>
    obtain ⟨parties, hparties, hst⟩ := Option.bind_eq_some_iff.1 hst
    have hloops : AllFollow K past s t.loops ∧ t.parties = parties := by
      cases hhandling : handling l with
      | none =>
        simp only [hhandling] at hst
        cases hst
        exact ⟨h, rfl⟩
      | some x =>
        simp only [hhandling] at hst
        obtain ⟨loop, hloop, rfl⟩ := Option.map_eq_some_iff.1 hst
        exact ⟨h.update (h.receive hloop), rfl⟩
    intro node loop hloop
    obtain ⟨more, hmore⟩ := sent_step hparties t.loops node
    rw [← hloops.2] at hmore
    exact (hloops.1 node loop hloop).deliver hmore
  | subscribe new =>
    simp only [LoopingParties.step] at hst
    split at hst
    · cases hst
      have hnew : Follows K past s new ⟨(s.sent K new).length, .new (s.sent K new)⟩ :=
        ⟨Reader.tally_new _, .inl rfl⟩
      intro node loop hloop
      exact (h.update hnew node loop hloop).deliver (List.append_nil _).symm
    · cases hst
  | lagged slow =>
    obtain ⟨old, hold, hst⟩ := Option.bind_eq_some_iff.1 hst
    obtain ⟨reader, hreader, rfl⟩ := Option.map_eq_some_iff.1 hst
    have hbehind : s.Behind K slow := ⟨old, hold, Reader.backlog_of_lagged hreader⟩
    have hnew : Follows K past s slow { old with reader } :=
      ⟨(h slow old hold).tally.lagged hreader, .inr ⟨s, hself, hbehind⟩⟩
    intro node loop hloop
    exact (h.update hnew node loop hloop).deliver (List.append_nil _).symm

end Step

/-- **A loop follows its node.** -/
structure Followed (K : Keys) (past : List LoopingParties) (s : LoopingParties) (node : Node)
    (loop : Loop) : Prop where
  /-- What has been handled was delivered since, in this order. -/
  inOrder : loop.reader.got.Sublist ((s.sent K node).drop loop.start)
  /-- What was delivered since has been handled or missed, or waits. -/
  all : loop.start + loop.reader.got.length + loop.reader.missed +
    loop.reader.backlog (s.sent K node) = (s.sent K node).length
  /-- A loop that has missed nothing has handled everything up to where it is. -/
  exactly : loop.reader.missed = 0 →
    loop.reader.got = ((s.sent K node).take loop.reader.next).drop loop.start
  lost : loop.reader.missed = 0 ∨ ∃ u ∈ past, u.Behind K node

theorem Follows.followed {K : Keys} {past : List LoopingParties} {s : LoopingParties} {node : Node}
    {loop : Loop} (h : Follows K past s node loop) : Followed K past s node loop where
  inOrder := h.tally.got.trans ((List.take_sublist _ _).drop _)
  all := by
    have hle := h.tally.next_le
    have hcount := h.tally.count
    unfold Reader.backlog
    omega
  exactly := h.tally.eq_of_missed
  lost := h.lost

/-- **The loops follow their nodes**, and their parties do what parties may do. -/
theorem loops_follow (D : Deployment) (K : Keys) (ok : Parties → Parties.Label → Prop)
    (first : Parties) {past : List LoopingParties} {s : LoopingParties}
    (h : Path D K ok (start first) past s) :
    Parties.Steps D K ok first s.parties ∧
      ∀ node loop, s.loops node = some loop → Followed K past s node loop := by
  have hinv : Parties.Steps D K ok first s.parties ∧ s ∈ past ∧ AllFollow K past s s.loops := by
    refine h.invariant (I := fun past s => Parties.Steps D K ok first s.parties ∧ s ∈ past ∧
      AllFollow K past s s.loops) ?_ ⟨.refl, List.mem_cons_self, nofun⟩
    intro past u l v hu hl hst
    exact ⟨hu.1.trans (steps_parties hl hst), List.mem_cons_self, hu.2.2.step hu.2.1 hst⟩
  exact ⟨hinv.1, fun node loop hloop => (hinv.2.2 node loop hloop).followed⟩

/-! ## A loop that falls behind -/

open Sample Parties

/-- What the rogue peer sends. -/
def noise (n : ℕ) : GossipEnvelope :=
  { Tasks.flood n with origin := rogue, signature := sign rogue }

/-- The loop of the worker has been started, and has received nothing of what its node has delivered
since. -/
structure Unheard (n : ℕ) (s : LoopingParties) : Prop where
  loop : s.loops (.worker workerKey) = some ⟨0, .new []⟩
  idle : s.parties.workers workerKey = fresh.workers workerKey
  sent : s.sent keys (.worker workerKey) = (List.range n).map noise
  seen : ∀ id ∈ (s.parties.nodes workerKey).node.seen, ∃ m < n, id = Tasks.floodId m

theorem Unheard.hears {n : ℕ} {s : LoopingParties} (hs : Unheard n s) (hn : n < 256 ^ 32) :
    ∃ t, Transition.Next (step deployment keys) (Within fun u l => u.Sound keys l) s t ∧
      Unheard (n + 1) t := by
  have hframe : GossipEnvelope.ofFrame (Wire.envelope.encode (noise n)) = some (noise n) :=
    GossipEnvelope.ofFrame_encode (sized (.claimRejected ⟨.fill 32 7⟩ "") (by decide +kernel)).2
  have hunseen : (noise n).id ∉ (s.parties.nodes workerKey).node.seen := by
    intro hmem
    obtain ⟨m, hm, hid⟩ := hs.seen _ hmem
    have hmn := Tasks.floodId_inj hn (hm.trans hn) hid
    omega
  let node := (s.parties.nodes workerKey).node
  obtain ⟨hdelivered, hseen⟩ : (node.processIncoming keys.verifier .trivial (noise n) 0).2 =
      some (noise n) ∧ (node.processIncoming keys.verifier .trivial (noise n) 0).1.seen = _ :=
    GossipNode.processIncoming_new (by simp [GossipEnvelope.verify, keys, noise]) hunseen
  let endpoint : Endpoint :=
    { s.parties.nodes workerKey with
      node := (node.processIncoming keys.verifier .trivial (noise n) 0).1
      delivered := noise n :: (s.parties.nodes workerKey).delivered }
  let t : LoopingParties :=
    ⟨{ s.parties with nodes := Function.update s.parties.nodes workerKey endpoint }, s.loops⟩
  have hself : t.parties.nodes workerKey = endpoint :=
    Function.update_self workerKey endpoint s.parties.nodes
  have hstep : step deployment keys s (.party (Parties.hears workerKey (noise n))) = some t := by
    have hnodes : Nodes.step keys.verifier s.parties.nodes
        (workerKey, .frame (Wire.envelope.encode (noise n)) .trivial 0) =
          some (Function.update s.parties.nodes workerKey endpoint) := by
      simp only [Nodes.step, Nodes.Action.event, hframe, Option.map_some]
      show some (Function.update _ _ _) = _
      simp only [node] at hdelivered
      rw [hdelivered]
      rfl
    simp only [step, Parties.step, Parties.hears, handling, hnodes]
    rfl
  have hsound : Within (fun u l => u.Sound keys l) s
      (.party (Parties.hears workerKey (noise n))) := by
    intro e he hhonest
    rw [hframe] at he
    cases he
    cases hhonest
  refine ⟨t, ⟨_, hsound, hstep⟩, hs.loop, hs.idle, ?_, ?_⟩
  · show (t.parties.nodes workerKey).delivered.reverse = _
    have hold : (s.parties.nodes workerKey).delivered.reverse = (List.range n).map noise := hs.sent
    rw [hself, List.reverse_cons, hold, List.range_succ, List.map_append]
    rfl
  · intro id hid
    rw [hself, show endpoint.node.seen = _ from hseen] at hid
    rcases Endpoint.mem_of_mem_putSeen hid with rfl | hold
    · exact ⟨n, Nat.lt_succ_self n, rfl⟩
    · obtain ⟨m, hm, hidm⟩ := hs.seen id hold
      exact ⟨m, Nat.lt_succ_of_lt hm, hidm⟩

theorem exists_unheard (n : ℕ) (hn : n < 256 ^ 32) :
    ∃ s, Transition.Steps (step deployment keys) (Within fun u l => u.Sound keys l)
        (start fresh) s ∧
      Unheard n s := by
  induction n with
  | zero =>
    refine ⟨_, .single ⟨.subscribe (.worker workerKey), trivial, rfl⟩, ?_⟩
    refine ⟨rfl, rfl, rfl, ?_⟩
    intro id hid
    cases hid
  | succ n ih =>
    obtain ⟨s, hs, hunheard⟩ := ih (Nat.lt_of_succ_lt hn)
    obtain ⟨t, hst, ht⟩ := hunheard.hears (Nat.lt_of_succ_lt hn)
    exact ⟨t, hs.tail hst, ht⟩

/-- The node of the worker has delivered 300 envelopes when its loop gets on. -/
theorem loops_follow_lagged : ∃ past s loop,
    Path deployment keys (fun u l => u.Sound keys l) (start fresh) past s ∧
      s.loops (.worker workerKey) = some loop ∧ loop.reader.missed = 44 ∧
      loop.reader.got = [noise 44] ∧ Followed keys past s (.worker workerKey) loop := by
  obtain ⟨s, hs, hunheard⟩ := exists_unheard 300 (by decide)
  -- The loop is told that it has missed 44 envelopes.
  have hmissed : Reader.lagged subscriberCapacity ⟨0, [], 0⟩ ((List.range 300).map noise) =
      some ⟨44, [], 44⟩ := by
    simp [Reader.lagged, Reader.backlog, subscriberCapacity]
  let t : LoopingParties :=
    { s with loops := Function.update s.loops (.worker workerKey) (some ⟨0, ⟨44, [], 44⟩⟩) }
  have hlagged : step deployment keys s (.lagged (.worker workerKey)) = some t := by
    simp only [step, hunheard.loop, hunheard.sent, Option.bind_some, Reader.new, List.length_nil,
      hmissed]
    rfl
  -- It goes on with the oldest one that is left.
  have hvalue : Reader.value subscriberCapacity ⟨44, [], 44⟩ ((List.range 300).map noise) =
      some (noise 44, ⟨45, [noise 44], 44⟩) := by
    simp [Reader.value, Reader.backlog, subscriberCapacity]
  let loop : Loop := ⟨0, ⟨45, [noise 44], 44⟩⟩
  let handled : Parties.Label :=
    .worker workerKey (.recv (noise 44).payload 1001) (some (noise 44)) []
  have hdelivered : noise 44 ∈ (s.parties.nodes workerKey).delivered := by
    have hmem : noise 44 ∈ s.sent keys (.worker workerKey) := by
      rw [hunheard.sent]
      exact List.mem_map_of_mem (List.mem_range.2 (by decide))
    exact List.mem_reverse.1 hmem
  have hparties : ∃ parties, s.parties.step deployment keys handled = some parties := by
    have hworker : (s.parties.workers workerKey).step (.recv (noise 44).payload 1001) =
        some (fresh.workers workerKey, []) := by
      rw [hunheard.idle]
      rfl
    have hact : s.parties.nodes.act keys.verifier workerKey
        (System.Label.worker workerKey (.recv (noise 44).payload 1001)).handles (some (noise 44)) []
          [] = some s.parties.nodes := by
      rw [Nodes.act, if_pos ⟨rfl, by simpa using hdelivered, rfl⟩]
      rfl
    refine ⟨{ s.parties with
      workers := Function.update s.parties.workers workerKey (fresh.workers workerKey) }, ?_⟩
    simp only [Parties.step, handled, hworker, hact, Option.bind_eq_bind, Option.bind_some]
    rfl
  obtain ⟨parties, hparties⟩ := hparties
  let u : LoopingParties :=
    ⟨parties, Function.update t.loops (.worker workerKey) (some loop)⟩
  have hreceive : t.receive keys (.worker workerKey) (noise 44) = some loop := by
    have hloop : t.loops (.worker workerKey) = some ⟨0, ⟨44, [], 44⟩⟩ :=
      Function.update_self (Node.worker workerKey) _ s.loops
    have hsent : t.sent keys (.worker workerKey) = (List.range 300).map noise := hunheard.sent
    simp only [receive, hloop, hsent, hvalue, Option.bind_eq_bind, Option.bind_some, if_true]
    rfl
  have hhandled : step deployment keys t (.party handled) = some u := by
    have htp : t.parties.step deployment keys handled = some parties := hparties
    simp only [step, htp, Option.bind_some]
    show (t.receive keys (.worker workerKey) (noise 44)).map _ = _
    rw [hreceive]
    rfl
  obtain ⟨past, hpath⟩ := Transition.Steps.exists_path
    ((hs.tail ⟨.lagged _, trivial, hlagged⟩).tail ⟨.party handled, trivial, hhandled⟩)
  have hloop : u.loops (.worker workerKey) = some loop :=
    Function.update_self (Node.worker workerKey) _ t.loops
  exact ⟨past, u, loop, hpath, hloop, rfl, rfl,
    (loops_follow deployment keys _ fresh hpath).2 _ loop hloop⟩

end LoopingParties

end ProofMarket
