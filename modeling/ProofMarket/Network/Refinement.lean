import ProofMarket.Network.Exclusion
import ProofMarket.Network.Impersonation

/-!
# Signed gossip as a lossy network

Two models of the same market: parties with keys, whose nodes read any frames and check signatures
(`Parties`), and parties that exchange messages over a network that loses, delays, reorders and
duplicates them (`System`).

**Theorem (`refines`).** As long as the parties handle envelopes of honest origins only, every run
of the first is one of the second: whatever frames are put between the nodes, no message is
invented.

So what holds over every lossy network holds over signed gossip. `exclusion_over_gossip` carries the
mutual exclusion of claims over.
-/

namespace ProofMarket

open Registry (Deployment)

namespace Parties

/-- The envelope that the step handles. -/
def Label.heard : Label → Option GossipEnvelope
  | .gossip _ _ => none
  | .coordinator _ heard _ | .worker _ _ heard _ => heard

/-- The step of the coordinator or a worker, which goes by its id. -/
def Label.system (ids : PeerId → PeerId) : Label → Option System.Label
  | .gossip _ _ => none
  | .coordinator l _ _ => some (.coordinator l)
  | .worker key l _ _ => some (.worker (ids key) l)

/-- The party that takes the step listens to honest nodes only. -/
def ListensToHonest (K : Keys) (l : Label) : Prop := ∀ e ∈ l.heard, K.honest e.origin = true

/-- `create_job` chooses fresh ids. -/
def Fresh (D : Deployment) (s : Parties) : Label → Prop
  | .coordinator l _ _ => s.backend.ChoosesFresh D l
  | .gossip _ _ | .worker _ _ _ _ => True

/-- No forged signature, no stranger, no id twice. -/
structure Insiders (D : Deployment) (K : Keys) (s : Parties) (l : Label) : Prop where
  sound : s.Sound K l
  listens : ListensToHonest K l
  fresh : s.Fresh D l

instance (K : Keys) (l : Label) : Decidable (ListensToHonest K l) :=
  inferInstanceAs (Decidable (∀ e ∈ l.heard, K.honest e.origin = true))

instance (D : Deployment) (s : Parties) (l : Label) : Decidable (s.Fresh D l) :=
  match l with
  | .coordinator bl _ _ => inferInstanceAs (Decidable (s.backend.ChoosesFresh D bl))
  | .gossip _ _ | .worker _ _ _ _ => isTrue trivial

instance (D : Deployment) (K : Keys) (s : Parties) (l : Label) :
    Decidable (s.Insiders D K l) :=
  decidable_of_iff (s.Sound K l ∧ ListensToHonest K l ∧ s.Fresh D l)
    ⟨fun h => ⟨h.1, h.2.1, h.2.2⟩, fun h => ⟨h.1, h.2, h.3⟩⟩

/-- What the lossy network makes of the parties: the worker at a key goes by the id it has drawn,
and whatever a node has said has been sent. -/
structure Abstracts (ids : PeerId → PeerId) (s : Parties) (t : System) : Prop where
  backend : t.backend = s.backend
  workers : ∀ key, t.workers (ids key) = s.workers key
  sent : ∀ key m, s.nodes.Said key m → m ∈ t.sent

variable {D : Deployment} {K : Keys} {ids : PeerId → PeerId} {members : List PeerId}
  {s s' : Parties} {t : System} {l : Label}

theorem abstracts_start (config : PeerId → GossipConfig) (ids : PeerId → PeerId) (chain : Chain)
    (contract : Bool) (defaultDeadlineSecs : UInt64) (startBlock : Nat) :
    Abstracts ids (start config ids chain contract defaultDeadlineSecs startBlock)
      (System.start chain contract defaultDeadlineSecs startBlock) where
  backend := rfl
  workers _ := rfl
  sent key m h := by
    obtain ⟨b, hb, -⟩ := h
    cases hb

/-- **Nobody invents what an insider handles.** -/
theorem Abstracts.lossy (h : Abstracts ids s t) (hsigned : s.Signed K) {key : PeerId}
    {handles : Option GossipMessage} {heard : Option GossipEnvelope}
    (hpayload : heard.map GossipEnvelope.payload = handles)
    (hdelivered : ∀ e ∈ heard, e ∈ (s.nodes key).delivered)
    (hlistens : ∀ e ∈ heard, K.honest e.origin = true) : ∀ m ∈ handles, m ∈ t.sent := by
  intro m hm
  rw [← hpayload] at hm
  obtain ⟨e, he, rfl⟩ := Option.map_eq_some_iff.1 hm
  exact h.sent e.origin _ (hsigned.said (hdelivered e he) (hlistens e he))

/-- **Every step of the parties is one of the network**, or leaves it as it is. -/
theorem Abstracts.step (h : Abstracts ids s t) (hids : Function.Injective ids)
    (hsigned : s.Signed K) (hl : s.Insiders D K l) (hst : s.step D K l = some s') :
    l.system ids = none ∧ Abstracts ids s' t ∨
      ∃ k t', l.system ids = some k ∧ (t.Lossy k ∧ t.Fresh D k) ∧
        t.step D members k = some t' ∧ Abstracts ids s' t' := by
  cases l with
  | gossip key a =>
    cases Step.of_step hst with
    | gossip hquiet hnodes =>
      refine .inl ⟨rfl, h.backend, h.workers, ?_⟩
      intro k m hm
      exact h.sent k m ((Nodes.said_step hquiet hnodes k m).1 hm)
  | coordinator bl heard posts =>
    obtain ⟨⟨backend, ms⟩, hbackend, hst⟩ := Option.bind_eq_some_iff.1 hst
    obtain ⟨nodes, hnodes, hst⟩ := Option.bind_eq_some_iff.1 hst
    cases hst
    obtain ⟨hpayload, hdelivered, hspoken⟩ : _ ∧ _ ∧ Nodes.Spoken K.honest _ _ _ _ :=
      Nodes.of_act hnodes
    have hlossy : t.Lossy (.coordinator bl) := h.lossy hsigned hpayload hdelivered hl.listens
    have hfresh : t.backend.ChoosesFresh D bl := by
      rw [h.backend]
      exact hl.fresh
    let t' : System :=
      { t with
        backend := backend
        sent := t.sent ++ ms
        flight := t.route members (.coordinator bl) ms }
    have hstep : t.step D members (.coordinator bl) = some t' := by
      rw [System.step, h.backend, hbackend]
      rfl
    refine .inr ⟨_, t', rfl, ⟨hlossy, hfresh⟩, hstep, rfl, h.workers, ?_⟩
    intro k m hm
    rcases (hspoken.said k m).1 hm with hold | ⟨-, hnew⟩
    · exact List.mem_append_left _ (h.sent k m hold)
    · exact List.mem_append_right _ hnew
  | worker key wl heard posts =>
    obtain ⟨⟨worker, ms⟩, hworker, hst⟩ := Option.bind_eq_some_iff.1 hst
    obtain ⟨nodes, hnodes, hst⟩ := Option.bind_eq_some_iff.1 hst
    cases hst
    obtain ⟨hpayload, hdelivered, hspoken⟩ : _ ∧ _ ∧ Nodes.Spoken K.honest _ _ _ _ :=
      Nodes.of_act hnodes
    have hhandles : (System.Label.worker key wl).handles =
        (System.Label.worker (ids key) wl).handles := by
      cases wl <;> rfl
    rw [hhandles] at hpayload
    have hlossy : t.Lossy (.worker (ids key) wl) :=
      h.lossy hsigned hpayload hdelivered hl.listens
    let t' : System :=
      { t with
        workers := Function.update t.workers (ids key) worker
        sent := t.sent ++ ms
        flight := t.route members (.worker (ids key) wl) ms
        failed := t.failed ++ System.failures t.backend.chain (ids key) wl }
    have hstep : t.step D members (.worker (ids key) wl) = some t' := by
      rw [System.step, h.workers, hworker]
      rfl
    refine .inr ⟨_, t', rfl, ⟨hlossy, trivial⟩, hstep, h.backend, ?_, ?_⟩
    · intro k
      show Function.update t.workers (ids key) worker (ids k) =
        Function.update s.workers key worker k
      by_cases hk : k = key
      · subst hk
        rw [Function.update_self, Function.update_self]
      · have hne : ids k ≠ ids key := fun heq => hk (hids heq)
        rw [Function.update_of_ne hne, Function.update_of_ne hk, h.workers]
    · intro k m hm
      rcases (hspoken.said k m).1 hm with hold | ⟨-, hnew⟩
      · exact List.mem_append_left _ (h.sent k m hold)
      · exact List.mem_append_right _ hnew

/-- A forward simulation: what the parties do, the network can do. -/
theorem simulates (members : List PeerId) (hids : Function.Injective ids) (u : Parties)
    (l : Label) (v : Parties) (t : System) (hu : u.Signed K ∧ Abstracts ids u t)
    (hl : u.Insiders D K l) (hst : u.step D K l = some v) :
    ∃ t', System.Steps D members (fun u l => u.Lossy l ∧ u.Fresh D l) t t' ∧
      v.Signed K ∧ Abstracts ids v t' := by
  have hsigned : v.Signed K := hu.1.step (.of_step hst) hl.sound
  rcases hu.2.step hids hu.1 hl hst with ⟨-, hv⟩ | ⟨k, t', -, hok, hstep, hv⟩
  · exact ⟨t, .refl, hsigned, hv⟩
  · exact ⟨t', .single ⟨k, hok, hstep⟩, hsigned, hv⟩

section Runs

variable {config : PeerId → GossipConfig} {chain : Chain} {contract : Bool}
  {defaultDeadlineSecs : UInt64} {startBlock : Nat}

/-- **Signed gossip is a lossy network.** -/
theorem refines (members : List PeerId) (hids : Function.Injective ids)
    (h : Steps D K (fun u l => u.Insiders D K l)
      (start config ids chain contract defaultDeadlineSecs startBlock) s) :
    ∃ t, System.Steps D members (fun u l => u.Lossy l ∧ u.Fresh D l)
        (System.start chain contract defaultDeadlineSecs startBlock) t ∧ Abstracts ids s t := by
  have hstart := abstracts_start config ids chain contract defaultDeadlineSecs startBlock
  obtain ⟨t, ht, -, habstracts⟩ := h.simulate (simulates members hids)
    ⟨signed_start config ids chain contract defaultDeadlineSecs startBlock, hstart⟩
  exact ⟨t, ht, habstracts⟩

/-- One worker for each job. -/
structure Exclusive (s : Parties) : Prop where
  accepted : ∀ key key' j w w', s.nodes.Said key (.claimAccepted j w) →
    s.nodes.Said key' (.claimAccepted j w') → w = w'
  working : ∀ k k' j, (s.workers k).status.isWorking j = true →
    (s.workers k').status.isWorking j = true → k = k'
  assigned : ∀ j w t k, s.backend.jobs.status j = some (.assigned w t) →
    (s.workers k).status.isWorking j = true → (s.workers k).peerId = w

/-- What excludes two workers over a lossy network does so over signed gossip. -/
theorem Abstracts.exclusive (h : Abstracts ids s t) (hids : Function.Injective ids) (ht : t.Inv) :
    s.Exclusive := by
  have hworking : ∀ k j, (s.workers k).status.isWorking j = true → t.Accepted j (ids k) := by
    intro k j hj
    rw [← h.workers] at hj
    exact ht.working (ids k) j hj
  constructor
  · intro key key' j w w' hw hw'
    exact ht.unique j w w' (h.sent _ _ hw) (h.sent _ _ hw')
  · intro k k' j hk hk'
    exact hids (ht.unique j _ _ (hworking k j hk) (hworking k' j hk'))
  · intro j w since k hj hk
    rw [← h.backend] at hj
    have hid : (s.workers k).peerId = ids k := by
      rw [← h.workers]
      exact ht.peer (ids k)
    rw [hid]
    exact ht.unique j _ _ (hworking k j hk) (ht.assigned j w since hj)

/-- **At most one worker works on a job**, also over signed gossip with any frames between the
nodes. -/
theorem exclusion_over_gossip (hids : Function.Injective ids)
    (h : Steps D K (fun u l => u.Insiders D K l)
      (start config ids chain contract defaultDeadlineSecs startBlock) s) : s.Exclusive := by
  have hstart := abstracts_start config ids chain contract defaultDeadlineSecs startBlock
  obtain ⟨t, ht, -, habstracts⟩ := h.simulate (simulates [] hids)
    ⟨signed_start config ids chain contract defaultDeadlineSecs startBlock, hstart⟩
  have hinv : t.Inv :=
    ht.invariant (fun _ _ _ hu hl hst => hu.step (.of_step hst) hl.1 hl.2)
      (System.inv_start chain contract defaultDeadlineSecs startBlock)
  exact habstracts.exclusive hids hinv

end Runs

/-! ## A job is won over signed gossip -/

open Sample

/-- Every worker has an id of its own; that of the one in the run is `workerId`. -/
def ownIds : PeerId → PeerId := Equiv.swap workerKey workerId

theorem ownIds_injective : Function.Injective ownIds := Equiv.injective _

theorem exists_won : ∃ s, Steps deployment keys (fun u l => u.Insiders deployment keys l)
    (start (fun _ => .new) ownIds (Chain.genesis 0) true 300 0) s ∧
      (s.workers workerKey).status = .proving job := by
  have hrun : (Transition.run (Transition.checked (step deployment keys)
      fun u l => u.Insiders deployment keys l) won
        (start (fun _ => .new) ownIds (Chain.genesis 0) true 300 0)).map
          (fun s => (s.workers workerKey).status) = some (.proving job) := by
    decide +kernel
  exact Transition.exists_of_checked hrun

/-- The system that the parties are then is one in which the job is being proved. -/
theorem refines_won : ∃ t, System.Steps deployment [workerId]
    (fun u l => u.Lossy l ∧ u.Fresh deployment l) (System.start (Chain.genesis 0) true 300 0) t ∧
      (t.workers workerId).status = .proving job := by
  obtain ⟨s, hs, hst⟩ := exists_won
  obtain ⟨t, ht, habstracts⟩ := refines [workerId] ownIds_injective hs
  have hid : ownIds workerKey = workerId := Equiv.swap_apply_left _ _
  refine ⟨t, ht, ?_⟩
  rw [← hid, habstracts.workers, hst]

theorem exclusion_over_gossip_won : ∃ s : Parties,
    (s.workers workerKey).status = .proving job ∧ s.Exclusive := by
  obtain ⟨s, hs, hst⟩ := exists_won
  exact ⟨s, hst, exclusion_over_gossip ownIds_injective hs⟩

end Parties

end ProofMarket
