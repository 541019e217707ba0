import ProofMarket.Lib.CallTree
import ProofMarket.Lib.Transition

/-!
# Re-entrant operations, one after the other

Foreign code that gets control in the middle of an operation can call other operations. What it does
there is in the state before the operation itself has finished. An object is serializable when this
makes no difference: every execution ends as if the operations that were not undone had been
performed one after the other, each as a whole, in the order in which they finished.

* `Machine.commits` — these operations, in this order.
* `Machine.Serial` — the obligation on single operations: what foreign code does after an operation
  has begun, it could have done before (`overtake`).
* `Serial.execAll` — **the object and the sequential system agree**, whatever foreign code does.
* `Serial.observes` — what foreign code sees is a state of the sequential system, in which some
  operations have begun.
-/

namespace CallTree

/-- One step without re-entrancy: a whole operation, or a change forced by the environment. -/
inductive Atom (ι φ : Type) where
  | call (i : ι)
  | poke (p : φ)

namespace Machine

variable {σ τ ι φ ε P : Type}

mutual
/-- The operations of an action that are not undone, in the order in which they finish. -/
def commits (M : Machine σ ι φ ε) : Act ι φ → σ → List (Atom ι φ)
  | .call i body ok, s =>
    match M.op i s with
    | .revert _ => []
    | .done _ => [.call i]
    | .yield outer inner k =>
      match k ok (if ok then M.execAll body inner else outer) with
      | .ok _ => (if ok then commitsAll M body inner else []) ++ [.call i]
      | .error _ => []
  | .frame body ok, s => if ok then commitsAll M body s else []
  | .poke p, _ => [.poke p]

/-- The same for a list of actions. -/
def commitsAll (M : Machine σ ι φ ε) : List (Act ι φ) → σ → List (Atom ι φ)
  | [], _ => []
  | a :: as, s => commits M a s ++ commitsAll M as (M.exec a s).1
end

/-- The obligation on single operations, in states of an invariant. `Begun i v u` says that the
operation `i`, begun in `v`, has come to `u` when foreign code gets control. -/
structure Serial (M : Machine σ ι φ ε) (I : P → σ → Prop) (abs : σ → τ)
    (step : τ → Atom ι φ → Option τ) (Begun : ι → τ → τ → Prop) : Prop where
  sound : M.Sound I
  poke : ∀ e s, step (abs s) (.poke e) = some (abs (M.poke e s))
  done : ∀ p i s s', I p s → M.op i s = .done s' → step (abs s) (.call i) = some (abs s')
  begun : ∀ i s outer inner k, M.op i s = .yield outer inner k → Begun i (abs s) (abs inner)
  finish : ∀ i s outer inner k, M.op i s = .yield outer inner k →
    ∀ v t t', Begun i v (abs t) → k true t = .ok t' → step v (.call i) = some (abs t')
  failed : ∀ i s outer inner k, M.op i s = .yield outer inner k → ∀ t', k false outer ≠ .ok t'
  overtake : ∀ i v u a u', Begun i v u → step u a = some u' →
    ∃ v', step v a = some v' ∧ Begun i v' u'

variable {M : Machine σ ι φ ε} {I : P → σ → Prop} {abs : σ → τ}
  {step : τ → Atom ι φ → Option τ} {Begun : ι → τ → τ → Prop}

/-- A whole run overtakes an operation that has begun. -/
theorem Serial.overtake_run (hM : M.Serial I abs step Begun) {i : ι} {atoms : List (Atom ι φ)}
    {v u u' : τ} (hbegun : Begun i v u) (h : Transition.run step atoms u = some u') :
    ∃ v', Transition.run step atoms v = some v' ∧ Begun i v' u' := by
  induction atoms generalizing v u with
  | nil =>
    cases h
    exact ⟨v, rfl, hbegun⟩
  | cons a atoms ih =>
    obtain ⟨mid, hmid, hrest⟩ := Option.bind_eq_some_iff.1 h
    obtain ⟨v', hv', hbegun'⟩ := hM.overtake i v u a mid hbegun hmid
    obtain ⟨v'', hv'', hbegun''⟩ := ih hbegun' hrest
    refine ⟨v'', ?_, hbegun''⟩
    simp only [Transition.run, hv', Option.bind_some, hv'']

mutual
/-- **An action is serializable**, whatever foreign code does in it. -/
theorem Serial.exec (hM : M.Serial I abs step Begun) {p : P} {s : σ} (hs : I p s) :
    ∀ a : Act ι φ, Transition.run step (M.commits a s) (abs s) = some (abs (M.exec a s).1)
  | .poke e => by
    rw [commits, exec_poke]
    simp only [Transition.run, hM.poke, Option.bind_some]
  | .frame body ok => by
    rw [commits, exec_frame]
    cases ok with
    | false => rfl
    | true => exact Serial.execAll hM hs body
  | .call i body ok => by
    rw [commits]
    cases hop : M.op i s with
    | revert e =>
      rw [exec_call_revert hop]
      rfl
    | done s' =>
      rw [exec_call_done hop]
      simp only [Transition.run, hM.done p i s s' hs hop, Option.bind_some]
    | yield outer inner k =>
      rw [exec_call_yield hop]
      dsimp only
      cases hk : k ok (if ok then M.execAll body inner else outer) with
      | error e => rfl
      | ok t' =>
        cases ok with
        | false => exact absurd hk (hM.failed i s outer inner k hop t')
        | true =>
          -- The operation can wait until foreign code has returned.
          obtain ⟨⟨p', hinner, -⟩, -⟩ := hM.sound.yield p i s outer inner k trivial hs hop
          have hbody := Serial.execAll hM hinner body
          obtain ⟨v', hv', hbegun⟩ := hM.overtake_run (hM.begun i s outer inner k hop) hbody
          have hlast := hM.finish i s outer inner k hop v' _ t' hbegun hk
          simp only [if_true, Transition.run_append, Transition.run, hv', hlast, Option.bind_some,
            settle_ok]

theorem Serial.execAll (hM : M.Serial I abs step Begun) {p : P} {s : σ} (hs : I p s) :
    ∀ as : List (Act ι φ),
      Transition.run step (M.commitsAll as s) (abs s) = some (abs (M.execAll as s))
  | [] => by
    rw [commitsAll, execAll_nil]
    rfl
  | a :: as => by
    rw [commitsAll, execAll_cons, Transition.run_append, Serial.exec hM hs a, Option.bind_some]
    exact Serial.execAll hM (hM.sound.exec hs a) as
end

/-- **What foreign code sees** is what a sequential run leads to, but for operations that have
begun. -/
theorem Serial.observes (hM : M.Serial I abs step Begun) {s t : σ} {as : List (Act ι φ)}
    (h : M.Observes s as t) {p : P} (hs : I p s) :
    ∃ atoms v, Transition.run step atoms (abs s) = some v ∧
      Relation.ReflTransGen (fun v u => ∃ i, Begun i v u) v (abs t) := by
  induction h generalizing p with
  | @here s as => exact ⟨[], abs s, rfl, .refl⟩
  | @next s t a as _ ih =>
    obtain ⟨atoms, v, hrun, hchain⟩ := ih (hM.sound.exec hs a)
    refine ⟨M.commits a s ++ atoms, v, ?_, hchain⟩
    rw [Transition.run_append, hM.exec hs a, Option.bind_some, hrun]
  | @callee s t outer inner k i body as ok hop _ ih =>
    obtain ⟨⟨p', hinner, -⟩, -⟩ := hM.sound.yield p i s outer inner k trivial hs hop
    obtain ⟨atoms, v, hrun, hchain⟩ := ih hinner
    obtain ⟨v', hv', hbegun⟩ := hM.overtake_run (hM.begun i s outer inner k hop) hrun
    exact ⟨atoms, v', hv', .head ⟨i, hbegun⟩ hchain⟩
  | frame _ ih => exact ih hs

end Machine

end CallTree
