import Mathlib.Logic.Basic

/-!
# Objects that hand control to foreign code

An operation of an object either fails, finishes, or stops in the middle and hands control to
code the object knows nothing about. While that code runs it may call any operation again, to
any depth, open frames of its own, and fail. A frame that fails takes all its effects with it.

What foreign code does in one execution is a finite tree of actions (`Act`). Quantifying over
all trees covers every behaviour: code that looks at the state performs, in each execution,
the actions of some tree.

* `Machine.exec` — the effect of an action, rollbacks included.
* `Machine.Observes` — the states foreign code sees while a list of actions is performed.
* `Machine.Sound` — the obligation on single operations from which `exec` and `Observes` keep an
  invariant. The invariant is indexed by what the suspended operations still owe. `SoundOn` asks
  it only of some operations, and speaks about the actions that call no others.
* `Machine.Grows` — the same for a preorder that every operation climbs.
-/

namespace CallTree

/-- How far an operation gets by itself. After `yield outer inner k` foreign code runs in `inner`;
when it fails its effects are undone back to `outer`, and `k` is the rest of the operation. -/
inductive Outcome (σ ε : Type) where
  | revert (e : ε)
  | done (s : σ)
  | yield (outer inner : σ) (k : Bool → σ → Except ε σ)

/-- An object: operations `ι` on states `σ`, failing with `ε`, and changes `φ` the environment can
force on it without calling an operation. -/
structure Machine (σ ι φ ε : Type) where
  op : ι → σ → Outcome σ ε
  poke : φ → σ → σ

/-- One action of foreign code. The code that receives control in the middle of the operation of a
`call` performs `body` and then returns (`ok`) or fails. -/
inductive Act (ι φ : Type) where
  | call (i : ι) (body : List (Act ι φ)) (ok : Bool)
  | frame (body : List (Act ι φ)) (ok : Bool)
  | poke (p : φ)

namespace Act

variable {ι φ : Type} {Q : ι → Prop}

mutual
/-- Every operation called in the action, at any depth, satisfies `Q`. -/
def All (Q : ι → Prop) : Act ι φ → Prop
  | .call i body _ => Q i ∧ AllIn Q body
  | .frame body _ => AllIn Q body
  | .poke _ => True

/-- Every operation called in the actions, at any depth, satisfies `Q`. -/
def AllIn (Q : ι → Prop) : List (Act ι φ) → Prop
  | [] => True
  | a :: as => All Q a ∧ AllIn Q as
end

theorem all_call {i : ι} {body : List (Act ι φ)} {ok : Bool} :
    (Act.call i body ok).All Q ↔ Q i ∧ AllIn Q body := by
  rw [All]

theorem all_frame {body : List (Act ι φ)} {ok : Bool} :
    (Act.frame body ok).All Q ↔ AllIn Q body := by
  rw [All]

theorem allIn_nil : AllIn Q ([] : List (Act ι φ)) := by
  rw [AllIn]
  trivial

theorem allIn_cons {a : Act ι φ} {as : List (Act ι φ)} :
    AllIn Q (a :: as) ↔ a.All Q ∧ AllIn Q as := by
  rw [AllIn]

mutual
theorem all_true : ∀ a : Act ι φ, a.All fun _ => True
  | .call _ body _ => by rw [all_call]; exact ⟨trivial, allIn_true body⟩
  | .frame body _ => by rw [all_frame]; exact allIn_true body
  | .poke _ => by rw [All]; trivial

theorem allIn_true : ∀ as : List (Act ι φ), AllIn (fun _ => True) as
  | [] => allIn_nil
  | a :: as => by rw [allIn_cons]; exact ⟨all_true a, allIn_true as⟩
end

mutual
theorem All.mono {R : ι → Prop} (hQ : ∀ i, Q i → R i) : ∀ {a : Act ι φ}, a.All Q → a.All R
  | .call i body _, h => by
    rw [all_call] at h ⊢
    exact ⟨hQ i h.1, AllIn.mono hQ h.2⟩
  | .frame body _, h => by
    rw [all_frame] at h ⊢
    exact AllIn.mono hQ h
  | .poke _, _ => by rw [All]; trivial

theorem AllIn.mono {R : ι → Prop} (hQ : ∀ i, Q i → R i) :
    ∀ {as : List (Act ι φ)}, AllIn Q as → AllIn R as
  | [], _ => allIn_nil
  | a :: as, h => by
    rw [allIn_cons] at h ⊢
    exact ⟨All.mono hQ h.1, AllIn.mono hQ h.2⟩
end

end Act

namespace Machine

variable {σ ι φ ε : Type} (M : Machine σ ι φ ε)

/-- The end of an operation: a failure leaves the state it was called in. -/
def settle (s : σ) : Except ε σ → σ × Bool
  | .ok s' => (s', true)
  | .error _ => (s, false)

mutual
/-- The state after an action, and whether it succeeded. -/
def exec : Act ι φ → σ → σ × Bool
  | .call i body ok, s =>
    match M.op i s with
    | .revert _ => (s, false)
    | .done s' => (s', true)
    | .yield outer inner k => settle s (k ok (if ok then execAll body inner else outer))
  | .frame body ok, s => if ok then (execAll body s, true) else (s, false)
  | .poke p, s => (M.poke p s, true)

/-- The state after a list of actions; a failing one does not stop the next. -/
def execAll : List (Act ι φ) → σ → σ
  | [], s => s
  | a :: as, s => execAll as (exec a s).1
end

/-- While `as` is performed from `s`, foreign code has control in state `t`. Frames that fail later
are included. -/
inductive Observes : σ → List (Act ι φ) → σ → Prop where
  | here {s : σ} {as : List (Act ι φ)} : Observes s as s
  | next {s t : σ} {a : Act ι φ} {as : List (Act ι φ)} :
      Observes (M.exec a s).1 as t → Observes s (a :: as) t
  | callee {s t outer inner : σ} {k : Bool → σ → Except ε σ} {i : ι} {body as : List (Act ι φ)}
      {ok : Bool} :
      M.op i s = .yield outer inner k → Observes inner body t →
        Observes s (.call i body ok :: as) t
  | frame {s t : σ} {body as : List (Act ι φ)} {ok : Bool} :
      Observes s body t → Observes s (.frame body ok :: as) t

variable {M}

@[simp] theorem settle_ok (s s' : σ) : settle (ε := ε) s (.ok s') = (s', true) := rfl

@[simp] theorem settle_error (s : σ) (e : ε) : settle s (.error e : Except ε σ) = (s, false) := rfl

@[simp] theorem execAll_nil (s : σ) : M.execAll [] s = s := by
  rw [execAll]

@[simp] theorem execAll_cons (a : Act ι φ) (as : List (Act ι φ)) (s : σ) :
    M.execAll (a :: as) s = M.execAll as (M.exec a s).1 := by
  rw [execAll]

theorem exec_frame (body : List (Act ι φ)) (ok : Bool) (s : σ) :
    M.exec (.frame body ok) s = if ok then (M.execAll body s, true) else (s, false) := by
  rw [exec]

theorem exec_poke (p : φ) (s : σ) : M.exec (.poke p) s = (M.poke p s, true) := by
  rw [exec]

theorem exec_call_revert {i : ι} {s : σ} {e : ε} (h : M.op i s = .revert e)
    (body : List (Act ι φ)) (ok : Bool) : M.exec (.call i body ok) s = (s, false) := by
  rw [exec, h]

theorem exec_call_done {i : ι} {s s' : σ} (h : M.op i s = .done s')
    (body : List (Act ι φ)) (ok : Bool) : M.exec (.call i body ok) s = (s', true) := by
  rw [exec, h]

theorem exec_call_yield {i : ι} {s outer inner : σ} {k : Bool → σ → Except ε σ}
    (h : M.op i s = .yield outer inner k) (body : List (Act ι φ)) (ok : Bool) :
    M.exec (.call i body ok) s =
      settle s (k ok (if ok then M.execAll body inner else outer)) := by
  rw [exec, h]

/-- **A failing action changes nothing.** -/
theorem exec_of_failed {a : Act ι φ} {s : σ} (h : (M.exec a s).2 = false) :
    (M.exec a s).1 = s := by
  cases a with
  | poke p => simp [exec_poke] at h
  | frame body ok => cases ok <;> simp_all [exec_frame]
  | call i body ok =>
    cases hop : M.op i s with
    | revert e => rw [exec_call_revert hop]
    | done s' => simp [exec_call_done hop] at h
    | yield outer inner k =>
      rw [exec_call_yield hop] at h ⊢
      cases hk : k ok (if ok then M.execAll body inner else outer) with
      | error e => rfl
      | ok s' => simp [hk] at h

/-! ## Invariants -/

/-- The obligation on the single operations that satisfy `Q`. `I p` is the invariant while the
suspended operations owe `p`; an operation that yields moves to a new debt `p'`, and its
continuation pays it back. -/
structure SoundOn {P : Type} (M : Machine σ ι φ ε) (Q : ι → Prop) (I : P → σ → Prop) : Prop where
  poke : ∀ p e s, I p s → I p (M.poke e s)
  done : ∀ p i s s', Q i → I p s → M.op i s = .done s' → I p s'
  yield : ∀ p i s outer inner k, Q i → I p s → M.op i s = .yield outer inner k →
    (∃ p', I p' inner ∧ ∀ t t', I p' t → k true t = .ok t' → I p t') ∧
      ∀ t', k false outer = .ok t' → I p t'

section SoundOn

variable {P : Type} {I : P → σ → Prop} {Q : ι → Prop}

mutual
/-- **An action keeps the invariant**, whatever foreign code does in it. -/
theorem SoundOn.exec (hM : M.SoundOn Q I) {p : P} {s : σ} (hs : I p s) :
    ∀ a : Act ι φ, a.All Q → I p (M.exec a s).1
  | .poke e, _ => by
    rw [exec_poke]
    exact hM.poke p e s hs
  | .frame body ok, ha => by
    rw [Act.all_frame] at ha
    rw [exec_frame]
    cases ok with
    | false => exact hs
    | true => exact SoundOn.execAll hM hs body ha
  | .call i body ok, ha => by
    rw [Act.all_call] at ha
    obtain ⟨hi, hbody⟩ := ha
    cases hop : M.op i s with
    | revert e => rwa [exec_call_revert hop]
    | done s' =>
      rw [exec_call_done hop]
      exact hM.done p i s s' hi hs hop
    | yield outer inner k =>
      obtain ⟨⟨p', hinner, hpaid⟩, hundone⟩ := hM.yield p i s outer inner k hi hs hop
      have hrun := SoundOn.execAll hM hinner body hbody
      rw [exec_call_yield hop]
      cases hk : k ok (if ok then M.execAll body inner else outer) with
      | error e => exact hs
      | ok t' =>
        cases ok with
        | true => exact hpaid _ t' hrun hk
        | false => exact hundone t' hk

theorem SoundOn.execAll (hM : M.SoundOn Q I) {p : P} {s : σ} (hs : I p s) :
    ∀ as : List (Act ι φ), Act.AllIn Q as → I p (M.execAll as s)
  | [], _ => by rwa [execAll_nil]
  | a :: as, h => by
    rw [Act.allIn_cons] at h
    rw [execAll_cons]
    exact SoundOn.execAll hM (SoundOn.exec hM hs a h.1) as h.2
end

/-- Foreign code that calls such operations only sees states of the invariant, at some debt. -/
theorem SoundOn.observes (hM : M.SoundOn Q I) {p : P} {s t : σ} {as : List (Act ι φ)}
    (h : M.Observes s as t) (hs : I p s) (has : Act.AllIn Q as) : ∃ p', I p' t := by
  induction h generalizing p with
  | here => exact ⟨p, hs⟩
  | @next s t a as _ ih =>
    rw [Act.allIn_cons] at has
    exact ih (SoundOn.exec hM hs a has.1) has.2
  | @callee s t outer inner k i body as ok hop _ ih =>
    rw [Act.allIn_cons, Act.all_call] at has
    obtain ⟨⟨hi, hbody⟩, -⟩ := has
    obtain ⟨⟨p', hinner, -⟩, -⟩ := hM.yield p i s outer inner k hi hs hop
    exact ih hinner hbody
  | @frame s t body as ok _ ih =>
    rw [Act.allIn_cons, Act.all_frame] at has
    exact ih hs has.1

end SoundOn

/-- The obligation on every operation. -/
abbrev Sound {P : Type} (M : Machine σ ι φ ε) (I : P → σ → Prop) : Prop :=
  M.SoundOn (fun _ => True) I

section Sound

variable {P : Type} {I : P → σ → Prop}

theorem Sound.exec (hM : M.Sound I) {p : P} {s : σ} (hs : I p s) (a : Act ι φ) :
    I p (M.exec a s).1 :=
  SoundOn.exec hM hs a (Act.all_true a)

theorem Sound.execAll (hM : M.Sound I) {p : P} {s : σ} (hs : I p s) (as : List (Act ι φ)) :
    I p (M.execAll as s) :=
  SoundOn.execAll hM hs as (Act.allIn_true as)

/-- **Foreign code only sees states of the invariant**, at some debt. -/
theorem Sound.observes (hM : M.Sound I) {p : P} {s t : σ} {as : List (Act ι φ)}
    (h : M.Observes s as t) (hs : I p s) : ∃ p', I p' t :=
  SoundOn.observes hM h hs (Act.allIn_true as)

end Sound

/-! ## Growth along a preorder -/

/-- The same obligation for a preorder: operations only move up. -/
structure Grows (M : Machine σ ι φ ε) (R : σ → σ → Prop) : Prop where
  refl : ∀ s, R s s
  trans : ∀ {s t u}, R s t → R t u → R s u
  poke : ∀ e s, R s (M.poke e s)
  done : ∀ i s s', M.op i s = .done s' → R s s'
  yield : ∀ i s outer inner k, M.op i s = .yield outer inner k →
    R s inner ∧ (∀ t t', R inner t → k true t = .ok t' → R t t') ∧
      ∀ t', k false outer = .ok t' → R s t'

section Grows

variable {R : σ → σ → Prop}

/-- Being above a fixed state is an invariant; the debt is the state to stay above. -/
theorem Grows.sound (hM : M.Grows R) : M.Sound (P := σ) R where
  poke _ e s hs := hM.trans hs (hM.poke e s)
  done _ i s s' _ hs hop := hM.trans hs (hM.done i s s' hop)
  yield p i s outer inner k _ hs hop := by
    obtain ⟨hinner, hpaid, hundone⟩ := hM.yield i s outer inner k hop
    refine ⟨⟨inner, hM.refl inner, fun t t' ht hk => ?_⟩, fun t' hk => hM.trans hs (hundone t' hk)⟩
    exact hM.trans hs (hM.trans hinner (hM.trans ht (hpaid t t' ht hk)))

theorem Grows.exec (hM : M.Grows R) (a : Act ι φ) (s : σ) : R s (M.exec a s).1 :=
  Sound.exec hM.sound (hM.refl s) a

theorem Grows.execAll (hM : M.Grows R) (as : List (Act ι φ)) (s : σ) : R s (M.execAll as s) :=
  Sound.execAll hM.sound (hM.refl s) as

theorem Grows.observes (hM : M.Grows R) {s t : σ} {as : List (Act ι φ)}
    (h : M.Observes s as t) : R s t := by
  induction h with
  | here => exact hM.refl _
  | next _ ih => exact hM.trans (hM.exec _ _) ih
  | callee hop _ ih => exact hM.trans (hM.yield _ _ _ _ _ hop).1 ih
  | frame _ ih => exact ih

end Grows

end Machine

end CallTree
