import Mathlib.Logic.Relation

/-!
# Labelled transition systems

A system is a partial step function on states and labels: a label names what happens next and
carries every choice the environment makes. A run is any sequence of enabled steps; `ok` restricts
the steps a run may take, by the state they are taken in.

* `Steps.invariant` — what every allowed step preserves, every run preserves.
* `Path.invariant` — the same about a run and the states it has been in.
* `Steps.simulate` — when every step can be matched in another system, every run can.
* `run` — executes a list of labels: the runs one can show by evaluation, or cut in two.
* `run_simulate` — when every step can be matched with what is observed of it, every run can.
-/

namespace Transition

variable {σ α : Type} {step : σ → α → Option σ} {ok ok' : σ → α → Prop} {s t u : σ}

/-- One allowed step. -/
def Next (step : σ → α → Option σ) (ok : σ → α → Prop) (s t : σ) : Prop :=
  ∃ l, ok s l ∧ step s l = some t

/-- A run of allowed steps. -/
abbrev Steps (step : σ → α → Option σ) (ok : σ → α → Prop) : σ → σ → Prop :=
  Relation.ReflTransGen (Next step ok)

/-- No restriction on the steps. -/
abbrev Any (_ : σ) (_ : α) : Prop := True

/-- **What every allowed step preserves, every run preserves.** -/
theorem Steps.invariant {I : σ → Prop}
    (hstep : ∀ s l t, I s → ok s l → step s l = some t → I t)
    (h : Steps step ok s t) (hs : I s) : I t := by
  induction h with
  | refl => exact hs
  | tail _ hnext ih =>
    obtain ⟨l, hl, hst⟩ := hnext
    exact hstep _ l _ ih hl hst

/-- **When every allowed step can be matched by a run of another system**, so can every run. -/
theorem Steps.simulate {τ β : Type} {step' : τ → β → Option τ} {ok' : τ → β → Prop}
    {R : σ → τ → Prop}
    (hstep : ∀ s l t a, R s a → ok s l → step s l = some t → ∃ b, Steps step' ok' a b ∧ R t b)
    (h : Steps step ok s t) {a : τ} (hs : R s a) : ∃ b, Steps step' ok' a b ∧ R t b := by
  induction h with
  | refl => exact ⟨a, .refl, hs⟩
  | tail _ hnext ih =>
    obtain ⟨l, hl, hst⟩ := hnext
    obtain ⟨b, hb, hR⟩ := ih
    obtain ⟨c, hc, hR'⟩ := hstep _ l _ b hR hl hst
    exact ⟨c, hb.trans hc, hR'⟩

theorem Steps.mono (hok : ∀ s l, ok s l → ok' s l) (h : Steps step ok s t) :
    Steps step ok' s t :=
  Relation.ReflTransGen.mono (fun _ _ ⟨l, hl, hst⟩ => ⟨l, hok _ l hl, hst⟩) _ _ h

theorem Steps.cons (l : α) (hl : ok s l) (hst : step s l = some t) (h : Steps step ok t u) :
    Steps step ok s u :=
  .head ⟨l, hl, hst⟩ h

/-- A run of allowed steps with the states it has been in, the last one first. -/
inductive Path (step : σ → α → Option σ) (ok : σ → α → Prop) (s : σ) : List σ → σ → Prop where
  | refl : Path step ok s [s] s
  | tail {past : List σ} {t u : σ} : Path step ok s past t → Next step ok t u →
      Path step ok s (u :: past) u

/-- **What every allowed step preserves of a state and its past, every run preserves.** -/
theorem Path.invariant {I : List σ → σ → Prop} {past : List σ}
    (hstep : ∀ past s l t, I past s → ok s l → step s l = some t → I (t :: past) t)
    (h : Path step ok s past t) (hs : I [s] s) : I past t := by
  induction h with
  | refl => exact hs
  | tail _ hnext ih =>
    obtain ⟨l, hl, hst⟩ := hnext
    exact hstep _ _ l _ ih hl hst

theorem Path.mono {past : List σ} (hok : ∀ s l, ok s l → ok' s l) (h : Path step ok s past t) :
    Path step ok' s past t := by
  induction h with
  | refl => exact .refl
  | tail _ hnext ih =>
    obtain ⟨l, hl, hst⟩ := hnext
    exact ih.tail ⟨l, hok _ l hl, hst⟩

theorem Steps.exists_path (h : Steps step ok s t) : ∃ past, Path step ok s past t := by
  induction h with
  | refl => exact ⟨[s], .refl⟩
  | tail _ hnext ih =>
    obtain ⟨past, hpast⟩ := ih
    exact ⟨_, hpast.tail hnext⟩

/-- The state after performing `ls`, if every step of it is enabled. -/
def run (step : σ → α → Option σ) : List α → σ → Option σ
  | [], s => some s
  | l :: ls, s => (step s l).bind (run step ls)

theorem run_append (as bs : List α) (s : σ) :
    run step (as ++ bs) s = (run step as s).bind (run step bs) := by
  induction as generalizing s with
  | nil => rfl
  | cons a as ih =>
    simp only [List.cons_append, run]
    cases step s a with
    | none => rfl
    | some t => exact ih t

theorem run_split {as bs : List α} (h : run step (as ++ bs) s = some t) :
    ∃ u, run step as s = some u ∧ run step bs u = some t := by
  rw [run_append] at h
  exact Option.bind_eq_some_iff.1 h

/-- **When every step can be matched by a run with the same observations**, so can every run. -/
theorem run_simulate {τ β ε : Type} {step' : τ → β → Option τ} {obs : α → Option ε}
    {obs' : β → Option ε} {R : σ → τ → Prop}
    (hstep : ∀ s l t a, R s a → step s l = some t →
      ∃ bs b, run step' bs a = some b ∧ bs.filterMap obs' = (obs l).toList ∧ R t b) :
    ∀ {ls : List α} {s t : σ} {a : τ}, R s a → run step ls s = some t →
      ∃ bs b, run step' bs a = some b ∧ bs.filterMap obs' = ls.filterMap obs ∧ R t b
  | [], s, t, a, hs, h => by
    cases h
    exact ⟨[], a, rfl, rfl, hs⟩
  | l :: ls, s, t, a, hs, h => by
    obtain ⟨u, hu, hrest⟩ := Option.bind_eq_some_iff.1 h
    obtain ⟨bs, b, hb, hfirst, hR⟩ := hstep s l u a hs hu
    obtain ⟨cs, c, hc, hobs, hR'⟩ := run_simulate hstep hR hrest
    refine ⟨bs ++ cs, c, ?_, ?_, hR'⟩
    · rw [run_append, hb]
      exact hc
    · rw [List.filterMap_append, hfirst, hobs]
      cases hl : obs l <;> simp [hl]

theorem steps_of_run : ∀ {ls : List α} {s t : σ}, (∀ l ∈ ls, ∀ u, ok u l) →
    run step ls s = some t → Steps step ok s t
  | [], s, t, _, h => by
    cases h
    exact .refl
  | l :: ls, s, t, hok, h => by
    obtain ⟨u, hu, hrest⟩ := Option.bind_eq_some_iff.1 h
    have htail : ∀ l' ∈ ls, ∀ u, ok u l' := fun l' hl' => hok l' (List.mem_cons_of_mem _ hl')
    exact .cons l (hok l List.mem_cons_self s) hu (steps_of_run htail hrest)

/-- A run is reached by evaluating what is observed of its last state. -/
theorem exists_of_run {β : Type} {f : σ → β} {b : β} {ls : List α} {s : σ}
    (hok : ∀ l ∈ ls, ∀ u, ok u l) (h : (run step ls s).map f = some b) :
    ∃ t, Steps step ok s t ∧ f t = b := by
  obtain ⟨t, ht, hb⟩ := Option.map_eq_some_iff.1 h
  exact ⟨t, steps_of_run hok ht, hb⟩

/-- The step function that checks what a run may do. -/
def checked (step : σ → α → Option σ) (ok : σ → α → Prop) [∀ s l, Decidable (ok s l)] (s : σ)
    (l : α) : Option σ :=
  if ok s l then step s l else none

theorem checked_eq_some [∀ s l, Decidable (ok s l)] {l : α} (h : checked step ok s l = some t) :
    ok s l ∧ step s l = some t := by
  unfold checked at h
  split at h
  · rename_i hl
    exact ⟨hl, h⟩
  · cases h

/-- The same when one part of what a run may do is decided, and the other holds of its labels. -/
theorem exists_of_checked_and [∀ s l, Decidable (ok s l)] {β : Type} {f : σ → β} {b : β} {s : σ}
    {ls : List α} (hok' : ∀ l ∈ ls, ∀ u, ok' u l)
    (h : (run (checked step ok) ls s).map f = some b) :
    ∃ t, Steps step (fun u l => ok u l ∧ ok' u l) s t ∧ f t = b := by
  obtain ⟨t, ht, hb⟩ := exists_of_run hok' h
  refine ⟨t, Relation.ReflTransGen.mono ?_ _ _ ht, hb⟩
  rintro u v ⟨l, hl', hl⟩
  obtain ⟨hok, hst⟩ := checked_eq_some hl
  exact ⟨l, ⟨hok, hl'⟩, hst⟩

/-- The same by evaluation alone, when what a run may do can be decided. -/
theorem exists_of_checked [∀ s l, Decidable (ok s l)] {β : Type} {f : σ → β} {b : β} {s : σ}
    {ls : List α} (h : (run (checked step ok) ls s).map f = some b) :
    ∃ t, Steps step ok s t ∧ f t = b := by
  have hany : ∀ l ∈ ls, ∀ u : σ, Any u l := fun _ _ _ => trivial
  obtain ⟨t, ht, hb⟩ := exists_of_checked_and hany h
  exact ⟨t, ht.mono fun _ _ hl => hl.1, hb⟩

end Transition
