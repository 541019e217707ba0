import Mathlib.Data.List.Basic

/-!
# Bounded channels

A queue with room for `n` items: sending waits while it is full, receiving while it is empty.
-/

structure Channel (n : Nat) (α : Type) where
  items : List α
  bounded : items.length ≤ n

namespace Channel

variable {n : Nat} {α : Type}

def empty : Channel n α := ⟨[], Nat.zero_le n⟩

def Full (q : Channel n α) : Prop := q.items.length = n

instance (q : Channel n α) : Decidable q.Full := inferInstanceAs (Decidable (_ = _))

/-- `none` is waiting. -/
def push (q : Channel n α) (a : α) : Option (Channel n α) :=
  if h : q.items.length < n then
    some ⟨q.items ++ [a], by
      rw [List.length_append]
      exact h⟩
  else none

def pop : Channel n α → Option (α × Channel n α)
  | ⟨[], _⟩ => none
  | ⟨a :: items, h⟩ => some (a, ⟨items, Nat.le_of_succ_le h⟩)

theorem push_eq_some {q r : Channel n α} {a : α} (h : q.push a = some r) :
    ¬ q.Full ∧ r.items = q.items ++ [a] := by
  unfold push at h
  split_ifs at h with hlt
  cases h
  exact ⟨Nat.ne_of_lt hlt, rfl⟩

theorem exists_push {q : Channel n α} (h : ¬ q.Full) (a : α) : ∃ r, q.push a = some r := by
  have hlt : q.items.length < n := Nat.lt_of_le_of_ne q.bounded h
  exact ⟨_, dif_pos hlt⟩

theorem full_of_not_lt {q : Channel n α} (h : ¬ q.items.length < n) : q.Full :=
  Nat.le_antisymm q.bounded (Nat.not_lt.1 h)

theorem Full.ne_nil {q : Channel n α} (h : q.Full) (hn : 0 < n) : q.items ≠ [] := by
  intro hnil
  rw [Full, hnil] at h
  exact Nat.ne_of_lt hn h

theorem push_of_full {q : Channel n α} (h : q.Full) (a : α) : q.push a = none :=
  dif_neg (Nat.not_lt.2 (Nat.le_of_eq h.symm))

theorem pop_eq_some {q r : Channel n α} {a : α} (h : q.pop = some (a, r)) :
    q.items = a :: r.items := by
  obtain ⟨items, hbound⟩ := q
  cases items with
  | nil => cases h
  | cons b items =>
    cases h
    rfl

theorem exists_pop {q : Channel n α} (h : q.items ≠ []) : ∃ a r, q.pop = some (a, r) := by
  obtain ⟨items, hbound⟩ := q
  cases items with
  | nil => exact absurd rfl h
  | cons a items => exact ⟨a, _, rfl⟩

end Channel
