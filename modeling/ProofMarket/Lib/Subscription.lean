import Mathlib.Data.List.Basic

/-!
# Channels that do not wait

A sender that never waits for its readers keeps the latest `capacity` values. A reader that has
fallen behind is told how many it has missed, and goes on with the oldest value that is left.

`Reader.Tally`: what a reader has got is a part of what was sent since it started to read, in order;
together with what it has missed it is all of it.
-/

namespace Subscription

variable {α : Type} {capacity start : Nat} {sent : List α}

/-- A reader with the position of its next value, what it has got, and how many it has missed. -/
structure Reader (α : Type) where
  next : Nat
  got : List α
  missed : Nat

namespace Reader

/-- A reader that starts behind what was sent. -/
def new (sent : List α) : Reader α := ⟨sent.length, [], 0⟩

/-- How many values wait for the reader. -/
def backlog (r : Reader α) (sent : List α) : Nat := sent.length - r.next

/-- The next value. -/
def value (capacity : Nat) (r : Reader α) (sent : List α) : Option (α × Reader α) :=
  if r.backlog sent ≤ capacity then
    sent[r.next]?.map fun a => (a, { r with next := r.next + 1, got := r.got ++ [a] })
  else none

/-- The reader has fallen behind: it misses what the channel has dropped. -/
def lagged (capacity : Nat) (r : Reader α) (sent : List α) : Option (Reader α) :=
  if capacity < r.backlog sent then
    some { r with
      next := sent.length - capacity
      missed := r.missed + (sent.length - capacity - r.next) }
  else none

/-- What a reader has got and missed since it started. -/
structure Tally (start : Nat) (sent : List α) (r : Reader α) : Prop where
  next_le : r.next ≤ sent.length
  got : r.got.Sublist ((sent.take r.next).drop start)
  count : start + r.got.length + r.missed = r.next

variable {r s : Reader α}

theorem tally_new (sent : List α) : Tally sent.length sent (new sent) :=
  ⟨Nat.le_refl _, List.nil_sublist _, rfl⟩

theorem Tally.append (h : Tally start sent r) (more : List α) : Tally start (sent ++ more) r where
  next_le := Nat.le_trans h.next_le (by simp)
  got := by
    rw [List.take_append_of_le_length h.next_le]
    exact h.got
  count := h.count

theorem value_eq_some {a : α} (h : r.value capacity sent = some (a, s)) :
    sent[r.next]? = some a ∧ s = { r with next := r.next + 1, got := r.got ++ [a] } := by
  unfold value at h
  split_ifs at h
  obtain ⟨b, hb, heq⟩ := Option.map_eq_some_iff.1 h
  cases heq
  exact ⟨hb, rfl⟩

theorem Tally.value {a : α} (h : Tally start sent r) (hr : r.value capacity sent = some (a, s)) :
    Tally start sent s := by
  obtain ⟨ha, rfl⟩ := value_eq_some hr
  have hlt : r.next < sent.length := (List.getElem?_eq_some_iff.1 ha).1
  have hstart : start ≤ (sent.take r.next).length := by
    have hcount := h.count
    rw [List.length_take]
    omega
  refine ⟨hlt, ?_, ?_⟩
  · show (r.got ++ [a]).Sublist ((sent.take (r.next + 1)).drop start)
    rw [List.take_add_one, ha, List.drop_append_of_le_length hstart]
    exact h.got.append (List.Sublist.refl _)
  · have hcount := h.count
    simp only [List.length_append, List.length_singleton]
    omega

theorem Tally.lagged (h : Tally start sent r) (hr : r.lagged capacity sent = some s) :
    Tally start sent s := by
  unfold Reader.lagged backlog at hr
  split_ifs at hr with hbehind
  cases hr
  have hle : r.next ≤ sent.length - capacity := by omega
  refine ⟨Nat.sub_le _ _, ?_, ?_⟩
  · refine h.got.trans ?_
    refine List.Sublist.drop ?_ start
    rw [← Nat.min_eq_left hle, ← List.take_take]
    exact List.take_sublist _ _
  · have hcount := h.count
    show start + r.got.length + (r.missed + (sent.length - capacity - r.next)) =
      sent.length - capacity
    omega

/-- **A reader that has missed nothing** has got all there was, up to its position. -/
theorem Tally.eq_of_missed (h : Tally start sent r) (hr : r.missed = 0) :
    r.got = (sent.take r.next).drop start := by
  refine h.got.eq_of_length ?_
  have hcount := h.count
  have hle := h.next_le
  rw [List.length_drop, List.length_take]
  omega

/-- A reader misses something only when it is further behind than the channel remembers. -/
theorem backlog_of_lagged (h : r.lagged capacity sent = some s) : capacity < r.backlog sent := by
  unfold Reader.lagged at h
  split_ifs at h with hbehind
  exact hbehind

end Reader

end Subscription
