import Mathlib.Data.Finset.Card
import Mathlib.Data.List.Basic

/-!
# Least recently used

A cache of `n` keys, the most recent one first. A key that is used moves to the front, and what no
longer fits falls off the end.

* `recency` — all keys ever used, in the order of their last use. The cache holds the first `n` of
  them (`put_take`, `touch_take`).
* `le_card_of_evicted` — a key falls off only when `n` others have been used since its last use.
-/

namespace Lru

variable {κ : Type} [DecidableEq κ] {n : Nat} {k x : κ} {l h : List κ}

/-- A key moves to the front. -/
def touch (k : κ) (l : List κ) : List κ := k :: l.erase k

/-- The same, and one key falls off if there are more than `n`. -/
def put (n : Nat) (k : κ) (l : List κ) : List κ := (touch k l).take n

/-- The keys of a history, which lists its uses with the latest first. -/
def recency : List κ → List κ
  | [] => []
  | k :: h => touch k (recency h)

theorem erase_take (hk : k ∈ l.take n) : (l.take n).erase k = (l.erase k).take (n - 1) := by
  induction l generalizing n with
  | nil => simp at hk
  | cons a l ih =>
    cases n with
    | zero => simp at hk
    | succ n =>
      by_cases ha : a = k
      · subst ha
        simp
      · have hmem : k ∈ l.take n := by simpa [Ne.symm ha] using hk
        cases n with
        | zero => simp at hmem
        | succ n =>
          rw [List.take_succ_cons, List.erase_cons_tail (by simpa using ha),
            List.erase_cons_tail (by simpa using ha), ih hmem]
          simp

theorem take_erase (hk : k ∉ l.take n) : (l.erase k).take n = l.take n := by
  induction l generalizing n with
  | nil => simp
  | cons a l ih =>
    cases n with
    | zero => simp
    | succ n =>
      obtain ⟨ha, hmem⟩ : k ≠ a ∧ k ∉ l.take n := by simpa using hk
      rw [List.erase_cons_tail (by simpa using Ne.symm ha), List.take_succ_cons,
        List.take_succ_cons, ih hmem]

/-- **Using a key that the cache holds.** -/
theorem touch_take (hk : k ∈ (recency h).take n) :
    touch k ((recency h).take n) = (recency (k :: h)).take n := by
  cases n with
  | zero => simp at hk
  | succ n => simp [touch, recency, erase_take hk]

/-- **Using any key**, with an eviction when there is no room. -/
theorem put_take (n : Nat) (k : κ) (h : List κ) :
    put n k ((recency h).take n) = (recency (k :: h)).take n := by
  cases n with
  | zero => rfl
  | succ n =>
    by_cases hk : k ∈ (recency h).take (n + 1)
    · rw [put, touch_take hk, List.take_take, Nat.min_self]
    · have hshort : k ∉ (recency h).take n := fun hmem =>
        hk ((List.take_sublist_take_left (Nat.le_succ n)).subset hmem)
      rw [put, touch, List.erase_of_not_mem hk]
      simp [recency, touch, take_erase hshort, List.take_take]

/-- What stands before a key has been used since its last use. -/
theorem exists_recency (hx : x ∈ h) : ∃ before after, recency h = before ++ x :: after ∧
    before.Nodup ∧ ∀ y ∈ before, y ∈ h.takeWhile fun y => y ≠ x := by
  induction h with
  | nil => cases hx
  | cons k h ih =>
    by_cases hk : k = x
    · subst hk
      exact ⟨[], (recency h).erase k, rfl, List.nodup_nil, fun y hy => by cases hy⟩
    · have hx' : x ∈ h := (List.mem_cons.1 hx).resolve_left (Ne.symm hk)
      obtain ⟨before, after, heq, hnodup, hused⟩ := ih hx'
      have hwhile : (k :: h).takeWhile (fun y => decide (y ≠ x)) =
          k :: h.takeWhile fun y => decide (y ≠ x) := by
        simp [hk]
      rw [hwhile]
      have hold : ∀ y ∈ before, y ∈ k :: h.takeWhile fun y => decide (y ≠ x) :=
        fun y hy => List.mem_cons_of_mem _ (hused y hy)
      by_cases hmem : k ∈ before
      · refine ⟨k :: before.erase k, after, ?_, ?_, ?_⟩
        · rw [recency, touch, heq, List.erase_append_left _ hmem, List.cons_append]
        · exact List.nodup_cons.2 ⟨hnodup.not_mem_erase, hnodup.erase k⟩
        · intro y hy
          rcases List.mem_cons.1 hy with rfl | hy
          · exact List.mem_cons_self
          · exact hold y (List.mem_of_mem_erase hy)
      · refine ⟨k :: before, after.erase k, ?_, List.nodup_cons.2 ⟨hmem, hnodup⟩, ?_⟩
        · rw [recency, touch, heq, List.erase_append_right _ hmem,
            List.erase_cons_tail (by simpa using Ne.symm hk), List.cons_append]
        · intro y hy
          rcases List.mem_cons.1 hy with rfl | hy
          · exact List.mem_cons_self
          · exact hold y hy

/-- **A key falls off** only when `n` other keys have been used since its last use. -/
theorem le_card_of_evicted (hx : x ∈ h) (hout : x ∉ (recency h).take n) :
    n ≤ (h.takeWhile fun y => y ≠ x).toFinset.card := by
  obtain ⟨before, after, heq, hnodup, hused⟩ := exists_recency hx
  have hlen : n ≤ before.length := by
    by_contra hlt
    refine hout ?_
    rw [heq, List.take_append, List.take_of_length_le (by omega)]
    refine List.mem_append_right _ ?_
    obtain ⟨m, hm⟩ : ∃ m, n - before.length = m + 1 := ⟨n - before.length - 1, by omega⟩
    rw [hm, List.take_succ_cons]
    exact List.mem_cons_self
  calc n ≤ before.length := hlen
    _ = before.toFinset.card := (List.toFinset_card_of_nodup hnodup).symm
    _ ≤ (h.takeWhile fun y => y ≠ x).toFinset.card :=
      Finset.card_le_card fun y hy => List.mem_toFinset.2 (hused y (List.mem_toFinset.1 hy))

end Lru
