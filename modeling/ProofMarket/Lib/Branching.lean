import Mathlib.Algebra.BigOperators.Ring.Finset
import Mathlib.Algebra.Order.BigOperators.Group.Finset
import Mathlib.Algebra.Order.Ring.Nat

/-!
# Processes that branch

Every step takes one item out of a bag and puts back at most `f` items of smaller rank, which go
back to the same root as the item they replace. The bag can grow, so its size is no measure.

**The budget.** An item of rank `n` is worth `1 + f + … + f ^ n`, which pays for one step and for
`f` items of rank `n - 1`. No step raises the worth of the bag, and the step itself costs one.

* `Run.countP_add_budget_le` — the steps a root can cause, and what is left of it in the bag.
* `not_infinite` — every schedule ends.
-/

namespace Branching

open Multiset

variable {α ι : Type} {f : ℕ} {rank : α → ℕ} {root : α → ι}

/-- What an item of rank `n` is worth. -/
def cost (f n : ℕ) : ℕ := ∑ k ∈ Finset.range (n + 1), f ^ k

@[simp] theorem cost_zero (f : ℕ) : cost f 0 = 1 := by
  simp [cost]

/-- **One step and `f` smaller items.** -/
theorem cost_succ (f n : ℕ) : cost f (n + 1) = 1 + f * cost f n := by
  rw [cost, Finset.sum_range_succ', cost, Finset.mul_sum, pow_zero, Nat.add_comm]
  simp only [pow_succ']

theorem cost_pos (f n : ℕ) : 0 < cost f n := by
  cases n with
  | zero => simp
  | succ n =>
    rw [cost_succ]
    omega

theorem cost_mono (f : ℕ) {m n : ℕ} (h : m ≤ n) : cost f m ≤ cost f n :=
  Finset.sum_le_sum_of_subset (Finset.range_mono (by omega))

/-- One step: `a` is replaced. -/
def Step (f : ℕ) (rank : α → ℕ) (root : α → ι) (s : Multiset α) (a : α) (t : Multiset α) : Prop :=
  ∃ rest children, s = a ::ₘ rest ∧ t = children + rest ∧ children.card ≤ f ∧
    ∀ c ∈ children, rank c < rank a ∧ root c = root a

/-- Steps one after another, with the items they take. -/
inductive Run (f : ℕ) (rank : α → ℕ) (root : α → ι) : Multiset α → List α → Multiset α → Prop where
  | nil (s : Multiset α) : Run f rank root s [] s
  | cons {s t u : Multiset α} {a : α} {as : List α} :
      Step f rank root s a t → Run f rank root t as u → Run f rank root s (a :: as) u

/-- What a bag is worth. -/
def worth (f : ℕ) (rank : α → ℕ) (s : Multiset α) : ℕ := (s.map fun a => cost f (rank a)).sum

@[simp] theorem worth_zero : worth f rank 0 = 0 := by
  simp [worth]

@[simp] theorem worth_cons (a : α) (s : Multiset α) :
    worth f rank (a ::ₘ s) = cost f (rank a) + worth f rank s := by
  simp [worth]

@[simp] theorem worth_add (s t : Multiset α) :
    worth f rank (s + t) = worth f rank s + worth f rank t := by
  simp [worth]

theorem card_le_worth (s : Multiset α) : s.card ≤ worth f rank s := by
  induction s using Multiset.induction with
  | empty => simp
  | cons a s ih =>
    have ha := cost_pos f (rank a)
    rw [worth_cons, card_cons]
    omega

theorem worth_le {n : ℕ} (s : Multiset α) (h : ∀ a ∈ s, rank a ≤ n) :
    worth f rank s ≤ s.card * cost f n := by
  induction s using Multiset.induction with
  | empty => simp
  | cons a s ih =>
    have ha : cost f (rank a) ≤ cost f n := cost_mono f (h a (mem_cons_self a s))
    have hs := ih fun b hb => h b (mem_cons_of_mem hb)
    rw [worth_cons, card_cons, Nat.succ_mul]
    omega

/-- **An item pays for the step that takes it** and for what replaces it. -/
theorem worth_children_lt {a : α} {children : Multiset α} (hcard : children.card ≤ f)
    (hrank : ∀ c ∈ children, rank c < rank a) : worth f rank children < cost f (rank a) := by
  cases hn : rank a with
  | zero =>
    have hnone : children = 0 := eq_zero_of_forall_notMem fun c hc => by
      have hlt := hrank c hc
      omega
    simp [hnone]
  | succ n =>
    have hle : ∀ c ∈ children, rank c ≤ n := fun c hc => by
      have hlt := hrank c hc
      omega
    calc worth f rank children ≤ children.card * cost f n := worth_le children hle
      _ ≤ f * cost f n := Nat.mul_le_mul_right _ hcard
      _ < cost f (n + 1) := by
        rw [cost_succ]
        omega

theorem Step.worth_lt {s t : Multiset α} {a : α} (h : Step f rank root s a t) :
    worth f rank t < worth f rank s := by
  obtain ⟨rest, children, rfl, rfl, hcard, hchildren⟩ := h
  have hlt := worth_children_lt hcard fun c hc => (hchildren c hc).1
  rw [worth_add, worth_cons]
  omega

/-- **Every schedule ends.** -/
theorem not_infinite (s : ℕ → Multiset α) (a : ℕ → α) :
    ¬ ∀ n, Step f rank root (s n) (a n) (s (n + 1)) := by
  intro h
  have hdown : ∀ n, worth f rank (s n) + n ≤ worth f rank (s 0) := by
    intro n
    induction n with
    | zero => simp
    | succ n ih =>
      have hlt := (h n).worth_lt
      omega
  have hbound := hdown (worth f rank (s 0) + 1)
  omega

section Root

variable [DecidableEq ι]

/-- What the items of one root are worth. -/
def budget (f : ℕ) (rank : α → ℕ) (root : α → ι) (r : ι) (s : Multiset α) : ℕ :=
  worth f rank (s.filter fun a => root a = r)

theorem Step.budget_le {s t : Multiset α} {a : α} (h : Step f rank root s a t) (r : ι) :
    (if root a = r then 1 else 0) + budget f rank root r t ≤ budget f rank root r s := by
  obtain ⟨rest, children, rfl, rfl, hcard, hchildren⟩ := h
  unfold budget
  rw [filter_add, worth_add]
  by_cases hr : root a = r
  · have hall : children.filter (fun c => root c = r) = children :=
      filter_eq_self.2 fun c hc => (hchildren c hc).2.trans hr
    have hkeep : (a ::ₘ rest).filter (fun c => root c = r) =
        a ::ₘ rest.filter fun c => root c = r := filter_cons_of_pos _ hr
    have hlt := worth_children_lt hcard fun c hc => (hchildren c hc).1
    rw [hkeep, worth_cons, hall, if_pos hr]
    omega
  · have hnone : children.filter (fun c => root c = r) = 0 :=
      filter_eq_nil.2 fun c hc hc' => hr ((hchildren c hc).2.symm.trans hc')
    have hdrop : (a ::ₘ rest).filter (fun c => root c = r) = rest.filter fun c => root c = r :=
      filter_cons_of_neg _ hr
    rw [hdrop, hnone, if_neg hr, worth_zero]
    omega

/-- **What a root can cause.** The steps on its items so far, and what those in the bag are still
worth, never exceed what its first items were worth. -/
theorem Run.countP_add_budget_le {s t : Multiset α} {as : List α} (h : Run f rank root s as t)
    (r : ι) :
    as.countP (fun a => root a = r) + budget f rank root r t ≤ budget f rank root r s := by
  induction h with
  | nil s => simp
  | cons hstep _ ih =>
    have hfirst := hstep.budget_le r
    rw [List.countP_cons]
    simp only [decide_eq_true_eq]
    omega

/-- The same for what is still in the bag, item by item. -/
theorem Run.countP_add_card_le {s t : Multiset α} {as : List α} (h : Run f rank root s as t)
    (r : ι) :
    as.countP (fun a => root a = r) + (t.filter fun a => root a = r).card ≤
      budget f rank root r s := by
  have hrun := h.countP_add_budget_le r
  have hleft : (t.filter fun a => root a = r).card ≤ budget f rank root r t := card_le_worth _
  omega

theorem budget_of_unique {s : Multiset α} {a : α} {r : ι}
    (h : s.filter (fun b => root b = r) = {a}) : budget f rank root r s = cost f (rank a) := by
  simp [budget, h, worth]

end Root

end Branching
