import Mathlib.Algebra.BigOperators.Finprod

/-!
# Totals of finitely supported maps

The total of a map over an unbounded set of keys, and how it moves when one entry changes. This is
what relates a scalar balance to the entries of a mapping.
-/

namespace Total

variable {κ M : Type*} [AddCommMonoid M]

theorem support_update_finite [DecidableEq κ] {f : κ → M} (hf : (Function.support f).Finite)
    (k : κ) (a : M) : (Function.support (Function.update f k a)).Finite := by
  refine (hf.insert k).subset fun x hx => ?_
  by_cases hxk : x = k
  · exact .inl hxk
  · rw [Function.mem_support, Function.update_of_ne hxk] at hx
    exact .inr hx

/-- Changing one entry changes the total by the difference. -/
theorem finsum_update_add [DecidableEq κ] {f : κ → M} (hf : (Function.support f).Finite)
    (k : κ) (a : M) : (∑ᶠ x, Function.update f k a x) + f k = (∑ᶠ x, f x) + a := by
  classical
  -- Both totals are sums over the finite set of the old keys and `k`.
  let s : Finset κ := insert k hf.toFinset
  have hk : k ∈ s := Finset.mem_insert_self _ _
  have hold : Function.support f ⊆ s := fun x hx =>
    Finset.mem_insert_of_mem (hf.mem_toFinset.2 hx)
  have hnew : Function.support (Function.update f k a) ⊆ s := by
    intro x hx
    by_cases hxk : x = k
    · exact hxk ▸ hk
    · rw [Function.mem_support, Function.update_of_ne hxk] at hx
      exact hold hx
  rw [finsum_eq_sum_of_support_subset _ hnew, finsum_eq_sum_of_support_subset _ hold,
    Finset.sum_update_of_mem hk, Finset.sdiff_singleton_eq_erase, add_assoc,
    Finset.sum_erase_add s f hk, add_comm]

end Total
