/-
Sums over a table or a list of which one row changes.

A ledger is a sum over the rows of a table, and an operation changes one
row. The statements avoid subtraction: the old row stands on the side of
the new sum and the new row on the side of the old sum, so that `omega`
can use them.
-/
import Mathlib.Algebra.BigOperators.Group.Finset.Basic
import Mathlib.Algebra.Order.BigOperators.Group.Finset
import Mathlib.Algebra.Order.Ring.Int

namespace Xv6Labs.Lib

variable {k n : Nat} {f g : Nat → Nat}

open Finset

/-- Two tables that agree off row `k` have sums that differ by that row. -/
theorem sum_exchange (hk : k < n)
    (h : ∀ i, i < n → i ≠ k → f i = g i) : ∑ i ∈ range n, f i + g k = ∑ i ∈ range n, g i + f k := by
  have hmem : k ∈ range n := mem_range.mpr hk
  rw [← add_sum_erase _ f hmem, ← add_sum_erase _ g hmem]
  have hrest : ∑ i ∈ (range n).erase k, f i = ∑ i ∈ (range n).erase k, g i := by
    refine sum_congr rfl fun i hi => ?_
    rw [mem_erase, mem_range] at hi
    exact h i hi.2 hi.1
  omega

theorem sum_same (h : ∀ i, i < n → f i = g i) : ∑ i ∈ range n, f i = ∑ i ∈ range n, g i :=
  sum_congr rfl fun i hi => h i (mem_range.mp hi)

/-- A row is at most the sum. -/
theorem row_le_sum (hk : k < n) : f k ≤ ∑ i ∈ range n, f i :=
  single_le_sum (fun _ _ => Nat.zero_le _) (mem_range.mpr hk)

/-- Two different rows are together at most the sum. -/
theorem two_rows_le_sum {j : Nat} (hj : j < n)
    (hk : k < n) (hne : j ≠ k) : f j + f k ≤ ∑ i ∈ range n, f i := by
  rw [← add_sum_erase _ f (mem_range.mpr hj)]
  have hmem : k ∈ (range n).erase j := mem_erase.mpr ⟨hne.symm, mem_range.mpr hk⟩
  have := single_le_sum (f := f) (fun _ _ => Nat.zero_le _) hmem
  omega

theorem exists_row_pos (h : 0 < ∑ i ∈ range n, f i) : ∃ k, k < n ∧ 0 < f k := by
  by_contra hno
  have : ∑ i ∈ range n, f i = 0 := by
    refine sum_eq_zero fun i hi => ?_
    by_contra hne
    exact hno ⟨i, mem_range.mp hi, Nat.pos_of_ne_zero hne⟩
  omega

/-- A sum of rows that are all zero. -/
theorem sum_zero (h : ∀ i, i < n → f i = 0) : ∑ i ∈ range n, f i = 0 :=
  sum_eq_zero fun i hi => h i (mem_range.mp hi)

-- == sums over a list

section

variable {α : Type _} {l : List α} {i : Nat} {a b : α} (f : α → Nat)

/-- One entry of a list changes. -/
theorem sum_map_set (h : l[i]? = some a) : ((l.set i b).map f).sum + f a = (l.map f).sum + f b := by
  induction l generalizing i with
  | nil => cases h
  | cons c l ih =>
    cases i with
    | zero =>
      cases h
      simp only [List.set_cons_zero, List.map_cons, List.sum_cons]
      omega
    | succ i =>
      have := ih h
      simp only [List.set_cons_succ, List.map_cons, List.sum_cons]
      omega

/-- One entry of a list goes. -/
theorem sum_map_eraseIdx (h : l[i]? = some a) :
    ((l.eraseIdx i).map f).sum + f a = (l.map f).sum := by
  induction l generalizing i with
  | nil => cases h
  | cons c l ih =>
    cases i with
    | zero =>
      cases h
      simp only [List.eraseIdx_cons_zero, List.map_cons, List.sum_cons]
      omega
    | succ i =>
      have := ih h
      simp only [List.eraseIdx_cons_succ, List.map_cons, List.sum_cons]
      omega

end

end Xv6Labs.Lib
