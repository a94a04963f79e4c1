/-
Ones'-complement sums of words.

A word is a number below `M`. The sum of two words puts the carry out of
the top back in at the bottom, so it is a sum modulo `M - 1` in which 0
and `M - 1` both stand for zero: 0 is the sum of zeros only.

`OnesRep M s r` says that the word `r` stands for the number `s`. It has
one solution for each `s`, and both ways to sum words give it: adding them
one by one with the carry, and adding them as numbers and folding the
high half onto the low half twice.
-/
import Mathlib.Data.Nat.ModEq
import Mathlib.Tactic.Ring

namespace Xv6Labs.Lib

/-- Addition with the carry put back in. -/
def onesAdd (M a b : Nat) : Nat := if a + b < M then a + b else a + b - (M - 1)

/-- The sum of words. -/
def onesSum (M : Nat) (ws : List Nat) : Nat := ws.foldl (onesAdd M) 0

/-- The word `r` stands for the number `s`. -/
structure OnesRep (M s r : Nat) : Prop where
  lt : r < M
  modEq : r ≡ s [MOD M - 1]
  zero : r = 0 ↔ s = 0

variable {M s r : Nat}

theorem OnesRep.unique {r' : Nat} (h : OnesRep M s r) (h' : OnesRep M s r') : r = r' := by
  by_cases hs : s = 0
  · rw [h.zero.mpr hs, h'.zero.mpr hs]
  -- both are in 1, ..., M - 1, where residues differ
  have hr : 0 < r := Nat.pos_of_ne_zero fun h0 => hs (h.zero.mp h0)
  have hr' : 0 < r' := Nat.pos_of_ne_zero fun h0 => hs (h'.zero.mp h0)
  have hmod : r - 1 ≡ r' - 1 [MOD M - 1] := by
    refine Nat.ModEq.add_right_cancel' 1 ?_
    rw [Nat.sub_add_cancel hr, Nat.sub_add_cancel hr']
    exact h.modEq.trans h'.modEq.symm
  have heq := hmod.eq_of_lt_of_lt (by have := h.lt; omega) (by have := h'.lt; omega)
  omega

theorem OnesRep.add {x : Nat} (h : OnesRep M s r) (hx : x < M) :
    OnesRep M (s + x) (onesAdd M r x) := by
  have hlt := h.lt
  have hzero := h.zero
  unfold onesAdd
  split
  · exact ⟨by omega, h.modEq.add_right x, by omega⟩
  · next hcarry =>
    refine ⟨by omega, ?_, by omega⟩
    have hback : r + x - (M - 1) + (M - 1) ≡ s + x [MOD M - 1] := by
      rw [Nat.sub_add_cancel (by omega)]
      exact h.modEq.add_right x
    exact (Nat.ModEq.symm (by simp [Nat.ModEq])).trans hback

theorem OnesRep.foldl {ws : List Nat} (h : OnesRep M s r) (hws : ∀ w ∈ ws, w < M) :
    OnesRep M (s + ws.sum) (ws.foldl (onesAdd M) r) := by
  induction ws generalizing s r with
  | nil => exact h
  | cons w ws ih =>
    rw [List.sum_cons, ← Nat.add_assoc]
    refine ih (h.add (hws w List.mem_cons_self)) fun v hv => ?_
    exact hws v (List.mem_cons_of_mem w hv)

/-- The sum of words stands for the sum of numbers. -/
theorem onesRep_onesSum {ws : List Nat} (hM : 0 < M)
    (hws : ∀ w ∈ ws, w < M) : OnesRep M ws.sum (onesSum M ws) := by
  have h0 : OnesRep M 0 0 := ⟨hM, rfl, Iff.rfl⟩
  have h := h0.foldl hws
  rw [Nat.zero_add] at h
  exact h

/-- Folding a number keeps what it stands for. -/
theorem fold_modEq (hM : 0 < M) : s % M + s / M ≡ s [MOD M - 1] := by
  have hs : s = s % M + s / M + (M - 1) * (s / M) := by
    have hdiv := Nat.mod_add_div s M
    obtain ⟨m, rfl⟩ : ∃ m, M = m + 1 := ⟨M - 1, by omega⟩
    calc s = s % (m + 1) + (m + 1) * (s / (m + 1)) := hdiv.symm
      _ = s % (m + 1) + s / (m + 1) + m * (s / (m + 1)) := by ring
  conv_rhs => rw [hs]
  simp [Nat.ModEq]

/-- Two folds are enough for a number of two words. -/
theorem OnesRep.twoFolds (hM : 1 < M) (hs : s < M * M) :
    OnesRep M s ((s % M + s / M + (s % M + s / M) / M) % M) := by
  have hlow : s % M < M := Nat.mod_lt s (by omega)
  have hhigh : s / M < M := Nat.div_lt_of_lt_mul hs
  have hfold : s % M + s / M ≡ s [MOD M - 1] := fold_modEq (by omega)
  have hzero : s % M + s / M = 0 ↔ s = 0 := by
    constructor
    · intro h0
      obtain ⟨hmod, hquot⟩ := Nat.add_eq_zero_iff.mp h0
      have hdiv := Nat.mod_add_div s M
      rw [hquot] at hdiv
      omega
    · rintro rfl
      simp
  have hle : s % M + s / M ≤ 2 * M - 2 := by
    generalize s / M = q at hhigh
    omega
  generalize s % M + s / M = t at hfold hzero hle ⊢
  by_cases ht : t < M
  · rw [Nat.div_eq_of_lt ht, Nat.add_zero, Nat.mod_eq_of_lt ht]
    exact ⟨ht, hfold, hzero⟩
  -- the first fold carried: the second adds that carry and drops it
  · have hquot : t / M = 1 := by
      rw [Nat.div_eq_of_lt_le] <;> omega
    have hmod : (t + 1) % M = t + 1 - M := by
      rw [Nat.mod_eq_sub_mod (by omega), Nat.mod_eq_of_lt (by omega)]
    rw [hquot, hmod]
    refine ⟨by omega, ?_, by omega⟩
    have hback : t + 1 - M + (M - 1) ≡ s [MOD M - 1] := by
      rw [show t + 1 - M + (M - 1) = t by omega]
      exact hfold
    exact (Nat.ModEq.symm (by simp [Nat.ModEq])).trans hback

/-- A number and the complement of what stands for it make all ones. -/
theorem OnesRep.complement (hM : 1 < M) (h : OnesRep M s r) :
    OnesRep M (s + (M - 1 - r)) (M - 1) := by
  have hlt := h.lt
  have hzero := h.zero
  refine ⟨by omega, ?_, by omega⟩
  have hsum : r + (M - 1 - r) ≡ s + (M - 1 - r) [MOD M - 1] := h.modEq.add_right _
  rw [Nat.add_sub_cancel' (by omega)] at hsum
  exact hsum

end Xv6Labs.Lib
