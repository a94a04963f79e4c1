/-
Word arithmetic, read as arithmetic: every fact about `u64`, `pgRoundUp`
and the loop bounds that the proofs use.
-/
import Xv6Labs.Model.Machine

namespace Xv6Labs.Model

variable {x : Int} {a hi k lo : Nat}

-- == 64 bits

/-- A value that fits is itself. -/
theorem u64_of_lt {n : Nat} (h : x = n) (hn : n < 2 ^ 64) : u64 x = n := by
  unfold u64
  omega

theorem u64_congr {y : Int} (h : x % 2 ^ 64 = y % 2 ^ 64) : u64 x = u64 y := by
  unfold u64
  rw [h]

theorem i32_of_lt (h0 : 0 ≤ x) (h : x < 2 ^ 31) : i32 x = x := by
  unfold i32
  rw [Int.bmod_eq_of_le] <;> omega

/-- A small count passes through an int and a uint64 unchanged. -/
theorem u64_i32_of_lt {n : Nat} (h : n < 2 ^ 31) : u64 (i32 n) = n := by
  rw [i32_of_lt (Int.natCast_nonneg _) (by omega), u64_of_lt rfl (by omega)]

-- == page rounding

theorem pgRoundDown_le (a : Nat) : pgRoundDown a ≤ a := by
  unfold pgRoundDown pgSize
  omega

@[simp] theorem pgRoundDown_mod (a : Nat) : pgRoundDown a % 4096 = 0 := by
  unfold pgRoundDown pgSize
  omega

theorem pgRoundDown_of_aligned (h : a % 4096 = 0) : pgRoundDown a = a := by
  unfold pgRoundDown pgSize
  omega

@[simp] theorem pgRoundUp_mod (a : Nat) : pgRoundUp a % 4096 = 0 := by
  unfold pgRoundUp pgSize
  omega

/-- Rounding up without a wrap. -/
theorem pgRoundUp_eq (h : a + 4095 < 2 ^ 64) : pgRoundUp a = (a + 4095) / 4096 * 4096 := by
  unfold pgRoundUp u64 pgSize
  omega

-- == loop turns

/-- The page of turn `k` of a page loop. -/
theorem page_add (a k : Nat) : (a + k * pgSize) / pgSize = a / pgSize + k := by
  unfold pgSize
  omega

/-- Turn `k` of an inclusive page loop is at an address in the range. -/
theorem lt_pagesThrough : k < pagesThrough lo hi ↔ lo ≤ hi ∧ lo + k * 4096 ≤ hi := by
  unfold pagesThrough pgSize
  split <;> omega

/-- Turn `k` of an exclusive page loop is at an address below its end. -/
theorem lt_pagesBelow : k < pagesBelow lo hi ↔ lo + k * 4096 < hi := by
  unfold pagesBelow pgSize
  omega

/-- The single turn of a one-page loop. -/
theorem pagesBelow_one {va : Nat} (h : va + 4096 < 2 ^ 64) :
    pagesBelow va (u64 (va + ((1 : Nat) * pgSize : Nat))) = 1 := by
  have : u64 (va + ((1 : Nat) * pgSize : Nat)) = va + 4096 := u64_of_lt (by simp) h
  rw [this]
  unfold pagesBelow pgSize
  omega

end Xv6Labs.Model
