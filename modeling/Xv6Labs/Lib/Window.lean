/-
Index windows of a ring.

A ring of `N` slots is shared by two sides through two indices. The slots
from `h` up to but not including `t`, counting round the ring, are
`window N h t`: a queue whose head is at `h` and whose end is `t`. It never
has all `N` slots, so equal indices mean that it is empty.
-/
import Mathlib.Data.List.Basic
import Mathlib.Tactic.SplitIfs

namespace Xv6Labs.Lib

variable {N h t i : Nat}

/-- The number of slots from `h` up to `t`. -/
def dist (N h t : Nat) : Nat := (t + N - h) % N

/-- The slots from `h` up to `t`, in order. -/
def window (N h t : Nat) : List Nat := (List.range (dist N h t)).map fun i => (h + i) % N

-- == distance

theorem dist_eq (hh : h < N) (ht : t < N) : dist N h t = if h ≤ t then t - h else t + N - h := by
  unfold dist
  split
  next hle =>
    have heq : t + N - h = t - h + N := by omega
    rw [heq, Nat.add_mod_right, Nat.mod_eq_of_lt (by omega)]
  next => exact Nat.mod_eq_of_lt (by omega)

theorem succ_mod_eq (ht : t < N) : (t + 1) % N = if t + 1 = N then 0 else t + 1 := by
  split
  next heq => rw [heq, Nat.mod_self]
  next hne => exact Nat.mod_eq_of_lt (by omega)

theorem succ_mod_lt (ht : t < N) : (t + 1) % N < N := Nat.mod_lt _ (by omega)

theorem dist_self (hh : h < N) : dist N h h = 0 := by
  rw [dist_eq hh hh, if_pos (Nat.le_refl h), Nat.sub_self]

theorem dist_lt (hh : h < N) (ht : t < N) : dist N h t < N := by
  rw [dist_eq hh ht]
  split
  · omega
  · omega

theorem eq_of_dist (hh : h < N) (ht : t < N) (h0 : dist N h t = 0) : h = t := by
  rw [dist_eq hh ht] at h0
  split at h0
  · omega
  · omega

/-- The end moves on. -/
theorem dist_push (hh : h < N) (ht : t < N) (hroom : h ≠ (t + 1) % N) :
    dist N h ((t + 1) % N) = dist N h t + 1 := by
  rw [dist_eq hh (succ_mod_lt ht), dist_eq hh ht, succ_mod_eq ht]
  rw [succ_mod_eq ht] at hroom
  -- the end wraps or not, and is past the head or not
  split_ifs at hroom ⊢
  all_goals omega

/-- The head moves on. -/
theorem dist_pop (hh : h < N) (ht : t < N) (hne : h ≠ t) :
    dist N h t = dist N ((h + 1) % N) t + 1 := by
  rw [dist_eq hh ht, dist_eq (succ_mod_lt hh) ht, succ_mod_eq hh]
  split_ifs
  all_goals omega

/-- From the slot after `t` round to `t`. -/
theorem dist_succ_self (ht : t < N) : dist N ((t + 1) % N) t = N - 1 := by
  rw [dist_eq (succ_mod_lt ht) ht, succ_mod_eq ht]
  split_ifs
  all_goals omega

-- == window

theorem window_self (hh : h < N) : window N h h = [] := by
  unfold window
  rw [dist_self hh]
  rfl

theorem window_push (hh : h < N) (ht : t < N) (hroom : h ≠ (t + 1) % N) :
    window N h ((t + 1) % N) = window N h t ++ [t] := by
  unfold window
  rw [dist_push hh ht hroom, List.range_succ, List.map_append, List.map_singleton]
  have hlast : (h + dist N h t) % N = t := by
    rw [dist_eq hh ht]
    split
    next hle =>
      rw [Nat.add_sub_cancel' hle]
      exact Nat.mod_eq_of_lt ht
    next hgt =>
      have heq : h + (t + N - h) = t + N := by omega
      rw [heq, Nat.add_mod_right, Nat.mod_eq_of_lt ht]
  rw [hlast]

theorem window_pop (hh : h < N) (ht : t < N) (hne : h ≠ t) :
    window N h t = h :: window N ((h + 1) % N) t := by
  unfold window
  rw [dist_pop hh ht hne, List.range_succ_eq_map, List.map_cons, List.map_map,
    Nat.add_zero, Nat.mod_eq_of_lt hh]
  congr 1
  refine List.map_congr_left ?_
  intro i _
  show (h + (i + 1)) % N = ((h + 1) % N + i) % N
  rw [Nat.mod_add_mod]
  congr 1
  omega

theorem mem_window (hh : h < N) (ht : t < N) :
    i ∈ window N h t ↔ i < N ∧ dist N h i < dist N h t := by
  unfold window
  rw [List.mem_map]
  have hlt := dist_lt hh ht
  constructor
  · intro ⟨k, hk, hki⟩
    have hk' := List.mem_range.mp hk
    have hi : i < N := hki ▸ Nat.mod_lt _ (by omega)
    refine ⟨hi, ?_⟩
    have hd : dist N h i = k := by
      rw [dist_eq hh hi]
      by_cases hw : h + k < N
      · rw [Nat.mod_eq_of_lt hw] at hki
        rw [if_pos (by omega)]
        omega
      · have hsub : (h + k) % N = h + k - N := by
          rw [Nat.mod_eq_sub_mod (by omega), Nat.mod_eq_of_lt (by omega)]
        rw [if_neg (by omega)]
        omega
    omega
  · intro ⟨hi, hd⟩
    refine ⟨dist N h i, List.mem_range.mpr hd, ?_⟩
    rw [dist_eq hh hi]
    split
    next hle =>
      rw [Nat.add_sub_cancel' hle, Nat.mod_eq_of_lt hi]
    next hgt =>
      have heq : h + (i + N - h) = i + N := by omega
      rw [heq, Nat.add_mod_right, Nat.mod_eq_of_lt hi]

theorem lt_of_mem_window (hh : h < N) (ht : t < N)
    (hi : i ∈ window N h t) : i < N := ((mem_window hh ht).mp hi).1

/-- The slot at the end is not in the window. -/
theorem end_not_mem_window (hh : h < N) (ht : t < N) : t ∉ window N h t := by
  intro hm
  exact Nat.lt_irrefl _ ((mem_window hh ht).mp hm).2

/-- Two windows one after the other, not longer than a lap, share no slot. -/
theorem not_mem_window_of_span {m : Nat} (hh : h < N) (hm : m < N) (ht : t < N)
    (hspan : dist N h m + dist N m t = dist N h t) (hi : i ∈ window N m t) : i ∉ window N h m := by
  intro hi'
  obtain ⟨hlt, hd⟩ := (mem_window hm ht).mp hi
  have hd' := ((mem_window hh hm).mp hi').2
  rw [dist_eq hm ht, dist_eq hh ht] at hspan
  rw [dist_eq hm hlt, dist_eq hm ht] at hd
  rw [dist_eq hh hlt, dist_eq hh hm] at hd'
  split_ifs at hspan hd hd'
  all_goals omega

-- == status bytes

/-- A flag that was set is set. -/
theorem or_and_absorb (s d : UInt8) : (s ||| d) &&& d = d := by
  apply UInt8.eq_of_toBitVec_eq
  ext i hi
  simp only [UInt8.toBitVec_and, UInt8.toBitVec_or, BitVec.getElem_and, BitVec.getElem_or]
  exact Bool.and_eq_right_iff_imp.mpr (fun h => by rw [h, Bool.or_true])

end Xv6Labs.Lib
