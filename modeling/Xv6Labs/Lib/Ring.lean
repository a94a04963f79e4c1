/-
Ring buffers with wrapping counters.

A ring of `C` slots is filled at one counter and emptied at another. The
counters are words of `b` bits that count on and wrap; a counter's slot is
its value modulo `C`, which survives the wrap because `C` divides `2 ^ b`.
How many elements there are is the difference of the counters.

`ring C data r n` are the `n` elements from counter value `r` on.
-/
import Mathlib.Data.BitVec
import Mathlib.Tactic.Ring

namespace Xv6Labs.Lib

open Function

-- == contents

section

variable {α : Type _} {C W r n m : Nat} {data : Nat → α} {x : α}

/-- The `n` elements from counter value `r` on. -/
def ring (C : Nat) (data : Nat → α) (r n : Nat) : List α :=
  (List.range n).map fun k => data ((r + k) % C)

@[simp] theorem ring_zero : ring C data r 0 = [] := rfl

theorem ring_add : ring C data r (m + n) = ring C data r m ++ ring C data (r + m) n := by
  simp only [ring, List.range_add, List.map_append, List.map_map]
  refine congrArg _ (List.map_congr_left fun k _ => ?_)
  simp only [comp, Nat.add_assoc]

theorem ring_succ : ring C data r (n + 1) = data (r % C) :: ring C data (r + 1) n := by
  rw [Nat.add_comm n 1, ring_add]
  rfl

theorem ring_snoc : ring C data r (n + 1) = ring C data r n ++ [data ((r + n) % C)] := by
  rw [ring_add]
  rfl

/-- A counter that has wrapped names the same slots. -/
theorem ring_mod (hW : C ∣ W) : ring C data (r % W) n = ring C data r n := by
  refine List.map_congr_left fun k _ => congrArg data ?_
  rw [← Nat.mod_mod_of_dvd (r % W + k) hW, Nat.mod_add_mod, Nat.mod_mod_of_dvd _ hW]

/-- Slots within one turn of the ring are different. -/
theorem slot_ne {i j : Nat} (hij : i < j) (hj : j < i + C) : i % C ≠ j % C := by
  intro heq
  have hdvd := (Nat.modEq_iff_dvd' hij.le).mp heq
  exact absurd (Nat.le_of_dvd (by omega) hdvd) (by omega)

/-- A slot behind the elements, within one turn, is none of theirs. -/
theorem ring_update (hn : n ≤ m) (hm : m < C) :
    ring C (update data ((r + m) % C) x) r n = ring C data r n := by
  refine List.map_congr_left fun k hk => ?_
  have hk' := List.mem_range.mp hk
  exact update_of_ne (slot_ne (by omega) (by omega)) ..

/-- An element in the first free slot is behind all others. -/
theorem ring_push (h : n < C) :
    ring C (update data ((r + n) % C) x) r (n + 1) = ring C data r n ++ [x] := by
  rw [ring_snoc, update_self, ring_update (Nat.le_refl n) h]

end

-- == counters

section

variable {b : Nat} {r w : BitVec b}

theorem counter_toNat (r w : BitVec b) : w.toNat = (r.toNat + (w - r).toNat) % 2 ^ b := by
  rw [← BitVec.toNat_add, BitVec.add_comm, BitVec.sub_add_cancel]

theorem gap_eq_zero : (w - r).toNat = 0 ↔ r = w := by
  constructor
  · intro h
    have hw := counter_toNat r w
    rw [h, Nat.add_zero, Nat.mod_eq_of_lt r.isLt] at hw
    exact (BitVec.eq_of_toNat_eq hw).symm
  · rintro rfl
    simp

theorem toNat_one_of_lt (h : 1 < 2 ^ b) : (1 : BitVec b).toNat = 1 := by
  show (BitVec.ofNat b 1).toNat = 1
  exact Nat.mod_eq_of_lt h

/-- The writer counts on. -/
theorem gap_push (h : (w - r).toNat + 1 < 2 ^ b) : (w + 1 - r).toNat = (w - r).toNat + 1 := by
  have halg : w + 1 - r = w - r + 1 := by ring
  have hone : (1 : BitVec b).toNat = 1 := toNat_one_of_lt (by omega)
  rw [halg, BitVec.toNat_add_of_lt (by rw [hone]; exact h), hone]

/-- The reader, or the writer that takes back, counts. -/
theorem gap_pred {g : BitVec b} (h : 0 < g.toNat) : (g - 1).toNat = g.toNat - 1 := by
  have hone : (1 : BitVec b).toNat = 1 := toNat_one_of_lt (by omega)
  rw [BitVec.toNat_sub_of_le (by rw [BitVec.le_def, hone]; exact h), hone]

theorem gap_pop (h : 0 < (w - r).toNat) : (w - (r + 1)).toNat = (w - r).toNat - 1 := by
  have halg : w - (r + 1) = w - r - 1 := by ring
  rw [halg, gap_pred h]

/-- The slot of the writer's counter. -/
theorem counter_slot {C : Nat} (hC : C ∣ 2 ^ b) (r w : BitVec b) :
    w.toNat % C = (r.toNat + (w - r).toNat) % C := by
  rw [counter_toNat r w, Nat.mod_mod_of_dvd _ hC]

theorem succ_toNat (r : BitVec b) : (r + 1).toNat = (r.toNat + 1) % 2 ^ b := by
  show (r.toNat + 1 % 2 ^ b) % 2 ^ b = _
  rw [Nat.add_mod_mod]

end

-- == queues

section

variable {α : Type _} {b C : Nat} {data : Nat → α} {r w : BitVec b} {x : α}

/-- The elements between two counters. -/
def between (C : Nat) (data : Nat → α) (r w : BitVec b) : List α :=
  ring C data r.toNat (w - r).toNat

theorem between_self : between C data r r = [] := by
  simp [between]

/-- An element put in the slot of the writer's counter. -/
theorem between_push (hC : C ∣ 2 ^ b) (h : (w - r).toNat < C) (hb : (w - r).toNat + 1 < 2 ^ b) :
    between C (update data (w.toNat % C) x) r (w + 1) = between C data r w ++ [x] := by
  rw [between, gap_push hb, counter_slot hC r w, ring_push h]
  rfl

/-- The element in the slot of the reader's counter is the first. -/
theorem between_pop (hC : C ∣ 2 ^ b) (h : r ≠ w) :
    between C data r w = data (r.toNat % C) :: between C data (r + 1) w := by
  have hpos : 0 < (w - r).toNat := Nat.pos_of_ne_zero fun h0 => h (gap_eq_zero.mp h0)
  rw [between, between, gap_pop hpos, succ_toNat, ring_mod hC, ← ring_succ, Nat.sub_add_cancel hpos]

end

end Xv6Labs.Lib
