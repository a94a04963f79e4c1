/-
The string functions that directories are built on (string.c).

A `char *` is the function of the bytes from it on, and a name given as a
list is followed by NULs. strncmp and strncpy are the source's loops;
`cutName`, which the directory model compares and stores, is proved to be
what they compare and store.
-/
import Mathlib.Data.List.TakeWhile
import Xv6Labs.Model.Names

namespace Xv6Labs.Model

open Lib

-- == string.c

/-- `strncmp`. -/
def strncmp (p q : Nat → UInt8) : Nat → Int
  | 0 => 0
  | n + 1 =>
    if p 0 ≠ 0 ∧ p 0 = q 0 then
      strncmp (fun i => p (i + 1)) (fun i => q (i + 1)) n
    else ((p 0).toNat : Int) - (q 0).toNat

/-- Store one byte. -/
def putByte (s : Nat → UInt8) (i : Nat) (c : UInt8) : Nat → UInt8 :=
  fun j => if j = i then c else s j

/-- strncpy's second loop, from byte `i` on. -/
def strncpyPad (s : Nat → UInt8) (i : Nat) : Nat → (Nat → UInt8)
  | 0 => s
  | n + 1 => strncpyPad (putByte s i 0) (i + 1) n

/-- strncpy's first loop, from byte `i` on. -/
def strncpyCopy (s t : Nat → UInt8) (i : Nat) : Nat → (Nat → UInt8)
  | 0 => s
  | n + 1 =>
    let s := putByte s i (t i)
    if t i ≠ 0 then strncpyCopy s t (i + 1) n else strncpyPad s (i + 1) n

/-- `strncpy`: the bytes at `s` afterwards. -/
def strncpy (s t : Nat → UInt8) (n : Nat) : Nat → UInt8 := strncpyCopy s t 0 n

/-- `namecmp` (fs.c). -/
def namecmp (s t : Nat → UInt8) : Int := strncmp s t dirSiz

/-- A list as a C string. -/
def cstr (s : List UInt8) : Nat → UInt8 := fun i => s.getD i 0

-- == strings and cutName

/-- The string at `p`, of at most `n` bytes. -/
def strAt (p : Nat → UInt8) : Nat → List UInt8
  | 0 => []
  | n + 1 => if p 0 ≠ 0 then p 0 :: strAt (fun i => p (i + 1)) n else []

theorem strAt_eq_takeWhile (p : Nat → UInt8) (n : Nat) :
    strAt p n = ((List.range n).map p).takeWhile fun c => c != 0 := by
  induction n generalizing p with
  | zero => rfl
  | succ n ih =>
    rw [strAt, List.range_succ_eq_map, List.map_cons]
    by_cases h : p 0 = 0
    · simp [h]
    · simp [h, ih, Function.comp_def]

theorem strAt_congr {p q : Nat → UInt8} {n : Nat}
    (h : ∀ i, i < n → p i = q i) : strAt p n = strAt q n := by
  rw [strAt_eq_takeWhile, strAt_eq_takeWhile,
    List.map_congr_left fun i hi => h i (List.mem_range.mp hi)]

theorem cutName_cutName (s : List UInt8) : cutName (cutName s) = cutName s := by
  have hlen : (cutName s).length ≤ dirSiz :=
    Nat.le_trans (List.takeWhile_prefix _).length_le (List.length_take_le _ _)
  have htake : (cutName s).take dirSiz = cutName s := List.take_of_length_le hlen
  rw [cutName, htake]
  refine List.takeWhile_eq_self_iff.mpr fun c hc => ?_
  exact List.mem_takeWhile_imp (p := fun c => c != 0) hc

theorem strAt_cstr (s : List UInt8) (n : Nat) :
    strAt (cstr s) n = (s.take n).takeWhile fun c => c != 0 := by
  induction n generalizing s with
  | zero => rfl
  | succ n ih =>
    cases s with
    | nil => rfl
    | cons c s =>
      have ht : (fun i => cstr (c :: s) (i + 1)) = cstr s := rfl
      have h0 : cstr (c :: s) 0 = c := rfl
      rw [strAt, ht, h0, ih]
      by_cases h : c = 0
      · simp [h]
      · simp [h]

theorem strncmp_eq_zero_iff (p q : Nat → UInt8) (n : Nat) :
    strncmp p q n = 0 ↔ strAt p n = strAt q n := by
  induction n generalizing p q with
  | zero => exact iff_of_true rfl rfl
  | succ n ih =>
    rw [strncmp, strAt, strAt]
    by_cases hp : p 0 = 0
    · by_cases hq : q 0 = 0
      · simp [hp, hq]
      · have hne : (q 0).toNat ≠ 0 := fun h => hq (UInt8.toNat_inj.mp h)
        simp [hp, hq, hne]
    by_cases hpq : p 0 = q 0
    · simp [hpq, hpq ▸ hp, ih]
    have hne : (p 0).toNat ≠ (q 0).toNat := fun h => hpq (UInt8.toNat_inj.mp h)
    have hsub : ((p 0).toNat : Int) - (q 0).toNat ≠ 0 := by omega
    by_cases hq : q 0 = 0
    · have hp0 : (p 0).toNat ≠ 0 := fun h => hp (UInt8.toNat_inj.mp h)
      simp [hp, hq, hp0]
    · simp [hp, hpq, hq, hsub]

/-- namecmp tells two names apart exactly if their first 14 bytes, up to a
NUL, differ. -/
theorem namecmp_cstr (a b : List UInt8) :
    namecmp (cstr a) (cstr b) = 0 ↔ cutName a = cutName b := by
  rw [namecmp, strncmp_eq_zero_iff, strAt_cstr, strAt_cstr]
  rfl

theorem direntName_eq_strAt (d : Dinode) (off : Nat) :
    direntName d off = strAt (fun i => d.data (off + 2 + i)) dirSiz := by
  rw [strAt_eq_takeWhile, direntName, cutName, List.take_of_length_le (by simp)]

/-- The test that dirlookup makes on an entry. -/
theorem namecmp_dirent (d : Dinode) (off : Nat) (name : List UInt8) :
    namecmp (cstr name) (fun i => d.data (off + 2 + i)) = 0 ↔ direntName d off = cutName name := by
  rw [namecmp, strncmp_eq_zero_iff, strAt_cstr, direntName_eq_strAt]
  exact eq_comm

-- == strncpy

theorem strncpyPad_apply (s : Nat → UInt8) (i n j : Nat) :
    strncpyPad s i n j = if i ≤ j ∧ j < i + n then 0 else s j := by
  induction n generalizing s i with
  | zero =>
    rw [strncpyPad, if_neg (by omega)]
  | succ n ih =>
    rw [strncpyPad, ih, putByte]
    grind

theorem strncpyCopy_apply (s t : Nat → UInt8) (i n j : Nat) :
    strncpyCopy s t i n j =
      if i ≤ j ∧ j < i + n then
        (strAt (fun k => t (i + k)) n).getD (j - i) 0
      else s j := by
  induction n generalizing s i with
  | zero => rw [strncpyCopy, if_neg (by omega)]
  | succ n ih =>
    have hshift : (fun k => t (i + (k + 1))) = fun k => t (i + 1 + k) := by
      funext k
      rw [Nat.add_assoc, Nat.add_comm 1 k]
    simp only [strncpyCopy, strAt, hshift, Nat.add_zero]
    by_cases hj : j = i
    · subst hj
      by_cases h : t j = 0
      · simp [h, strncpyPad_apply, putByte]
      · rw [if_pos h, ih, if_neg (by omega)]
        simp [h, putByte]
    · by_cases h : t i = 0
      · simp [h, strncpyPad_apply, putByte, hj]
        grind
      rw [if_pos h, if_pos h, ih, putByte, if_neg hj]
      by_cases hr : i ≤ j ∧ j < i + (n + 1)
      · obtain ⟨k, rfl⟩ : ∃ k, j = i + 1 + k := ⟨j - (i + 1), by omega⟩
        rw [if_pos (by omega), if_pos hr, Nat.add_sub_cancel_left,
          show i + 1 + k - i = k + 1 by omega, List.getD_cons_succ]
      · rw [if_neg (by omega), if_neg hr]

/-- The 14 bytes that dirlink's strncpy leaves in `de.name`. -/
theorem strncpy_cstr (s : Nat → UInt8) (inum : Nat) (name : List UInt8)
    {i : Nat} (hi : i < dirSiz) :
    strncpy s (cstr name) dirSiz i = direntByte inum name (i + 2) := by
  have hz : (fun k => cstr name (0 + k)) = cstr name := by
    funext k
    rw [Nat.zero_add]
  rw [strncpy, strncpyCopy_apply, if_pos (by omega), hz, strAt_cstr, direntByte, if_neg (by omega)]
  rfl

/-- What dirlink stores, dirlookup compares as the name itself: over any
bytes that `de.name` held, and with names of any length. -/
theorem namecmp_strncpy (old : Nat → UInt8) (name other : List UInt8) :
    namecmp (cstr other) (strncpy old (cstr name) dirSiz) = 0
      ↔ namecmp (cstr other) (cstr name) = 0 := by
  have hstored : strAt (strncpy old (cstr name) dirSiz) dirSiz =
      strAt (cstr (cutName name)) dirSiz :=
    strAt_congr fun i hi => strncpy_cstr old 0 name hi
  have hcut : strAt (cstr (cutName name)) dirSiz = strAt (cstr name) dirSiz := by
    rw [strAt_cstr, strAt_cstr]
    exact cutName_cutName name
  rw [namecmp, namecmp, strncmp_eq_zero_iff, strncmp_eq_zero_iff, hstored, hcut]

end Xv6Labs.Model
