/-
What printint prints.

The digit loop stores the numeral backwards (`digitLoop_eq`), so printint
sends the numeral of its argument if that has room in `buf`, and stores
past the end otherwise (`printint_eq`).
-/
import Xv6Labs.Model.Printf

namespace Xv6Labs.Model.Printf

open Lib

variable (size : Nat)

-- == the numeral

/-- What the argument stands for in either mode. -/
def value (sign : Bool) (xx : BitVec 64) : Int := if sign then xx.toInt else xx.toNat

/-- The standard numeral of a number. -/
def numeral (base : Nat) (v : Int) : List Char :=
  if v < 0 then '-' :: Nat.toDigits base v.natAbs
  else Nat.toDigits base v.natAbs

/-- The table holds the standard digits. -/
theorem digits_getD {d : Nat} (h : d < 16) : digits.getD d '\x00' = d.digitChar := by
  revert d
  decide

-- == the loop

theorem emit_congr {f g : Nat → Char} {n : Nat} (h : ∀ j < n, f j = g j) : emit f n = emit g n := by
  induction n with
  | zero => rfl
  | succ n ih =>
    simp only [emit, h n (Nat.lt_succ_self n), ih fun j hj => h j (by omega)]

/-- A store at the end puts the character in front of the rest. -/
theorem emit_store (buf : Nat → Char) (i : Nat) (c : Char) :
    emit (fun j => if j = i then c else buf j) (i + 1) = c :: emit buf i := by
  simp only [emit, ↓reduceIte, List.cons.injEq, true_and]
  exact emit_congr fun j hj => if_neg (by omega)

/-- The loop stores the numeral of `x` from cell `i` on, if there is room. -/
theorem digitLoop_eq (base : Base) (x i : Nat) (buf : Nat → Char) :
    (size < i + (Nat.toDigits base.val x).length ∧
      digitLoop size base x i buf = .error .undefined) ∨
    ∃ n buf', digitLoop size base x i buf = .ok (n, buf') ∧
      n = i + (Nat.toDigits base.val x).length ∧ n ≤ size ∧
      emit buf' n = Nat.toDigits base.val x ++ emit buf i := by
  have hb := base.two_le
  induction x using Nat.strong_induction_on generalizing i buf with
  | _ x ih =>
    have hd := digits_getD (Nat.lt_of_lt_of_le (Nat.mod_lt x (by omega)) base.le_sixteen)
    rw [digitLoop, store]
    by_cases hi : size ≤ i
    · have hpos := @Nat.length_toDigits_pos base.val x
      exact .inl ⟨by omega, by rw [if_neg (by omega), error_bind]⟩
    rw [if_pos (by omega), ok_bind, hd, Nat.toDigits_eq_if (by omega)]
    by_cases hx : x < base.val
    · -- the last turn
      rw [if_pos hx, if_neg (by simp [Nat.div_eq_of_lt hx]), Nat.mod_eq_of_lt hx]
      exact .inr ⟨i + 1, _, rfl, rfl, by omega, emit_store buf i _⟩
    have hne : x / base.val ≠ 0 := (Nat.div_pos (by omega) (by omega)).ne'
    rw [if_neg hx, if_pos hne, List.length_append, List.length_singleton]
    rcases ih (x / base.val) (Nat.div_lt_self (by omega) (by omega)) (i + 1)
      (fun j => if j = i then (x % base.val).digitChar else buf j) with
      ⟨hlen, herr⟩ | ⟨n, buf', hrun, hn, hsize, hemit⟩
    · exact .inl ⟨by omega, herr⟩
    · refine .inr ⟨n, buf', hrun, by omega, hsize, ?_⟩
      rw [hemit, emit_store, List.append_assoc, List.singleton_append]

/-- The sign that `printint` goes on with. -/
theorem slt_eq_decide (sign : Bool) (xx : BitVec 64) :
    (sign && xx.slt 0) = decide (value sign xx < 0) := by
  cases sign with
  | false => simp [value]
  | true => simp [value, BitVec.slt]

/-- The magnitude that the loop divides is that of the argument, also for
the least one, whose negation wraps around to itself. -/
theorem toNat_eq_natAbs (sign : Bool) (xx : BitVec 64) :
    (if value sign xx < 0 then (-xx).toNat else xx.toNat) = (value sign xx).natAbs := by
  have hneg := BitVec.toNat_neg xx
  have hint := BitVec.toInt_eq_toNat_cond xx
  cases sign with
  | false => simp [value]
  | true =>
    simp only [value, ↓reduceIte]
    split at hint <;> split <;> omega

/-- `printint` sends the numeral, or stores past the end of `buf`. -/
theorem printint_eq (buf : Nat → Char) (xx : BitVec 64) (base : Base) (sign : Bool) :
    printint size buf xx base sign =
      if (numeral base.val (value sign xx)).length ≤ size then
        .ok (numeral base.val (value sign xx))
      else .error .undefined := by
  simp only [printint, slt_eq_decide, decide_eq_true_eq, toNat_eq_natAbs]
  rcases digitLoop_eq size base (value sign xx).natAbs 0 buf with
    ⟨hlen, herr⟩ | ⟨n, buf', hrun, hn, hsize, hemit⟩
  · rw [herr, error_bind, if_neg]
    rw [numeral]
    split
    · rw [List.length_cons]
      omega
    · omega
  rw [hrun, ok_bind, numeral]
  simp only [emit, List.append_nil] at hemit
  by_cases hneg : value sign xx < 0
  · -- the sign takes one more cell
    simp only [if_pos hneg, store, List.length_cons]
    by_cases hroom : n < size
    · rw [if_pos hroom, ok_bind, if_pos (by omega), emit_store, hemit, pure_eq]
    · rw [if_neg hroom, error_bind, if_neg (by omega)]
  · simp only [if_neg hneg]
    rw [if_pos (by omega), hemit, pure_eq]

theorem printint_ok_iff (buf : Nat → Char) (xx : BitVec 64) (base : Base) (sign : Bool) :
    printint size buf xx base sign = .ok (numeral base.val (value sign xx)) ↔
      (numeral base.val (value sign xx)).length ≤ size := by
  rw [printint_eq]
  split <;> simp only [*, reduceCtorEq]

-- == the conversions of printf

/-- The cells that a numeral takes: a negative one has a digit less. -/
theorem numeral_length_le {b n : Nat} (hb : 1 < b) (hn : 0 < n) (v : Int) :
    (numeral b v).length ≤ n + 1 ↔ -((b ^ n : Nat) : Int) < v ∧ v < (b ^ (n + 1) : Nat) := by
  have hpow : 0 < b ^ n := Nat.pow_pos (by omega)
  rw [numeral]
  split
  · rw [List.length_cons, Nat.add_le_add_iff_right, Nat.length_toDigits_le_iff hb hn]
    omega
  · rw [Nat.length_toDigits_le_iff hb (by omega : 0 < n + 1)]
    omega

/-- The modes that `printf` passes. -/
theorem callTable_modes {plain : ArgType} {c0 c1 c2 : Char} {call : Call}
    (h : callTable plain c0 c1 c2 = some call) :
    call.base = sixteen ∧ call.sign = false ∨ call.base = ten := by
  unfold callTable at h
  split_ifs at h <;> cases h <;> simp

theorem value_bounds (sign : Bool) (xx : BitVec 64) :
    -2 ^ 63 ≤ value sign xx ∧ value sign xx < 2 ^ 64 := by
  have hint := BitVec.toInt_eq_toNat_cond xx
  cases sign <;> simp only [value] <;> omega

/-- Hexadecimal always has room in 16 cells. -/
theorem sixteen_fits (xx : BitVec 64) : (numeral 16 (value false xx)).length ≤ 16 := by
  have hval := value_bounds false xx
  have hpos : 0 ≤ value false xx := Int.natCast_nonneg xx.toNat
  exact (numeral_length_le (by decide) (by decide) _).mpr ⟨by omega, by omega⟩

/-- In week 6 hexadecimal always has room, and decimal up to 16 digits or
a sign and 15. -/
theorem printint_prints_iff {c0 c1 c2 : Char} {call : Call}
    (h : numberCall c0 c1 c2 = some call) (buf : Nat → Char) (xx : BitVec 64) :
    printint 16 buf xx call.base call.sign =
        .ok (numeral call.base.val (value call.sign xx)) ↔
      call.base = sixteen ∨
        (-10 ^ 15 < value call.sign xx ∧ value call.sign xx < 10 ^ 16) := by
  rw [printint_ok_iff]
  rcases callTable_modes h with ⟨hbase, hsign⟩ | hbase
  · rw [hbase, hsign]
    exact iff_of_true (sixteen_fits xx) (.inl rfl)
  · rw [hbase, or_iff_right (by decide)]
    exact numeral_length_le (by decide) (by decide) _

theorem printint_prints_seven :
    numberCall 'd' ' ' ' ' = some ⟨.int, ten, true, 0⟩ ∧
      printint 16 (fun _ => ' ') (-7) ten true = .ok ['-', '7'] := by
  have hcall : numberCall 'd' ' ' ' ' = some ⟨.int, ten, true, 0⟩ := rfl
  exact ⟨hcall, (printint_prints_iff hcall (fun _ => ' ') (-7)).mpr (.inr (by decide))⟩

/-- `printf("%lu", 10000000000000000)` needs a 17th cell. -/
theorem printint_overruns :
    numberCall 'l' 'u' ' ' = some ⟨.uint64, ten, false, 1⟩ ∧
      printint 16 (fun _ => ' ') 10000000000000000 ten false ≠
        .ok (numeral ten.val (value false 10000000000000000)) := by
  refine ⟨rfl, fun h => ?_⟩
  rw [printint_ok_iff] at h
  exact absurd ((numeral_length_le (by decide) (by decide) _).mp h).2 (by decide)

/-- Week 7 has room for every argument. -/
theorem printint_week7 {c0 c1 c2 : Char} {call : Call}
    (h : numberCallWeek7 c0 c1 c2 = some call) (buf : Nat → Char) (xx : BitVec 64) :
    printint 20 buf xx call.base call.sign =
      .ok (numeral call.base.val (value call.sign xx)) := by
  rw [printint_ok_iff]
  rcases callTable_modes h with ⟨hbase, hsign⟩ | hbase
  · rw [hbase, hsign]
    exact (sixteen_fits xx).trans (by decide)
  · have hval := value_bounds call.sign xx
    rw [hbase, show ten.val = 10 from rfl]
    exact (numeral_length_le (by decide) (by decide) _).mpr ⟨by omega, by omega⟩

theorem printint_week7_least :
    printint 20 (fun _ => ' ') (BitVec.intMin 64) ten true =
      .ok "-9223372036854775808".toList :=
  printint_week7 (show numberCallWeek7 'l' 'd' ' ' =
    some ⟨.uint64, ten, true, 1⟩ from rfl) _ _

/-- What a plain conversion makes of its slot in week 6: `%d` and `%x`
always have room, and `%u` extends the sign of its argument, so that it
overruns `buf` on each `unsigned int` from 2^31 on. -/
theorem printint_narrow_iff {c0 c1 c2 : Char} {call : Call}
    (h : numberCall c0 c1 c2 = some call) (hn : call.type = .int)
    (buf : Nat → Char) (slot : BitVec 64) :
    printint 16 buf (call.xx slot) call.base call.sign =
        .ok (numeral call.base.val (value call.sign (call.xx slot))) ↔
      call.base = sixteen ∨ call.sign = true ∨ slot.toNat % 2 ^ 32 < 2 ^ 31 := by
  have hlow : (slot.setWidth 32).toNat = slot.toNat % 2 ^ 32 := BitVec.toNat_setWidth ..
  have hint := BitVec.toInt_eq_toNat_cond (slot.setWidth 32)
  have hext := BitVec.toInt_eq_toNat_cond ((slot.setWidth 32).signExtend 64)
  rw [BitVec.toInt_signExtend_of_le (by decide)] at hext
  simp only [printint_ok_iff, Call.xx, hn]
  rcases callTable_modes h with ⟨hbase, hsign⟩ | hbase
  · rw [hbase, hsign]
    exact iff_of_true (sixteen_fits _) (.inl rfl)
  rw [hbase, or_iff_right (by decide), show ten.val = 10 from rfl,
    numeral_length_le (by decide) (by decide)]
  cases hsign : call.sign with
  | true =>
    simp only [value, ↓reduceIte, true_or, iff_true]
    rw [BitVec.toInt_signExtend_of_le (by decide)]
    split at hint <;> omega
  | false =>
    simp only [value, Bool.false_eq_true, ↓reduceIte, false_or]
    split at hint <;> split at hext <;> omega

theorem printint_narrow_seven :
    printint 16 (fun _ => ' ') (Call.xx ⟨.int, ten, false, 0⟩ 7) ten false =
      .ok ['7'] :=
  (printint_narrow_iff (show numberCall 'u' ' ' ' ' = some ⟨.int, ten, false, 0⟩
    from rfl) rfl _ _).mpr (.inr (.inr (by decide)))

end Xv6Labs.Model.Printf
