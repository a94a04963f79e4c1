/-
printint, and the calls of it in printf (kernel/printf.c).

printint is the same in both labs but for the size of `buf`, 16 in week 6
and 20 in week 7, so the size is a parameter. So is the type of the
arguments of `%u` and `%x`, in which the calls of the two labs differ. A
store past the end of `buf` is `Panic.undefined`; what `buf` holds at
first is arbitrary.
-/
import Xv6Labs.Model.Machine

namespace Xv6Labs.Model.Printf

/-- `digits`. -/
def digits : List Char := "0123456789abcdef".toList

/-- A base that has a character in `digits` for each of its digits. -/
structure Base where
  val : Nat
  two_le : 2 ≤ val
  le_sixteen : val ≤ 16
deriving DecidableEq

def ten : Base := ⟨10, by decide, by decide⟩

def sixteen : Base := ⟨16, by decide, by decide⟩

/-- `buf[i] = c`. -/
def store (size : Nat) (buf : Nat → Char) (i : Nat) (c : Char) : Except Panic (Nat → Char) :=
  if i < size then .ok fun j => if j = i then c else buf j
  else .error .undefined

/-- The `do` loop of `printint`, from `x` and `i` on. -/
def digitLoop (size : Nat) (base : Base) (x i : Nat) (buf : Nat → Char) :
    Except Panic (Nat × (Nat → Char)) := do
  let buf ← store size buf i (digits.getD (x % base.val) '\x00')
  if x / base.val ≠ 0 then digitLoop size base (x / base.val) (i + 1) buf
  else pure (i + 1, buf)
termination_by x
decreasing_by
  have hx : x ≠ 0 := fun h0 => by simp_all only [Nat.zero_div, ne_eq, not_true]
  exact Nat.div_lt_self (Nat.pos_of_ne_zero hx) base.two_le

/-- What `while(--i >= 0) consputc(buf[i])` sends to the console. -/
def emit (buf : Nat → Char) : Nat → List Char
  | 0 => []
  | i + 1 => buf i :: emit buf i

/-- `printint`: what it sends to the console. -/
def printint (size : Nat) (buf : Nat → Char) (xx : BitVec 64) (base : Base)
    (sign : Bool) : Except Panic (List Char) := do
  let sign := sign && xx.slt 0
  let x := if sign then (-xx).toNat else xx.toNat
  let (i, buf) ← digitLoop size base x 0 buf
  if sign then
    let buf ← store size buf i '-'
    pure (emit buf (i + 1))
  else pure (emit buf i)

/-- The types that `printf` passes to `va_arg`. -/
inductive ArgType where
  | int
  | uint32
  | uint64
deriving DecidableEq, Repr

/-- One call `printint(va_arg(ap, type), base, sign); i += skip` of
`printf`. -/
structure Call where
  type : ArgType
  base : Base
  sign : Bool
  skip : Nat

/-- The branches of `printf` that print a number; `plain` is the type that
`%u` and `%x` read. -/
def callTable (plain : ArgType) (c0 c1 c2 : Char) : Option Call :=
  if c0 = 'd' then some ⟨.int, ten, true, 0⟩
  else if c0 = 'l' ∧ c1 = 'd' then some ⟨.uint64, ten, true, 1⟩
  else if c0 = 'l' ∧ c1 = 'l' ∧ c2 = 'd' then some ⟨.uint64, ten, true, 2⟩
  else if c0 = 'u' then some ⟨plain, ten, false, 0⟩
  else if c0 = 'l' ∧ c1 = 'u' then some ⟨.uint64, ten, false, 1⟩
  else if c0 = 'l' ∧ c1 = 'l' ∧ c2 = 'u' then some ⟨.uint64, ten, false, 2⟩
  else if c0 = 'x' then some ⟨plain, sixteen, false, 0⟩
  else if c0 = 'l' ∧ c1 = 'x' then some ⟨.uint64, sixteen, false, 1⟩
  else if c0 = 'l' ∧ c1 = 'l' ∧ c2 = 'x' then some ⟨.uint64, sixteen, false, 2⟩
  else none

/-- Week 6's calls. -/
def numberCall : Char → Char → Char → Option Call := callTable .int

/-- Week 7's calls. -/
def numberCallWeek7 : Char → Char → Char → Option Call := callTable .uint32

/-- The call's argument, from the variadic slot: `va_arg` of 32 bits reads
the low half, and the conversion of an `int` to `long long` extends its
sign. -/
def Call.xx (call : Call) (slot : BitVec 64) : BitVec 64 :=
  match call.type with
  | .int => (slot.setWidth 32).signExtend 64
  | .uint32 => (slot.setWidth 32).setWidth 64
  | .uint64 => slot

end Xv6Labs.Model.Printf
