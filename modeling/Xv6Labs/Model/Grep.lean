/-
grep (user/grep.c).

A `char *` is the list of the characters from it to the NUL. read is cut
short by the environment, which picks the size of every read; apart from
that it returns what is asked for, and 0 at the end of the file or if
nothing is asked for.
-/
import Mathlib.Data.List.Basic

namespace Xv6Labs.Model.Grep

def nl : UInt8 := 10
def dollar : UInt8 := 36
def star : UInt8 := 42
def dot : UInt8 := 46
def caret : UInt8 := 94

/-- `sizeof(buf)`. -/
def bufSize : Nat := 1024

-- == the matcher

mutual

/-- `matchhere`: search for re at beginning of text. -/
def matchhere (re text : List UInt8) : Bool :=
  match re with
  | [] => true
  | c :: re =>
    if re.head? = some star then matchstar c re.tail text
    else if c = dollar ∧ re = [] then text.isEmpty
    else
      match text with
      | [] => false
      | t :: text => (c = dot || c = t) && matchhere re text
termination_by (re.length, text.length, 0)

/-- `matchstar`: search for c*re at beginning of text. -/
def matchstar (c : UInt8) (re text : List UInt8) : Bool :=
  matchhere re text ||
    match text with
    | [] => false
    | t :: text => (t = c || c = dot) && matchstar c re text
termination_by (re.length, text.length, 1)

end

/-- The loop of `match`. -/
def matchFrom (re : List UInt8) : List UInt8 → Bool
  | [] => matchhere re []
  | t :: text => matchhere re (t :: text) || matchFrom re text

/-- `match`. -/
def matchText (re text : List UInt8) : Bool :=
  if re.head? = some caret then matchhere re.tail text else matchFrom re text

-- == lines

/-- `strchr` (ulib.c), as an index. -/
def strchr (c : UInt8) : List UInt8 → Option Nat
  | [] => none
  | x :: s =>
    if x = 0 then none
    else if x = c then some 0
    else (strchr c s).map (· + 1)

theorem strchr_some {c : UInt8} {s : List UInt8} {q : Nat} (h : strchr c s = some q) :
    ∃ u v, s = u ++ c :: v ∧ u.length = q ∧ c ∉ u := by
  induction s generalizing q with
  | nil => cases h
  | cons x s ih =>
    rw [strchr] at h
    split_ifs at h with h0 hx
    · cases h
      exact ⟨[], s, by rw [hx]; rfl, rfl, List.not_mem_nil⟩
    · obtain ⟨q', hq', rfl⟩ := Option.map_eq_some_iff.mp h
      obtain ⟨u, v, rfl, rfl, hu⟩ := ih hq'
      refine ⟨x :: u, v, rfl, rfl, ?_⟩
      simp [hu, Ne.symm hx]

/-- The inner loop: `p` is what is left of the buffer. Returns the rest
without a newline, and what was written. -/
def scan (pattern p : List UInt8) : List UInt8 × List UInt8 :=
  match _h : strchr nl p with
  | none => (p, [])
  | some q =>
    let line := p.take q
    let out := if matchText pattern line then line ++ [nl] else []
    let (rest, outs) := scan pattern (p.drop (q + 1))
    (rest, out ++ outs)
termination_by p.length
decreasing_by
  obtain ⟨u, v, rfl, _⟩ := strchr_some _h
  simp only [List.length_drop, List.length_append, List.length_cons]
  omega

/-- The outer loop: `buf` are the `m` bytes kept from the last turn, `file`
is what read has not returned yet, and read number `k` returns at most
`reads k + 1` bytes. -/
def grepFrom (pattern : List UInt8) (reads : Nat → Nat) (k : Nat)
    (buf file : List UInt8) : List UInt8 :=
  let n := min (reads k + 1) (min (bufSize - buf.length - 1) file.length)
  if _h : 0 < n then
    let (rest, out) := scan pattern (buf ++ file.take n)
    out ++ grepFrom pattern reads (k + 1) rest (file.drop n)
  else []
termination_by file.length
decreasing_by
  rw [List.length_drop]
  omega

/-- `grep`: what is written to the standard output. -/
def grep (pattern : List UInt8) (reads : Nat → Nat) (file : List UInt8) : List UInt8 :=
  grepFrom pattern reads 0 [] file

end Xv6Labs.Model.Grep
