/-
Path lookup (fs.c), character by character.

`namexLoop` takes the elements of a path as given. Here skipelem cuts them
off one after another, as namex calls it.
-/
import Xv6Labs.Model.Names

namespace Xv6Labs.Model

/-- The character between the elements of a path. -/
abbrev slash : UInt8 := 47

/-- `skipelem`: the element, cut to 14 bytes, and the path after it. -/
def skipelem (path : List UInt8) : Option (List UInt8 × List UInt8) :=
  let s := path.dropWhile fun c => c == slash
  if s = [] then none
  else
    let elem := s.takeWhile fun c => c != slash
    let name := if dirSiz ≤ elem.length then elem.take dirSiz else elem
    some (name, (s.dropWhile fun c => c != slash).dropWhile fun c => c == slash)

theorem head_dropWhile_slash (path : List UInt8) :
    (path.dropWhile fun c => c == slash).head? ≠ some slash := by
  intro h
  have hnot := List.head?_dropWhile_not (fun c => c == slash) path
  rw [h] at hnot
  cases hnot

theorem skipelem_some {path name rest : List UInt8}
    (h : skipelem path = some (name, rest)) : rest.length < path.length := by
  unfold skipelem at h
  dsimp only at h
  split at h
  · cases h
  · next hne =>
    cases h
    obtain ⟨c, s, hs⟩ := List.exists_cons_of_ne_nil hne
    have hc : c ≠ slash := by
      have := head_dropWhile_slash path
      rw [hs] at this
      simpa using this
    have hle : (c :: s).length ≤ path.length := by
      rw [← hs]
      exact (List.dropWhile_suffix _).length_le
    rw [hs, List.dropWhile_cons, if_pos (bne_iff_ne.mpr hc)]
    have h1 := (List.dropWhile_suffix (l := s) fun c => c != slash).length_le
    have h2 := (List.dropWhile_suffix (l := s.dropWhile fun c => c != slash)
      fun c => c == slash).length_le
    simp only [List.length_cons] at hle
    omega

/-- namex's loop. -/
def namexFrom (parent : Bool) (path last : List UInt8) (ip : Nat) (g : Glob) :
    Except Panic (Option Nat × List UInt8 × Glob) :=
  match _h : skipelem path with
  | none =>
    if parent then .ok (none, last, iput g ip) else .ok (some ip, last, g)
  | some (name, path) => do
    let g ← ilock g ip
    if (g.dinode ip).type ≠ .dir then pure (none, name, iput g ip)
    else if parent && path.isEmpty then pure (some ip, name, g)
    else
      match ← dirlookup g ip name with
      | (none, g) => pure (none, name, iput g ip)
      | (some (next, _), g) => namexFrom parent path name next (iput g ip)
termination_by path.length
decreasing_by exact skipelem_some _h

/-- `namex` from the working directory `cwd`; `name` is left as `last` if
the path has no element. -/
def namexPath (g : Glob) (cwd : Nat) (path : List UInt8) (parent : Bool)
    (last : List UInt8) : Except Panic (Option Nat × List UInt8 × Glob) :=
  if path.head? = some slash then do
    let (ip, g) ← iget g 1 1
    namexFrom parent path last ip g
  else namexFrom parent path last cwd (idup g cwd)

end Xv6Labs.Model
