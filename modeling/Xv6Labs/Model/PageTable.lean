/-
User page tables: vm.c from `walk` to `uvmcopy`.

# The three levels as three maps

A `PageTable` is the Sv39 tree read by virtual address. `mid i` is the
physical page of the level-1 table for bits 30..37 of the address, `low k`
that of the level-0 table for bits 21..37, and `leaf n` the valid PTE of
page number `n`. An absent entry is a PTE with PTE_V clear. A PTE of the
source that is not valid is always 0, so nothing is lost.

A pointer to a PTE, what `walk` returns, is the page number: it exists
when both tables above it do. A new table page is zeroed, which clears
the entries below it; `walkAlloc` writes that too, so the maps need no
side condition to be read as the tree.

# Permissions

`Perm` holds the four flags the kernel ever tests. The hardware's
accessed and dirty bits are not modelled.
-/
import Xv6Labs.Model.Machine

namespace Xv6Labs.Model

open Lib

/-- The PTE_R, PTE_W, PTE_X and PTE_U flags. -/
structure Perm where
  r : Bool
  w : Bool
  x : Bool
  u : Bool
deriving DecidableEq, Repr

/-- A valid leaf PTE. -/
structure Pte where
  pa : Nat
  perm : Perm
deriving DecidableEq, Repr

/-- A page table, read by virtual address. The null pointer of a process
without one is `root = 0`. -/
structure PageTable where
  root : Nat
  mid : Nat → Option Nat
  low : Nat → Option Nat
  leaf : Nat → Option Pte

/-- The table with nothing in it. -/
def PageTable.empty (root : Nat) : PageTable :=
  { root, mid := fun _ => none, low := fun _ => none, leaf := fun _ => none }

/-- Store a PTE, or clear it. -/
def PageTable.setLeaf (pt : PageTable) (n : Nat) (e : Option Pte) : PageTable :=
  { pt with leaf := fun m => if m = n then e else pt.leaf m }

-- == walk

/-- `walk(pagetable, va, 0)`. -/
def walk (pt : PageTable) (va : Nat) : Except Panic (Option Nat) :=
  if maxVa ≤ va then .error .walk
  else
    match pt.mid (va / 2 ^ 30), pt.low (va / 2 ^ 21) with
    | some _, some _ => .ok (some (va / pgSize))
    | _, _ => .ok none

/-- The test `pte && (*pte & PTE_V)` on the result of `walk`. -/
def walkValid (pt : PageTable) (va : Nat) : Except Panic (Option Pte) := do
  match ← walk pt va with
  | none => pure none
  | some n => pure (pt.leaf n)

/-- The level-2 turn of `walk(pagetable, va, 1)`: have a level-1 table. -/
def walkMid (pt : PageTable) (ph : Phys) (va : Nat) : Option (PageTable × Phys) :=
  match pt.mid (va / 2 ^ 30) with
  | some _ => some (pt, ph)
  | none =>
    match kalloc ph with
    | (none, _) => none
    | (some t, ph) =>
      some ({ pt with
          mid := fun i => if i = va / 2 ^ 30 then some t else pt.mid i,
          low := fun k => if k / 512 = va / 2 ^ 30 then none else pt.low k },
        ph.zero t)

/-- The level-1 turn of `walk(pagetable, va, 1)`: have a level-0 table. -/
def walkLow (pt : PageTable) (ph : Phys) (va : Nat) : Option (PageTable × Phys) :=
  match pt.low (va / 2 ^ 21) with
  | some _ => some (pt, ph)
  | none =>
    match kalloc ph with
    | (none, _) => none
    | (some t, ph) =>
      some ({ pt with
          low := fun k => if k = va / 2 ^ 21 then some t else pt.low k,
          leaf := fun n =>
            if n / 512 = va / 2 ^ 21 then none else pt.leaf n },
        ph.zero t)

/-- `walk(pagetable, va, 1)`. A failure at level 1 leaves the level-1
table in place. -/
def walkAlloc (pt : PageTable) (ph : Phys) (va : Nat) :
    Except Panic (Option Nat × PageTable × Phys) :=
  if maxVa ≤ va then .error .walk
  else
    match walkMid pt ph va with
    | none => .ok (none, pt, ph)
    | some (pt, ph) =>
      match walkLow pt ph va with
      | none => .ok (none, pt, ph)
      | some (pt, ph) => .ok (some (va / pgSize), pt, ph)

/-- `walkaddr`: the physical address of a user page, 0 if not mapped. -/
def walkaddr (pt : PageTable) (va : Nat) : Except Panic Nat :=
  if maxVa ≤ va then .ok 0
  else do
    match ← walkValid pt va with
    | none => pure 0
    | some e => pure (if e.perm.u then e.pa else 0)

/-- `ismapped`. -/
def ismapped (pt : PageTable) (va : Nat) : Except Panic Bool := do
  return (← walkValid pt va).isSome

-- == mappages

/-- One turn of mappages' loop: `.inr` is its `return -1`. -/
def mapPage (va pa : Nat) (perm : Perm) (k : Nat) (s : PageTable × Phys) :
    Except Panic ((PageTable × Phys) ⊕ (PageTable × Phys)) := do
  match ← walkAlloc s.1 s.2 (u64 (va + k * pgSize)) with
  | (none, pt, ph) => pure (.inr (pt, ph))
  | (some n, pt, ph) =>
    if (pt.leaf n).isSome then throw .remap
    else pure (.inl (pt.setLeaf n (some ⟨pa + k * pgSize, perm⟩), ph))

/-- `mappages`: `true` is the return value 0, `false` is -1. -/
def mappages (pt : PageTable) (ph : Phys) (va size pa : Nat) (perm : Perm) :
    Except Panic (Bool × PageTable × Phys) :=
  if va % pgSize ≠ 0 then .error .mappagesVa
  else if size % pgSize ≠ 0 then .error .mappagesSize
  else if size = 0 then .error .mappagesZero
  else do
    match ← forRet (mapPage va pa perm) (size / pgSize) (pt, ph) with
    | .inl (pt, ph) => pure (true, pt, ph)
    | .inr (pt, ph) => pure (false, pt, ph)

-- == uvmunmap

/-- One turn of uvmunmap's loop. -/
def unmapPage (va : Nat) (doFree : Bool) (k : Nat) (s : PageTable × Phys) :
    Except Panic (PageTable × Phys) := do
  match ← walk s.1 (va + k * pgSize) with
  | none => pure s
  | some n =>
    match s.1.leaf n with
    | none => pure s
    | some e =>
      let ph ← (if doFree then kfree s.2 e.pa else pure s.2)
      pure (s.1.setLeaf n none, ph)

/-- `uvmunmap`. -/
def uvmunmap (pt : PageTable) (ph : Phys) (va npages : Nat) (doFree : Bool) :
    Except Panic (PageTable × Phys) :=
  if va % pgSize ≠ 0 then .error .uvmunmap
  else
    forUpto (unmapPage va doFree) (pagesBelow va (u64 (va + npages * pgSize))) (pt, ph)

-- == creating and freeing

/-- `uvmcreate`. -/
def uvmcreate (ph : Phys) : Option PageTable × Phys :=
  match kalloc ph with
  | (none, ph) => (none, ph)
  | (some r, ph) => (some (.empty r), ph.zero r)

/-- freewalk's loop over one level-0 table: any valid entry is a leaf,
and panics. A leaf without PTE_R, PTE_W and PTE_X would be taken for a
pointer to a table and its page walked as one; no such leaf is ever
installed. -/
def freewalkLow (pt : PageTable) (k : Nat) : Except Panic Unit :=
  forUpto (fun i _ =>
    match pt.leaf (k * 512 + i) with
    | none => .ok ()
    | some e =>
      if e.perm.r || e.perm.w || e.perm.x then .error .freewalk
      else .error .undefined) 512 ()

/-- One turn of freewalk's loop over the level-1 table `i`. -/
def freewalkMidTurn (pt : PageTable) (i j : Nat) (ph : Phys) : Except Panic Phys :=
  match pt.low (i * 512 + j) with
  | none => .ok ph
  | some t => do
    freewalkLow pt (i * 512 + j)
    kfree ph t

/-- freewalk's loop over one level-1 table. -/
def freewalkMid (pt : PageTable) (i : Nat) (ph : Phys) : Except Panic Phys :=
  forUpto (freewalkMidTurn pt i) 512 ph

/-- One turn of freewalk's loop over the root. -/
def freewalkTurn (pt : PageTable) (i : Nat) (ph : Phys) : Except Panic Phys :=
  match pt.mid i with
  | none => .ok ph
  | some t => do
    let ph ← freewalkMid pt i ph
    kfree ph t

/-- `freewalk` on the root of a user page table. -/
def freewalk (pt : PageTable) (ph : Phys) : Except Panic Phys := do
  let ph ← forUpto (freewalkTurn pt) 512 ph
  kfree ph pt.root

/-- `uvmfree`. -/
def uvmfree (pt : PageTable) (ph : Phys) (sz : Nat) : Except Panic Phys := do
  let (pt, ph) ←
    (if 0 < sz then uvmunmap pt ph 0 (pgRoundUp sz / pgSize) true
    else pure (pt, ph))
  freewalk pt ph

-- == growing and shrinking

/-- `uvmdealloc`. The page count is an `int`, and uvmunmap takes it back
as a `uint64`. -/
def uvmdealloc (pt : PageTable) (ph : Phys) (oldsz newsz : Nat) :
    Except Panic (Nat × PageTable × Phys) :=
  if oldsz ≤ newsz then .ok (oldsz, pt, ph)
  else if pgRoundUp newsz < pgRoundUp oldsz then do
    let npages := i32 (((pgRoundUp oldsz - pgRoundUp newsz) / pgSize : Nat))
    let (pt, ph) ← uvmunmap pt ph (pgRoundUp newsz) (u64 npages) true
    pure (newsz, pt, ph)
  else .ok (newsz, pt, ph)

/-- One turn of uvmalloc's loop: `.inr` is its `return 0`, after the
pages of earlier turns are given back. -/
def allocPage (oldsz : Nat) (xperm : Perm) (k : Nat) (s : PageTable × Phys) :
    Except Panic ((PageTable × Phys) ⊕ (PageTable × Phys)) :=
  let a := oldsz + k * pgSize
  match kalloc s.2 with
  | (none, ph) => do
    let (_, pt, ph) ← uvmdealloc s.1 ph a oldsz
    pure (.inr (pt, ph))
  | (some mem, ph) => do
    let (ok, pt, ph) ← mappages s.1 (ph.zero mem) a pgSize mem
      { xperm with r := true, u := true }
    if ok then pure (.inl (pt, ph))
    else do
      let ph ← kfree ph mem
      let (_, pt, ph) ← uvmdealloc pt ph a oldsz
      pure (.inr (pt, ph))

/-- `uvmalloc`: the new size, or 0 on error. -/
def uvmalloc (pt : PageTable) (ph : Phys) (oldsz newsz : Nat)
    (xperm : Perm) : Except Panic (Nat × PageTable × Phys) :=
  if newsz < oldsz then .ok (oldsz, pt, ph)
  else do
    match ← forRet (allocPage (pgRoundUp oldsz) xperm)
        (pagesBelow (pgRoundUp oldsz) newsz) (pt, ph) with
    | .inl (pt, ph) => pure (newsz, pt, ph)
    | .inr (pt, ph) => pure (0, pt, ph)

/-- `uvmclear`: take user access from one page. -/
def uvmclear (pt : PageTable) (va : Nat) : Except Panic PageTable := do
  match ← walk pt va with
  | none => throw .uvmclear
  | some n =>
    pure (pt.setLeaf n ((pt.leaf n).map fun e => { e with perm.u := false }))

-- == uvmcopy

/-- One turn of uvmcopy's loop: `.inr` is its `goto err`, with the turn
number the error path needs. -/
def copyPage (old : PageTable) (k : Nat) (s : PageTable × Phys) :
    Except Panic ((PageTable × Phys) ⊕ (Nat × PageTable × Phys)) := do
  match ← walkValid old (k * pgSize) with
  | none => pure (.inl s)
  | some e =>
    match kalloc s.2 with
    | (none, ph) => pure (.inr (k, s.1, ph))
    | (some mem, ph) =>
      let ph := { ph with mem := memmove ph.mem mem e.pa pgSize }
      let (ok, pt, ph) ← mappages s.1 ph (k * pgSize) pgSize mem e.perm
      if ok then pure (.inl (pt, ph))
      else do
        let ph ← kfree ph mem
        pure (.inr (k, pt, ph))

/-- `uvmcopy`: `true` is the return value 0, `false` is -1. -/
def uvmcopy (old new : PageTable) (ph : Phys) (sz : Nat) :
    Except Panic (Bool × PageTable × Phys) := do
  match ← forRet (copyPage old) (pagesBelow 0 sz) (new, ph) with
  | .inl (pt, ph) => pure (true, pt, ph)
  | .inr (k, pt, ph) => do
    let (pt, ph) ← uvmunmap pt ph 0 k true
    pure (false, pt, ph)

end Xv6Labs.Model
