/-
Page faults: `lazy_mmap` and `vmfault` of vm.c, and the user accesses and
kernel copies that take them.

# The fault on a shared page, in the code's own steps

The MAP_SHARED path of lazy_mmap drops the registry lock to read the
file and takes it again to register the page. Its four lock-delimited
pieces are functions of their own (`faultLookup`, `fillPage`,
`faultInsert`, `faultMap`), and `lazyMmap` runs them with nothing in
between: a fault of another process while the lock is free is not modelled.
-/
import Xv6Labs.Model.File
import Xv6Labs.Model.Registry

namespace Xv6Labs.Model

open Lib

-- == lazy_mmap

/-- lazy_mmap's search: the first valid mapping that holds `va`. -/
def vmaAt (p : Proc) (va : Nat) : Option Nat :=
  (List.range nvma).find? fun i =>
    (p.vma i).valid ∧ (p.vma i).start ≤ va ∧ va < (p.vma i).stop

/-- The permission test of lazy_mmap. -/
def Vma.allows (v : Vma) (read : Bool) : Bool :=
  if read then hasBit v.prot protRead else hasBit v.prot protWrite

/-- The PTE flags lazy_mmap installs. -/
def Vma.perm (v : Vma) : Perm :=
  { r := hasBit v.prot protRead, w := hasBit v.prot protWrite, x := false, u := true }

/-- `v->file->ip` for a mapping with a file. -/
def Glob.vmaIp (g : Glob) (v : Vma) : Option Nat := v.file.bind fun f => (g.ftable f).ip

/-- Allocate a zeroed page and read the file into it: lazy_mmap's
`kalloc`, `memset`, `ilock`, `readi`. A null inode panics in ilock. The
test `n < 0` never holds for a kernel destination. -/
def fillPage (g : Glob) (ip : Option Nat) (off : Nat) : Except Panic (Option Nat × Glob) :=
  match kalloc g.phys with
  | (none, ph) => .ok (none, { g with phys := ph })
  | (some mem, ph) => do
    let g := { g with phys := ph.zero mem }
    match ip with
    | none => throw .ilock
    | some ip =>
      let g ← ilock g ip
      pure (some mem, (readi g ip mem off pgSize).2)

/-- The first locked piece of a shared fault: look the key up, and count
the reference when it is there. -/
def faultLookup (g : Glob) (ip : Option Nat) (off : Nat) : Option SharedEntry × Glob :=
  match g.shared.lookup ip off with
  | none => (none, g)
  | some e => (some e, { g with shared := g.shared.incref ip off })

/-- The third piece: register the page that was filled, or free it when
the entry finds no storage. -/
def faultInsert (g : Glob) (ip : Option Nat) (off mem : Nat) :
    Except Panic (Option SharedEntry × Glob) :=
  match sharedGetOrCreate g.shared g.phys ip off mem with
  | (some e, t, ph) => .ok (some e, { g with shared := t, phys := ph })
  | (none, t, ph) => do
    let ph ← kfree ph mem
    pure (none, { g with shared := t, phys := ph })

/-- The last piece: map `pa` at `va` unless a PTE is there by now, and
drop the counted reference when nothing is mapped. Returns the address
lazy_mmap returns. -/
def faultMap (pt : PageTable) (g : Glob) (v : Vma) (va : Nat)
    (ip : Option Nat) (off pa : Nat) :
    Except Panic (Nat × PageTable × Glob) := do
  match ← walkValid pt va with
  | some e =>
    let g ← g.sharedDecref ip off
    pure (e.pa, pt, g)
  | none =>
    let (ok, pt, ph) ← mappages pt g.phys va pgSize pa v.perm
    let g := { g with phys := ph }
    if ok then pure (pa, pt, g)
    else do
      let g ← g.sharedDecref ip off
      pure (0, pt, g)

/-- lazy_mmap on a page of a shared mapping. The page it maps after a
miss is the one it filled, whatever entry the registry returned. -/
def lazyShared (pt : PageTable) (g : Glob) (v : Vma) (va : Nat) :
    Except Panic (Nat × PageTable × Glob) :=
  let ip := g.vmaIp v
  let off := v.fileOff va
  match faultLookup g ip off with
  | (some e, g) => faultMap pt g v va ip off e.pa
  | (none, g) => do
    match ← fillPage g ip off with
    | (none, g) => pure (0, pt, g)
    | (some mem, g) =>
      match ← faultInsert g ip off mem with
      | (none, g) => pure (0, pt, g)
      | (some _, g) => faultMap pt g v va ip off mem

/-- A zeroed page with the file's bytes, when the mapping has a file. -/
def privatePage (g : Glob) (v : Vma) (va : Nat) : Except Panic (Option Nat × Glob) :=
  match v.file with
  | some _ => fillPage g (g.vmaIp v) (v.fileOff va)
  | none =>
    match kalloc g.phys with
    | (none, ph) => .ok (none, { g with phys := ph })
    | (some mem, ph) => .ok (some mem, { g with phys := ph.zero mem })

/-- lazy_mmap on a page of a private mapping. -/
def lazyPrivate (pt : PageTable) (g : Glob) (v : Vma) (va : Nat) :
    Except Panic (Nat × PageTable × Glob) := do
  match ← privatePage g v va with
  | (none, g) => pure (0, pt, g)
  | (some mem, g) =>
    match ← walkValid pt va with
    | some e =>
      let ph ← kfree g.phys mem
      pure (e.pa, pt, { g with phys := ph })
    | none =>
      let (ok, pt, ph) ← mappages pt g.phys va pgSize mem v.perm
      if ok then pure (mem, pt, { g with phys := ph })
      else do
        let ph ← kfree ph mem
        pure (0, pt, { g with phys := ph })

/-- `lazy_mmap`: the physical address mapped at `va`, 0 on failure. A
page that is already mapped is returned before any permission test. -/
def lazyMmap (p : Proc) (g : Glob) (va : Nat) (read : Bool) : Except Panic (Nat × Proc × Glob) :=
  match vmaAt p va with
  | none => .ok (0, p, g)
  | some i => do
    let v := p.vma i
    let va := pgRoundDown va
    match ← walkValid p.pagetable va with
    | some e => pure (e.pa, p, g)
    | none =>
      if v.allows read then do
        let (r, pt, g) ←
          (if v.isShared then lazyShared p.pagetable g v va
          else lazyPrivate p.pagetable g v va)
        pure (r, { p with pagetable := pt }, g)
      else pure (0, p, g)

-- == vmfault

/-- `vmfault` on the process's own page table: a mapping page goes to
lazy_mmap, a page of the lazily grown heap is allocated, and 0 is
returned for everything else. -/
def vmfault (p : Proc) (g : Glob) (va : Nat) (read : Bool) : Except Panic (Nat × Proc × Glob) :=
  if mmapBase ≤ va ∧ va ≤ p.curVmaStart then lazyMmap p g va read
  else if p.sz ≤ va then .ok (0, p, g)
  else do
    let va := pgRoundDown va
    if ← ismapped p.pagetable va then pure (0, p, g)
    else
      match kalloc g.phys with
      | (none, ph) => pure (0, p, { g with phys := ph })
      | (some mem, ph) =>
        let (ok, pt, ph) ← mappages p.pagetable (ph.zero mem) va pgSize mem
          { r := true, w := true, x := false, u := true }
        if ok then
          pure (mem, { p with pagetable := pt }, { g with phys := ph })
        else do
          let ph ← kfree ph mem
          pure (0, { p with pagetable := pt }, { g with phys := ph })

-- == user accesses

/-- Does the hardware let user code through this PTE? A load needs PTE_R
and a store PTE_W; PTE_W without PTE_R is a reserved encoding, which
faults on every access. -/
def Pte.grants (e : Pte) (read : Bool) : Bool := e.perm.u && e.perm.r && (read || e.perm.w)

/-- The PTE that lets user code touch `va`. -/
def userPte (p : Proc) (va : Nat) (read : Bool) : Option Pte :=
  if maxVa ≤ va then none
  else
    match walkValid p.pagetable va with
    | .ok (some e) => if e.grants read then some e else none
    | _ => none

/-- One user access: if the hardware refuses it, usertrap calls vmfault
and retries when that returns nonzero. `none` is a killed process. -/
def userAccess (p : Proc) (g : Glob) (va : Nat) (read : Bool) :
    Except Panic (Option Nat × Proc × Glob) :=
  match userPte p va read with
  | some e => .ok (some (e.pa + va % pgSize), p, g)
  | none => do
    let (r, p, g) ← vmfault p g va read
    if r = 0 then pure (none, p, g)
    else
      match userPte p va read with
      | some e => pure (some (e.pa + va % pgSize), p, g)
      | none => pure (none, p, g)

/-- A user load of one byte. -/
def userLoad (p : Proc) (g : Glob) (va : Nat) : Except Panic (Option UInt8 × Proc × Glob) := do
  match ← userAccess p g va true with
  | (none, p, g) => pure (none, p, g)
  | (some a, p, g) => pure (some (g.phys.mem a), p, g)

/-- User loads of `n` bytes from `va` on, one after another. `none` is a
process killed on the way. -/
def userLoads (p : Proc) (g : Glob) (va : Nat) :
    Nat → Except Panic (Option (List UInt8) × Proc × Glob)
  | 0 => .ok (some [], p, g)
  | n + 1 => do
    match ← userLoads p g va n with
    | (none, p, g) => pure (none, p, g)
    | (some bs, p, g) =>
      let (b, p, g) ← userLoad p g (u64 (va + n))
      pure (b.map fun b => bs ++ [b], p, g)

/-- A user store of one byte. -/
def userStore (p : Proc) (g : Glob) (va : Nat) (b : UInt8) : Except Panic (Bool × Proc × Glob) := do
  match ← userAccess p g va false with
  | (none, p, g) => pure (false, p, g)
  | (some a, p, g) =>
    pure (true, p, g.setMem fun i => if i = a then b else g.phys.mem i)

-- == copyout

/-- One turn of copyout's loop, for the part of the request in the page
`k` pages past the first: `.inr` is its `return -1`. `done` is the number
of bytes already copied. -/
def copyoutPage (dstva : Nat) (src : Nat → UInt8) (len : Nat) (_k : Nat)
    (s : Nat × Proc × Glob) :
    Except Panic ((Nat × Proc × Glob) ⊕ (Proc × Glob)) :=
  let (done, p, g) := s
  let dst := u64 (dstva + done)
  let va0 := pgRoundDown dst
  if maxVa ≤ va0 then .ok (.inr (p, g))
  else do
    let pa0 ← walkaddr p.pagetable va0
    let (pa0, p, g) ← (if pa0 = 0 then vmfault p g va0 false else pure (pa0, p, g))
    if pa0 = 0 then pure (.inr (p, g))
    else
      match ← walk p.pagetable va0 with
      | none => throw .undefined
      | some m =>
        -- an invalid PTE is 0, and has PTE_W clear
        if (p.pagetable.leaf m).any fun e => e.perm.w then
          let n := min (pgSize - (dst - va0)) (len - done)
          let mem := memput g.phys.mem (pa0 + (dst - va0)) n fun i => src (done + i)
          pure (.inl (done + n, p, g.setMem mem))
        else pure (.inr (p, g))

/-- Turns of the loop of copyout and copyin: the pages the request
touches. -/
def copyPages (va len : Nat) : Nat := if len = 0 then 0 else (va % pgSize + len + 4095) / pgSize

/-- `copyout` of the bytes of a kernel object: `true` is the return value
0, `false` is -1. -/
def copyout (p : Proc) (g : Glob) (dstva : Nat) (src : Nat → UInt8)
    (len : Nat) : Except Panic (Bool × Proc × Glob) := do
  match ← forRet (copyoutPage dstva src len) (copyPages dstva len) (0, p, g) with
  | .inl (_, p, g) => pure (true, p, g)
  | .inr (p, g) => pure (false, p, g)

-- == copyin

/-- One turn of copyin's loop: `.inr` is its `return -1`. The state holds
the bytes delivered so far. A page that is not mapped is faulted in as if
for a store. -/
def copyinPage (srcva len : Nat) (_k : Nat) (s : List UInt8 × Proc × Glob) :
    Except Panic ((List UInt8 × Proc × Glob) ⊕ (Proc × Glob)) := do
  let (bs, p, g) := s
  let src := u64 (srcva + bs.length)
  let va0 := pgRoundDown src
  let pa0 ← walkaddr p.pagetable va0
  let (pa0, p, g) ← (if pa0 = 0 then vmfault p g va0 false else pure (pa0, p, g))
  if pa0 = 0 then pure (.inr (p, g))
  else
    let n := min (pgSize - (src - va0)) (len - bs.length)
    pure (.inl (bs ++ (List.range n).map fun i =>
      g.phys.mem (pa0 + (src - va0) + i), p, g))

/-- `copyin` into a kernel object: the bytes, `none` for the return value
-1. -/
def copyin (p : Proc) (g : Glob) (srcva len : Nat) :
    Except Panic (Option (List UInt8) × Proc × Glob) := do
  match ← forRet (copyinPage srcva len) (copyPages srcva len) ([], p, g) with
  | .inl (bs, p, g) => pure (some bs, p, g)
  | .inr (p, g) => pure (none, p, g)

-- == copyinstr

/-- One turn of copyinstr's outer loop: `.inr` is a return of -1, or the
string once its NUL is found. The state holds the bytes so far. A page
that is not mapped is not faulted in. -/
def copyinstrPage (p : Proc) (g : Glob) (srcva max : Nat) (_k : Nat)
    (bs : List UInt8) :
    Except Panic (List UInt8 ⊕ Option (List UInt8)) := do
  let src := u64 (srcva + bs.length)
  let va0 := pgRoundDown src
  let pa0 ← walkaddr p.pagetable va0
  if pa0 = 0 then pure (.inr none)
  else
    let n := min (pgSize - (src - va0)) (max - bs.length)
    let cs := (List.range n).map fun i => g.phys.mem (pa0 + (src - va0) + i)
    -- the inner loop: the bytes up to the first NUL, with it
    if 0 ∈ cs then
      pure (.inr (some (bs ++ cs.takeWhile (fun c => c != 0) ++ [0])))
    else pure (.inl (bs ++ cs))

/-- `copyinstr` into a kernel buffer: the bytes it leaves there, `none`
for the return value -1. -/
def copyinstr (p : Proc) (g : Glob) (srcva max : Nat) : Except Panic (Option (List UInt8)) := do
  match ← forRet (copyinstrPage p g srcva max) (copyPages srcva max) [] with
  | .inl _ => pure none
  | .inr o => pure o

end Xv6Labs.Model
