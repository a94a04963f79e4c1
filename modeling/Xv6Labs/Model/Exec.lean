/-
`kexec` (exec.c).

The new image is built in a page table of its own while the old one
stays in place; `execBuild` is everything up to the commit point and
`execCommit` the rest. `goto bad` frees the new table and gives -1.

kexec's copyout goes to the new table. The pages it writes were mapped
just before, so it never faults; the model runs it on the process with
the new table in the old one's place.
-/
import Xv6Labs.Model.Names

namespace Xv6Labs.Model

open Lib

/-- Most arguments of exec (param.h). -/
abbrev maxArg : Nat := 32

/-- The little-endian field of `n` bytes at `off`. -/
def leField (b : List UInt8) (off n : Nat) : Nat :=
  (List.range n).foldr (fun i acc => (b.getD (off + i) 0).toNat + 256 * acc) 0

/-- `flags2perm`. -/
def flags2perm (flags : Nat) : Perm :=
  { r := false, w := flags / 2 % 2 = 1, x := flags % 2 = 1, u := false }

/-- One turn of loadseg's loop: `.inr` is its `return -1`. -/
def loadsegPage (pt : PageTable) (ip va offset sz : Nat) (k : Nat) (g : Glob) :
    Except Panic (Glob ⊕ Glob) := do
  let i := k * pgSize
  let pa ← walkaddr pt (u64 (va + i))
  if pa = 0 then throw .loadseg
  else
    let n := if sz - i < pgSize then sz - i else pgSize
    let (m, g) := readi g ip pa (offset + i) n
    if m = n then pure (.inl g) else pure (.inr g)

/-- `loadseg`: `true` is the return value 0, `false` is -1. -/
def loadseg (pt : PageTable) (g : Glob) (ip va offset sz : Nat) : Except Panic (Bool × Glob) := do
  match ← forRet (loadsegPage pt ip va offset sz) (pagesBelow 0 sz) g with
  | .inl g => pure (true, g)
  | .inr g => pure (false, g)

/-- One turn of kexec's loop over the program headers, on the size and
the table built so far: `.inr` is `goto bad`. -/
def execSeg (ip phoff : Nat) (i : Nat) (s : Nat × PageTable × Glob) :
    Except Panic ((Nat × PageTable × Glob) ⊕ (Nat × PageTable × Glob)) := do
  let (sz, pt, g) := s
  let ph := readiObj g ip (u32 (phoff + i * 56)) 56
  let flags := leField ph 4 4
  let off := leField ph 8 8
  let vaddr := leField ph 16 8
  let filesz := leField ph 32 8
  let memsz := leField ph 40 8
  if ph.length ≠ 56 then pure (.inr s)
  else if leField ph 0 4 ≠ 1 then pure (.inl s)
  else if memsz < filesz then pure (.inr s)
  else if u64 (vaddr + memsz) < vaddr then pure (.inr s)
  else if vaddr % pgSize ≠ 0 then pure (.inr s)
  else
    let (sz1, pt, phys) ← uvmalloc pt g.phys sz (u64 (vaddr + memsz)) (flags2perm flags)
    let g := { g with phys }
    if sz1 = 0 then pure (.inr (sz, pt, g))
    else
      let (ok, g) ← loadseg pt g ip vaddr (u32 off) (u32 filesz)
      if ok then pure (.inl (sz1, pt, g)) else pure (.inr (sz1, pt, g))

/-- Push a kernel object on the new stack: align `sp`, check the guard,
copy out. `none` is `goto bad`. -/
def execPush (p : Proc) (pt : PageTable) (g : Glob) (stackbase sp : Nat)
    (src : Nat → UInt8) (len : Nat) :
    Except Panic (Option Nat × PageTable × Glob) := do
  let sp := u64 ((sp : Int) - len)
  let sp := sp - sp % 16
  if sp < stackbase then pure (none, pt, g)
  else
    let (ok, q, g) ← copyout { p with pagetable := pt } g sp src len
    pure (if ok then some sp else none, q.pagetable, g)

/-- kexec's loop over the argument strings: the stack pointer and the
addresses of the strings, in order. `none` is `goto bad`. -/
def execArgs (p : Proc) (stackbase : Nat) :
    List (List UInt8) → List Nat → Nat → PageTable → Glob →
      Except Panic (Option (Nat × List Nat) × PageTable × Glob)
  | [], ustack, sp, pt, g => .ok (some (sp, ustack), pt, g)
  | s :: rest, ustack, sp, pt, g =>
    if maxArg ≤ ustack.length then .ok (none, pt, g)
    else do
      match ← execPush p pt g stackbase sp (fun i => s.getD i 0) (s.length + 1) with
      | (none, pt, g) => pure (none, pt, g)
      | (some sp, pt, g) => execArgs p stackbase rest (ustack ++ [sp]) sp pt g

/-- The bytes of the pointer array that kexec copies out. -/
def ustackByte (ustack : List Nat) (i : Nat) : UInt8 :=
  UInt8.ofNat (ustack.getD (i / 8) 0 / 256 ^ (i % 8))

/-- What kexec has built when it reaches its commit point. -/
structure Image where
  pagetable : PageTable
  sz : Nat
  sp : Nat
  entry : Nat
  argc : Nat

/-- kexec's stack and arguments, after the segments. `none` is
`goto bad`, with the size to free. -/
def execStack (p : Proc) (g : Glob) (pt : PageTable) (sz entry : Nat)
    (argv : List (List UInt8)) :
    Except Panic (Option Image × Nat × PageTable × Glob) := do
  let sz := pgRoundUp sz
  let (sz1, pt, phys) ← uvmalloc pt g.phys sz (u64 (sz + 2 * pgSize))
    { r := false, w := true, x := false, u := false }
  let g := { g with phys }
  if sz1 = 0 then pure (none, sz, pt, g)
  else
    let pt ← uvmclear pt (sz1 - 2 * pgSize)
    let stackbase := sz1 - pgSize
    match ← execArgs p stackbase argv [] sz1 pt g with
    | (none, pt, g) => pure (none, sz1, pt, g)
    | (some (sp, ustack), pt, g) =>
      if maxArg ≤ ustack.length then throw .undefined
      else
        match ← execPush p pt g stackbase sp (ustackByte ustack) ((ustack.length + 1) * 8) with
        | (none, pt, g) => pure (none, sz1, pt, g)
        | (some sp, pt, g) =>
          pure (some ⟨pt, sz1, sp, entry, ustack.length⟩, sz1, pt, g)

/-- kexec up to its commit point. -/
def execBuild (p : Proc) (g : Glob) (path : List UInt8)
    (argv : List (List UInt8)) : Except Panic (Option Image × Glob) := do
  match ← namei g p.cwd path with
  | (none, g) => pure (none, g)
  | (some ip, g) =>
    let g ← ilock g ip
    let elf := readiObj g ip 0 64
    if elf.length ≠ 64 ∨ leField elf 0 4 ≠ 0x464C457F then
      pure (none, iput g ip)
    else
      match ← procPagetable g.phys p.trapframe with
      | (none, phys) => pure (none, iput { g with phys } ip)
      | (some pt, phys) =>
        match ← forRet (execSeg ip (leField elf 32 8)) (leField elf 56 2)
            (0, pt, { g with phys }) with
        | .inr (sz, pt, g) =>
          let phys ← procFreepagetable pt g.phys sz
          pure (none, iput { g with phys } ip)
        | .inl (sz, pt, g) =>
          match ← execStack p (iput g ip) pt sz (leField elf 24 8) argv with
          | (none, sz, pt, g) =>
            let phys ← procFreepagetable pt g.phys sz
            pure (none, { g with phys })
          | (some img, _, _, g) => pure (some img, g)

/-- The program name kexec keeps: the last path element, at most 15
bytes. -/
def execName (path : List UInt8) : List UInt8 :=
  ((path.splitOnP fun c => c == 47).getLastD []).take 15

/-- kexec from its commit point on. Nothing is done about the mappings. -/
def execCommit (p : Proc) (g : Glob) (path : List UInt8) (img : Image) :
    Except Panic (Proc × Glob) := do
  let phys ← procFreepagetable p.pagetable g.phys p.sz
  pure ({ p with
    regs := { p.regs with a1 := img.sp, epc := img.entry, sp := img.sp },
    name := execName path, pagetable := img.pagetable, sz := img.sz },
    { g with phys })

/-- `kexec`: `argc`, or -1. -/
def kexec (p : Proc) (g : Glob) (path : List UInt8)
    (argv : List (List UInt8)) : Except Panic (Int × Proc × Glob) := do
  match ← execBuild p g path argv with
  | (none, g) => pure (-1, p, g)
  | (some img, g) => do
    let (p, g) ← execCommit p g path img
    pure (img.argc, p, g)

end Xv6Labs.Model
