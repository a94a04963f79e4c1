/-
The life of a process: proc.c from `allocproc` to `kwait`, and `growproc`
with `sys_sbrk`.

# Two slips of kexit, kept

kexit's loop over the pages of a mapping runs while `j <= v->end`, one
page past it, and its private branch unmaps the page at address `i`, the
number of the mapping slot, where the shared branch unmaps `j`. It never
closes the file of a mapping. kfork copies every field of a mapping but
`offset`, which allocproc has set to 0.

# What is left out

`wakeup` only moves sleeping processes back to the run queue, and nothing
here reads that. A kwait that would sleep is not a finished call: it is
`none`.
-/
import Xv6Labs.Model.Mmap

namespace Xv6Labs.Model

open Lib

-- == address spaces

/-- `proc_pagetable`: a table with the trampoline and the trapframe. -/
def procPagetable (ph : Phys) (tf : Nat) : Except Panic (Option PageTable × Phys) :=
  match uvmcreate ph with
  | (none, ph) => .ok (none, ph)
  | (some pt, ph) => do
    let (ok, pt, ph) ← mappages pt ph trampoline pgSize ph.trampolinePa
      { r := true, w := false, x := true, u := false }
    if ok then do
      let (ok, pt, ph) ← mappages pt ph trapframe pgSize tf
        { r := true, w := true, x := false, u := false }
      if ok then pure (some pt, ph)
      else do
        let (pt, ph) ← uvmunmap pt ph trampoline 1 false
        let ph ← uvmfree pt ph 0
        pure (none, ph)
    else do
      let ph ← uvmfree pt ph 0
      pure (none, ph)

/-- `proc_freepagetable`. -/
def procFreepagetable (pt : PageTable) (ph : Phys) (sz : Nat) : Except Panic Phys := do
  let (pt, ph) ← uvmunmap pt ph trampoline 1 false
  let (pt, ph) ← uvmunmap pt ph trapframe 1 false
  uvmfree pt ph sz

-- == allocproc, freeproc

/-- `freeproc`. The mapping slots, the descriptors and the working
directory are left as they are. -/
def freeproc (p : Proc) (ph : Phys) : Except Panic (Proc × Phys) := do
  let ph ← (if p.trapframe = 0 then pure ph else kfree ph p.trapframe)
  let ph ← (if p.pagetable.root = 0 then pure ph else procFreepagetable p.pagetable ph p.sz)
  pure ({ p with
    trapframe := 0, pagetable := .empty 0, sz := 0, pid := 0, parent := none,
    name := [], killed := false, xstate := 0, state := .unused }, ph)

/-- allocproc's reset of a mapping slot: every field but `prot` and
`file`. -/
def Vma.reset (v : Vma) : Vma :=
  { v with valid := false, start := 0, stop := 0, len := 0, flags := 0, offset := 0, fd := 0 }

/-- The process that allocproc initialises, before it has any memory. -/
def Proc.fresh (p : Proc) (pid : Nat) : Proc :=
  { p with state := .used, pid, vma := fun i => (p.vma i).reset, curVmaStart := mmapBase }

/-- `allocproc`: the slot it returns, `none` when there is no free slot
or no memory. A failed allocation still uses up a pid. -/
def allocproc (k : Kernel) : Except Panic (Option Nat × Kernel) :=
  match (List.range nproc).find? fun j => (k.proc j).state = .unused with
  | none => .ok (none, k)
  | some j =>
    let p := (k.proc j).fresh k.nextpid
    let k := { k with nextpid := k.nextpid + 1 }
    match kalloc k.glob.phys with
    | (none, ph) => do
      let (p, ph) ← freeproc { p with trapframe := 0 } ph
      pure (none, k.put j (p, { k.glob with phys := ph }))
    | (some tf, ph) => do
      let p := { p with trapframe := tf }
      match ← procPagetable ph tf with
      | (none, ph) =>
        let (p, ph) ← freeproc { p with pagetable := .empty 0 } ph
        pure (none, k.put j (p, { k.glob with phys := ph }))
      | (some pt, ph) =>
        pure (some j, k.put j ({ p with pagetable := pt }, { k.glob with phys := ph }))

-- == kfork

/-- The child's copy of one mapping: the fields kfork assigns, over the
slot allocproc reset. -/
def Vma.copyTo (pv npv : Vma) : Vma :=
  { npv with valid := true, start := pv.start, stop := pv.stop,
             len := pv.len, prot := pv.prot, flags := pv.flags,
             fd := pv.fd, file := pv.file }

/-- One turn of kfork's loop over the parent's mapping slots. -/
def forkVma (p : Proc) (i : Nat) (s : Proc × Glob) : Except Panic (Proc × Glob) :=
  if (p.vma i).valid then
    match freeSlot s.1 with
    | none => .ok s
    | some j => do
      let g ← filedupOpt s.2 (p.vma i).file
      pure (s.1.setVma j ((p.vma i).copyTo (s.1.vma j)), g)
  else .ok s

/-- One turn of kfork's loop over the descriptors. -/
def forkFd (p : Proc) (fd : Nat) (s : Proc × Glob) : Except Panic (Proc × Glob) :=
  match p.ofile fd with
  | none => .ok s
  | some f => do
    let g ← filedup s.2 f
    pure (s.1.setOfile fd (some f), g)

/-- kfork after the address space is copied: mappings, registers,
descriptors, working directory, name. -/
def forkRest (p np : Proc) (g : Glob) (parent : Nat) : Except Panic (Proc × Glob) := do
  let np := { np with sz := p.sz, curVmaStart := p.curVmaStart }
  let (np, g) ← forUpto (forkVma p) nvma (np, g)
  let np := { np with regs := { p.regs with a0 := 0 } }
  let (np, g) ← forUpto (forkFd p) nofile (np, g)
  match p.cwd with
  | none => throw .undefined
  | some c =>
    pure ({ np with cwd := some c, name := p.name, parent := some parent,
                    state := .runnable }, idup g c)

/-- `kfork` by the process in slot `i`: the child's slot, `none` for the
return value -1. -/
def kfork (k : Kernel) (i : Nat) : Except Panic (Option Nat × Kernel) := do
  let p := k.proc i
  match ← allocproc k with
  | (none, k) => pure (none, k)
  | (some j, k) =>
    let np := k.proc j
    let (ok, pt, ph) ← uvmcopy p.pagetable np.pagetable k.glob.phys p.sz
    let np := { np with pagetable := pt }
    let g := { k.glob with phys := ph }
    if ok then do
      let s ← forkRest p np g i
      pure (some j, k.put j s)
    else do
      let (np, ph) ← freeproc np g.phys
      pure (none, k.put j (np, { g with phys := ph }))

-- == kexit

/-- One turn of kexit's loop over the descriptors. -/
def exitFd (fd : Nat) (s : Proc × Glob) : Except Panic (Proc × Glob) :=
  match s.1.ofile fd with
  | none => .ok s
  | some f => do
    let g ← fileclose s.2 f
    pure (s.1.setOfile fd none, g)

/-- One turn of kexit's loop over the pages of the mapping `v` in slot
`slot`. -/
def exitPage (v : Vma) (slot : Nat) (n : Nat) (s : Proc × Glob) : Except Panic (Proc × Glob) := do
  let (p, g) := s
  let j := v.start + n * pgSize
  match ← walkValid p.pagetable j with
  | none => pure (p, g)
  | some _ =>
    if v.isShared then do
      let g ← g.sharedDecref (g.vmaIp v) (v.fileOff j)
      let (pt, ph) ← uvmunmap p.pagetable g.phys j 1 false
      pure ({ p with pagetable := pt }, { g with phys := ph })
    else do
      -- the slot number, where the shared branch has the address
      let (pt, ph) ← uvmunmap p.pagetable g.phys slot 1 true
      pure ({ p with pagetable := pt }, { g with phys := ph })

/-- One turn of kexit's loop over the mapping slots. -/
def exitVma (slot : Nat) (s : Proc × Glob) : Except Panic (Proc × Glob) :=
  let v := s.1.vma slot
  if v.valid then
    forUpto (exitPage v slot) (pagesThrough v.start v.stop)
      (s.1.setVma slot { v with valid := false }, s.2)
  else .ok s

/-- kexit on the process itself: files, working directory, mappings,
state. -/
def exitSelf (p : Proc) (g : Glob) (status : Int) : Except Panic (Proc × Glob) := do
  let (p, g) ← forUpto exitFd nofile (p, g)
  match p.cwd with
  | none => throw .undefined
  | some c =>
    let (p, g) ← forUpto exitVma nvma ({ p with cwd := none }, iput g c)
    pure ({ p with xstate := status, state := .zombie }, g)

/-- `reparent`: hand the children of slot `i` to init. -/
def reparent (k : Kernel) (i : Nat) : Kernel :=
  { k with proc := fun j =>
      if (k.proc j).parent = some i then
        { k.proc j with parent := some k.initproc }
      else k.proc j }

/-- `kexit` by the process in slot `i`. -/
def kexit (k : Kernel) (i : Nat) (status : Int) : Except Panic Kernel :=
  if i = k.initproc then .error .initExiting
  else
    let k := reparent k i
    do
      let s ← exitSelf (k.proc i) k.glob status
      pure (k.put i s)

-- == kwait

/-- kwait's scan: the first exited child in the process table. -/
def zombieChild (k : Kernel) (i : Nat) : Option Nat :=
  (List.range nproc).find? fun j =>
    (k.proc j).parent = some i ∧ (k.proc j).state = .zombie

/-- Is there any child? -/
def hasKids (k : Kernel) (i : Nat) : Bool :=
  (List.range nproc).any fun j => (k.proc j).parent = some i

/-- The bytes of the exit status that copyout delivers. -/
def statusByte (x : Int) (i : Nat) : UInt8 := UInt8.ofNat (u32 x / 256 ^ i)

/-- `kwait` by the process in slot `i`: the reaped pid, or `.inr ()` for
-1. `none` is a caller that sleeps. -/
def kwait (k : Kernel) (i : Nat) (addr : Nat) : Except Panic (Option (Nat ⊕ Unit) × Kernel) :=
  match zombieChild k i with
  | none =>
    if hasKids k i = false ∨ (k.proc i).killed then
      .ok (some (.inr ()), k)
    else .ok (none, k)
  | some j => do
    let c := k.proc j
    let (ok, p, g) ←
      (if addr = 0 then pure (true, k.proc i, k.glob)
      else copyout (k.proc i) k.glob addr (statusByte c.xstate) 4)
    let k := k.put i (p, g)
    if ok then do
      let (q, ph) ← freeproc c k.glob.phys
      pure (some (.inl c.pid), k.put j (q, { k.glob with phys := ph }))
    else pure (some (.inr ()), k)

-- == sys_sbrk

/-- `growproc`: `true` is the return value 0, `false` is -1. -/
def growproc (p : Proc) (g : Glob) (n : Int) : Except Panic (Bool × Proc × Glob) :=
  if 0 < n then do
    let (sz, pt, ph) ← uvmalloc p.pagetable g.phys p.sz (u64 (p.sz + n))
      { r := false, w := true, x := false, u := false }
    let p := { p with pagetable := pt }
    let g := { g with phys := ph }
    if sz = 0 then pure (false, p, g)
    else pure (true, { p with sz }, g)
  else if n < 0 then do
    let (sz, pt, ph) ← uvmdealloc p.pagetable g.phys p.sz (u64 (p.sz + n))
    pure (true, { p with pagetable := pt, sz }, { g with phys := ph })
  else .ok (true, p, g)

/-- `sys_sbrk`; `eager` is the argument SBRK_EAGER. -/
def sysSbrk (p : Proc) (g : Glob) (n : Int) (eager : Bool) : Except Panic (Nat × Proc × Glob) :=
  if eager || decide (n < 0) then do
    let (ok, p', g) ← growproc p g n
    pure (if ok then p.sz else minusOne, p', g)
  else if u64 (p.sz + n) < p.sz then .ok (minusOne, p, g)
  else .ok (p.sz, { p with sz := u64 (p.sz + n) }, g)

end Xv6Labs.Model
