/-
`sys_mmap` and `sys_munmap` (sysfile.c).

Both follow the source statement by statement. Three details of the code
show up in the definitions:

- sys_mmap reads `p->ofile[fd]` without a bound check, and reads
  `f->writable` without a null check;
- it tests the requested offset but stores 0 in the new mapping;
- sys_munmap's page loop runs while `i <= unmap_end`, one page past the
  range, where its write-back loop stops at `a < PGROUNDDOWN(unmap_end)`.
-/
import Xv6Labs.Model.Fault

namespace Xv6Labs.Model

open Lib

-- == sys_mmap

/-- `p->ofile[fd]`, unchecked in the source. -/
def ofileAt (p : Proc) (fd : Int) : Except Panic (Option Nat) :=
  if 0 ≤ fd ∧ fd < nofile then .ok (p.ofile fd.toNat) else .error .undefined

/-- sys_mmap's MAP_SHARED test: a file that is not writable cannot be
mapped writable. `true` lets the call go on. -/
def mmapMode (g : Glob) (f : Option Nat) (prot flags : UInt32) : Except Panic Bool :=
  if hasBit flags mapShared then
    match f with
    | none => .error .undefined
    | some f => .ok ((g.ftable f).writable || !hasBit prot protWrite)
  else .ok true

/-- The end address sys_mmap computes, `PGROUNDUP(cur_max + len)`. -/
def mmapEnd (p : Proc) (len : Int) : Nat := pgRoundUp (u64 (p.curVmaStart + len))

/-- The first free mapping slot. -/
def freeSlot (p : Proc) : Option Nat := (List.range nvma).find? fun i => (p.vma i).valid = false

/-- `if(v->file) filedup(v->file)`. -/
def filedupOpt (g : Glob) (f : Option Nat) : Except Panic Glob :=
  match f with
  | none => .ok g
  | some f => filedup g f

/-- The mapping sys_mmap writes into its slot. -/
def newVma (p : Proc) (len : Int) (prot flags : UInt32) (fd : Int) (f : Option Nat) : Vma :=
  { start := p.curVmaStart, stop := mmapEnd p len, valid := true,
    len := i32 ((mmapEnd p len : Int) - p.curVmaStart), prot, flags, fd,
    file := f, offset := 0 }

/-- `sys_mmap`. The requested address is never read. -/
def sysMmap (p : Proc) (g : Glob) (_addr : Nat) (len : Int)
    (prot flags : UInt32) (fd : Int) (offset : Nat) :
    Except Panic (Nat × Proc × Glob) :=
  if len = 0 ∨ offset % pgSize ≠ 0 then .ok (minusOne, p, g)
  else do
    let f ← ofileAt p fd
    let mode ← mmapMode g f prot flags
    if mode = false then pure (minusOne, p, g)
    else if mmapTop ≤ mmapEnd p len then pure (minusOne, p, g)
    else
      match freeSlot p with
      | none => pure (minusOne, p, g)
      | some i =>
        let g ← filedupOpt g f
        pure (p.curVmaStart,
          { p.setVma i (newVma p len prot flags fd f) with
            curVmaStart := mmapEnd p len }, g)

-- == sys_munmap

/-- sys_munmap's search: the first valid mapping that holds the range. -/
def vmaHolding (p : Proc) (lo hi : Nat) : Option Nat :=
  (List.range nvma).find? fun i =>
    (p.vma i).valid ∧ (p.vma i).start ≤ lo ∧ hi ≤ (p.vma i).stop

/-- One turn of the write-back loop on the page at `a`: `.inr` is its
`break`. The byte count is clipped to the file's size, so the write never
extends the file and needs no disk block. -/
def writeBackPage (p : Proc) (v : Vma) (ip : Option Nat) (hi lo : Nat)
    (k : Nat) (g : Glob) : Except Panic (Glob ⊕ Glob) := do
  let a := lo + k * pgSize
  match ← walkValid p.pagetable a with
  | none => pure (.inl g)
  | some e =>
    match ip with
    | none => throw .undefined
    | some ip =>
      let off := v.fileOff a
      let bytes := if hi < a + pgSize then u32 ((hi : Int) - a) else pgSize
      let maxBytes := u32 (((g.dinode ip).size : Int) - off)
      if maxBytes = 0 then pure (.inr g)
      else
        let bytes := min bytes maxBytes
        let g ← ilock g ip
        pure (.inl (writei g ip (fun i => g.phys.mem (e.pa + i)) off bytes 0).2)

/-- sys_munmap's write-back of a writable shared mapping. -/
def writeBack (p : Proc) (g : Glob) (v : Vma) (lo hi : Nat) : Except Panic Glob :=
  if v.isShared && hasBit v.prot protWrite then do
    let a := pgRoundDown lo
    match ← forRet (writeBackPage p v (g.vmaIp v) hi a) (pagesBelow a (pgRoundDown hi)) g with
    | .inl g => pure g
    | .inr g => pure g
  else .ok g

/-- One turn of sys_munmap's unmap loop. -/
def munmapPage (v : Vma) (lo : Nat) (k : Nat) (s : Proc × Glob) : Except Panic (Proc × Glob) := do
  let (p, g) := s
  let i := lo + k * pgSize
  match ← walkValid p.pagetable i with
  | none => pure (p, g)
  | some _ =>
    if v.isShared then do
      let g ← g.sharedDecref (g.vmaIp v) (v.fileOff i)
      let (pt, ph) ← uvmunmap p.pagetable g.phys i 1 false
      pure ({ p with pagetable := pt }, { g with phys := ph })
    else do
      let (pt, ph) ← uvmunmap p.pagetable g.phys i 1 true
      pure ({ p with pagetable := pt }, { g with phys := ph })

/-- What sys_munmap leaves in the mapping's slot: gone, cut at the front,
cut at the back, or (for a range strictly inside) as it was. -/
def shrink (v : Vma) (lo hi : Nat) : Vma :=
  if v.start = lo ∧ v.stop = hi then { v with valid := false, len := 0 }
  else if v.start = lo ∧ hi < v.stop then
    { v with offset := u64 ((v.offset : Int) + ((hi : Int) - lo)), start := hi,
             len := i32 ((v.stop : Int) - hi) }
  else if v.stop = hi ∧ v.start < lo then
    { v with stop := lo, len := i32 ((lo : Int) - v.start) }
  else v

/-- `fileclose(v->file)`, unchecked in the source, when the whole mapping
goes. -/
def closeWhole (g : Glob) (v : Vma) (lo hi : Nat) : Except Panic Glob :=
  if v.start = lo ∧ v.stop = hi then
    match v.file with
    | none => .error .undefined
    | some f => fileclose g f
  else .ok g

/-- `sys_munmap`. -/
def sysMunmap (p : Proc) (g : Glob) (addr : Nat) (len : Int) : Except Panic (Nat × Proc × Glob) :=
  let hi := u64 (addr + len)
  if len = 0 then .ok (minusOne, p, g)
  else
    match vmaHolding p addr hi with
    | none => .ok (minusOne, p, g)
    | some i => do
      let v := p.vma i
      let g ← writeBack p g v addr hi
      let (p, g) ← forUpto (munmapPage v addr) (pagesThrough addr hi) (p, g)
      let g ← closeWhole g v addr hi
      pure (0, p.setVma i (shrink v addr hi), g)

end Xv6Labs.Model
