/-
A kernel to start from: init, and one process that has two files open.

The proofs about runs take any state that meets their conditions on a
start. `bootKernel` is one such state, small enough to evaluate: the
process in slot 1 holds a read-write descriptor 0 on inode 2 and 1 on
inode 3, both of two pages, and the root directory names a program "sh".
-/
import Xv6Labs.Model.Step

namespace Xv6Labs.Model

/-- The page table proc_pagetable makes from the pages at `base`: the
root, the two tables above the last two pages, and the trapframe. -/
def bootTable (base : Nat) : PageTable :=
  { root := base
    mid := fun i => if i = 255 then some (base + 0x1000) else none
    low := fun k => if k = 131071 then some (base + 0x2000) else none
    leaf := fun n =>
      if n = 67108863 then some ⟨0x80006000, ⟨true, false, true, false⟩⟩
      else if n = 67108862 then some ⟨base + 0x3000, ⟨true, true, false, false⟩⟩
      else none }

/-- The bytes of a file given by its first bytes. -/
def bytesFrom (l : List UInt8) : Nat → UInt8 := fun i => l.getD i 0

/-- The root directory: ".", ".." and "sh". -/
def bootRoot : Dinode :=
  { type := .dir, major := 0, minor := 0, nlink := 1, size := 48
    data := bytesFrom
      ([1, 0, 46] ++ List.replicate 13 0 ++ [1, 0, 46, 46]
        ++ List.replicate 12 0 ++ [4, 0, 115, 104]) }

/-- An ELF file without segments. -/
def bootProgram : Dinode :=
  { type := .file, major := 0, minor := 0, nlink := 1, size := 64
    data := bytesFrom [0x7F, 0x45, 0x4C, 0x46] }

/-- A file of two pages. -/
def bootFile (n : Nat) : Dinode :=
  { type := .file, major := 0, minor := 0, nlink := 1, size := 8192
    data := fun i => UInt8.ofNat (i + n) }

/-- The disk: the root is inode 1. -/
def bootDisk : Nat → Dinode
  | 1 => bootRoot
  | 2 => bootFile 2
  | 3 => bootFile 3
  | 4 => bootProgram
  | _ => .zero

/-- An open read-write file on an inode table slot. -/
def bootOpen (ip : Nat) : File :=
  { type := .inode, ref := 1, readable := true, writable := true, pipe := 0,
    ip := some ip, off := 0, major := 0 }

/-- The shared state after boot, with forty free pages. -/
def bootGlob : Glob :=
  { phys :=
      { kend := 0x80030000, trampolinePa := 0x80006000, mem := fun _ => 0
        freelist := (List.range 40).map fun i => 0x87f00000 + i * 4096 }
    shared :=
      { addr := fun ip => ip.elim 0 fun i => 0x80020000 + 136 * i
        buckets := fun _ => [] }
    ftable := fun f => if f < 2 then bootOpen f else .zero
    itable := fun i =>
      if i < 2 then ⟨1, i + 2, 1, true⟩
      else if i = 2 then ⟨1, 1, 2, true⟩
      else .zero
    disk := bootDisk
    ninodes := 200
    pipes := fun _ => ⟨false, false⟩ }

/-- A process without user memory, in the root directory. -/
def bootProc (pid base : Nat) : Proc :=
  { Proc.zero with
    state := .running, pid, curVmaStart := mmapBase,
    pagetable := bootTable base, trapframe := base + 0x3000, cwd := some 2 }

/-- The kernel after boot. -/
def bootKernel : Kernel :=
  { glob := bootGlob
    proc := fun i =>
      if i = 0 then bootProc 1 0x87000000
      else if i = 1 then
        { bootProc 2 0x87010000 with
          parent := some 0
          ofile := fun fd => if fd < 2 then some fd else none }
      else .zero
    nextpid := 3
    initproc := 0 }

/-- The slots of the inode table that are in use after boot. -/
theorem boot_used {i : Nat} (h : 0 < (bootGlob.itable i).ref) : i < 3 := by
  refine Nat.lt_of_not_le fun hi => ?_
  have h2 : ¬ i < 2 := by omega
  have h3 : i ≠ 2 := by omega
  simp only [bootGlob, if_neg h2, if_neg h3] at h
  cases h

theorem boot_inum {a b : Nat} (ha : 0 < (bootGlob.itable a).ref) (hb : 0 < (bootGlob.itable b).ref)
    (h : (bootGlob.itable a).inum = (bootGlob.itable b).inum) : a = b := by
  have hone : ∀ a < 3, ∀ b < 3, (bootGlob.itable a).inum = (bootGlob.itable b).inum → a = b := by
    decide
  exact hone a (boot_used ha) b (boot_used hb) h

/-- Calls of process `i`, one after another. -/
def runAs (k : Kernel) (i : Nat) : List Op → Except Panic Kernel
  | [] => .ok k
  | op :: ops => do
    let k ← step k i op
    runAs k i ops

end Xv6Labs.Model
