/-
The machine under the kernel: word arithmetic, the memory layout, the
panics, and the physical page allocator of kalloc.c.

# Words

Addresses, sizes and file offsets are `Nat`s that the code keeps in 64
bits. Where an expression of the source can wrap, the model writes the
wrap: `u64` reduces a signed sum modulo 2^64 (the C conversion of an
`int` to `uint64` is a sign extension, so `cur_max + len` is
`u64 (cur + len)` over `Int`), `u32` is the truncation to `uint`, and
`i32` the truncation to `int`.

# Panics

A kernel function that calls `panic` never returns, and one that
dereferences a null pointer or reads past an array has no defined
behaviour. Both end the run: the function is `.error` with the panic it
hit, and `Panic.undefined` stands for the second kind.

# Physical memory

`Phys` is RAM as the allocator sees it: the bytes, the free list, and
the linker's symbols `end` and `trampoline`. The free list is a list because
kalloc pops and kfree pushes at its head; the links the code stores
inside free pages are not modelled, since both functions overwrite the
page with junk.
-/
import Xv6Labs.Lib.Exec

namespace Xv6Labs.Model

-- == parameters

/-- Bytes per page (riscv.h). -/
abbrev pgSize : Nat := 4096

/-- One beyond the highest virtual address (riscv.h). -/
abbrev maxVa : Nat := 2 ^ 38

/-- The trampoline page, highest in every address space (memlayout.h). -/
abbrev trampoline : Nat := maxVa - pgSize

/-- The trapframe page, just below the trampoline (memlayout.h). -/
abbrev trapframe : Nat := trampoline - pgSize

/-- First address that mmap hands out (memlayout.h). -/
abbrev mmapBase : Nat := 0x40000000

/-- mmap's limit (memlayout.h). -/
abbrev mmapTop : Nat := 0x80000000

/-- End of RAM (memlayout.h). -/
abbrev physTop : Nat := 0x80000000 + 128 * 1024 * 1024

/-- Process slots (param.h). -/
abbrev nproc : Nat := 64

/-- Descriptors per process (param.h). -/
abbrev nofile : Nat := 16

/-- Open files per system (param.h). -/
abbrev nfile : Nat := 100

/-- In-memory inodes (param.h). -/
abbrev ninode : Nat := 50

/-- Mapping slots per process (param.h). -/
abbrev nvma : Nat := 16

/-- Buckets of the shared page registry (param.h). -/
abbrev shash : Nat := 64

/-- Bytes per disk block (fs.h). -/
abbrev bsize : Nat := 1024

/-- Largest file, in blocks: twelve direct and one indirect (fs.h). -/
abbrev maxFile : Nat := 12 + bsize / 4

-- == words

/-- Reduce to 64 bits, sign extending negative values. -/
def u64 (x : Int) : Nat := (x % 2 ^ 64).toNat

/-- Truncate to `uint`. -/
def u32 (x : Int) : Nat := (x % 2 ^ 32).toNat

/-- Truncate to `int`. -/
def i32 (x : Int) : Int := x.bmod (2 ^ 32)

/-- Conversion to `short`. -/
def i16 (x : Int) : Int := x.bmod (2 ^ 16)

/-- `PGROUNDUP`, with the wrap of its addition. -/
def pgRoundUp (a : Nat) : Nat := u64 (a + 4095) / pgSize * pgSize

/-- `PGROUNDDOWN`. -/
def pgRoundDown (a : Nat) : Nat := a / pgSize * pgSize

/-- The value -1 as a system call returns it. -/
abbrev minusOne : Nat := 2 ^ 64 - 1

/-- Turns of `for(i = lo; i <= hi; i += PGSIZE)`. Past `hi` the counter
cannot wrap back below it unless `hi` is in the last page of the address
space, and every loop of this shape walks the page table first, which
panics long before. -/
def pagesThrough (lo hi : Nat) : Nat := if lo ≤ hi then (hi - lo) / pgSize + 1 else 0

/-- Turns of `for(i = lo; i < hi; i += PGSIZE)`. -/
def pagesBelow (lo hi : Nat) : Nat := (hi - lo + 4095) / pgSize

-- == panics

/-- How a run of the kernel ends early. -/
inductive Panic where
  /-- "walk": an address at or above MAXVA -/
  | walk
  /-- "mappages: va not aligned" -/
  | mappagesVa
  /-- "mappages: size not aligned" -/
  | mappagesSize
  /-- "mappages: size" -/
  | mappagesZero
  /-- "mappages: remap" -/
  | remap
  /-- "uvmunmap: not aligned" -/
  | uvmunmap
  /-- "freewalk: leaf" -/
  | freewalk
  /-- "uvmclear" -/
  | uvmclear
  /-- "loadseg: address should exist" -/
  | loadseg
  /-- "kfree" -/
  | kfree
  /-- "filedup" -/
  | filedup
  /-- "fileclose" -/
  | fileclose
  /-- "iget: no inodes" -/
  | iget
  /-- "ilock" -/
  | ilock
  /-- "ilock: no type" -/
  | ilockType
  /-- "dirlookup not DIR" -/
  | dirlookup
  /-- "dirlookup read", "dirlink read", "isdirempty: readi" -/
  | dirRead
  /-- "unlink: nlink < 1" -/
  | unlinkNlink
  /-- "unlink: writei" -/
  | unlinkWritei
  /-- "init exiting" -/
  | initExiting
  /-- a null dereference, or an access outside an array -/
  | undefined
deriving DecidableEq, Repr

-- == physical memory

/-- RAM and its allocator. -/
structure Phys where
  /-- first address after the kernel, the linker's `end` -/
  kend : Nat
  /-- where the linker put trampoline.S, a page of kernel text -/
  trampolinePa : Nat
  mem : Nat → UInt8
  freelist : List Nat

/-- `memset`. -/
def memset (mem : Nat → UInt8) (dst : Nat) (c : UInt8) (n : Nat) : Nat → UInt8 :=
  fun a => if dst ≤ a ∧ a < dst + n then c else mem a

/-- `memmove`: the source is read before anything is written. -/
def memmove (mem : Nat → UInt8) (dst src n : Nat) : Nat → UInt8 :=
  fun a => if dst ≤ a ∧ a < dst + n then mem (src + (a - dst)) else mem a

/-- Overwrite `n` bytes at `dst` with the bytes of a kernel object. -/
def memput (mem : Nat → UInt8) (dst n : Nat) (src : Nat → UInt8) : Nat → UInt8 :=
  fun a => if dst ≤ a ∧ a < dst + n then src (a - dst) else mem a

/-- May this address be handed to `kfree`? The allocator's own test. -/
def Phys.isPage (ph : Phys) (pa : Nat) : Prop := pa % pgSize = 0 ∧ ph.kend ≤ pa ∧ pa < physTop

instance (ph : Phys) (pa : Nat) : Decidable (ph.isPage pa) := inferInstanceAs (Decidable (_ ∧ _))

/-- Fill one page with zeros, as callers of `kalloc` do. -/
def Phys.zero (ph : Phys) (pa : Nat) : Phys :=
  { ph with mem := memset ph.mem pa 0 pgSize }

/-- `kalloc`: pop the free list and fill the page with junk. -/
def kalloc (ph : Phys) : Option Nat × Phys :=
  match ph.freelist with
  | [] => (none, ph)
  | r :: rest =>
    (some r, { ph with freelist := rest, mem := memset ph.mem r 5 pgSize })

/-- `kfree`: check the address, fill the page with junk, push it. -/
def kfree (ph : Phys) (pa : Nat) : Except Panic Phys :=
  if ph.isPage pa then
    .ok { ph with freelist := pa :: ph.freelist, mem := memset ph.mem pa 1 pgSize }
  else .error .kfree

end Xv6Labs.Model
