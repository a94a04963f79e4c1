/-
The kernel's data: open files, inodes, the shared page registry, mappings
and processes, and the two records that hold them.

# What is where

`Glob` is everything the processes share: physical memory, the registry
of MAP_SHARED pages, the file table, the inode table, the disk and the
pipes. `Proc` is `struct proc`, with its page table held by value: no two
processes share one. `Kernel` is the process table over a `Glob`.

Arrays of the source are functions on `Nat`; the loops that read them run
over the array's bounds, and an access the code does not bound check is
checked in the model and `Panic.undefined` outside.

# Files on disk

A `Dinode` is an on-disk inode with its content as bytes: block
addresses, the buffer cache and the log are below this model. The cached
copy that an in-memory inode keeps of the disk fields is written back by
`iupdate` at every change, so there is one copy here, on the disk. There
is one device; the in-memory inode keeps its `dev` field because the
inode table is searched by it.

# What is left out

Locks: the operations here run one at a time, each to its end. The process
table, the sleep lock, the log and the buffers have step models of their
own for what several processes do at once; page faults have none. The
scheduler's fields (`chan`, the context, the kernel stack) and the
registers that no modelled function reads.
-/
import Xv6Labs.Model.PageTable

namespace Xv6Labs.Model

-- == files

/-- The kinds of open file (file.h). -/
inductive FdType where
  | none
  | pipe
  | inode
  | device
deriving DecidableEq, Repr

/-- `struct file`. -/
structure File where
  type : FdType
  /-- an `int` of the source, taken not to wrap; where references leak, the
  number of holders is bounded -/
  ref : Int
  readable : Bool
  writable : Bool
  /-- the pipe's page -/
  pipe : Nat
  /-- the inode table slot, `none` for the null pointer -/
  ip : Option Nat
  off : Nat
  major : Int

/-- A file table entry that was never used. -/
def File.zero : File :=
  { type := .none, ref := 0, readable := false, writable := false,
    pipe := 0, ip := none, off := 0, major := 0 }

/-- The two ends of a `struct pipe`. -/
structure Pipe where
  readopen : Bool
  writeopen : Bool
deriving DecidableEq, Repr

-- == inodes

/-- The inode types (stat.h), and 0 for a free inode. -/
inductive IType where
  | free
  | dir
  | file
  | device
deriving DecidableEq, Repr

/-- An inode on disk, with its content. -/
structure Dinode where
  type : IType
  major : Int
  minor : Int
  nlink : Int
  size : Nat
  data : Nat → UInt8

/-- A free inode. -/
def Dinode.zero : Dinode :=
  { type := .free, major := 0, minor := 0, nlink := 0, size := 0, data := fun _ => 0 }

/-- An inode table entry: which inode it holds, how many pointers to it
there are, and whether the disk fields have been read. -/
structure Inode where
  dev : Nat
  inum : Nat
  ref : Int
  valid : Bool

/-- An inode table entry that was never used. -/
def Inode.zero : Inode := { dev := 0, inum := 0, ref := 0, valid := false }

-- == the page registry

/-- `struct shared_entry`, with `self` the page that stores it. -/
structure SharedEntry where
  ip : Option Nat
  off : Nat
  pa : Nat
  refcnt : Int
  self : Nat
deriving DecidableEq, Repr

/-- `shared_tab`: the bucket chains. `addr` is the address of an inode
table slot as the linker placed it, which the hash reads. -/
structure SharedTab where
  addr : Option Nat → Nat
  buckets : Nat → List SharedEntry

-- == shared state

/-- What the processes share. -/
structure Glob where
  phys : Phys
  shared : SharedTab
  ftable : Nat → File
  itable : Nat → Inode
  disk : Nat → Dinode
  /-- inodes on the disk, `sb.ninodes` -/
  ninodes : Nat
  /-- the pipe stored in each page that holds one -/
  pipes : Nat → Pipe

/-- Replace the bytes of physical memory. -/
def Glob.setMem (g : Glob) (mem : Nat → UInt8) : Glob :=
  { g with phys := { g.phys with mem } }

/-- Replace one entry of the file table. -/
def Glob.setFile (g : Glob) (f : Nat) (fl : File) : Glob :=
  { g with ftable := fun i => if i = f then fl else g.ftable i }

/-- Replace one entry of the inode table. -/
def Glob.setInode (g : Glob) (ip : Nat) (nd : Inode) : Glob :=
  { g with itable := fun i => if i = ip then nd else g.itable i }

/-- Replace one inode of the disk. -/
def Glob.setDisk (g : Glob) (inum : Nat) (d : Dinode) : Glob :=
  { g with disk := fun i => if i = inum then d else g.disk i }

/-- The disk inode behind an inode table slot. -/
def Glob.dinode (g : Glob) (ip : Nat) : Dinode := g.disk (g.itable ip).inum

-- == mappings, procs

/-- The MAP_SHARED flag (fcntl.h). -/
abbrev mapShared : UInt32 := 1

/-- The PROT_READ bit (fcntl.h). -/
abbrev protRead : UInt32 := 1

/-- The PROT_WRITE bit (fcntl.h). -/
abbrev protWrite : UInt32 := 2

/-- The C test `x & m`. -/
def hasBit (x m : UInt32) : Bool := x &&& m != 0

/-- `struct vma_t`; `stop` is its `end`. -/
structure Vma where
  start : Nat
  stop : Nat
  valid : Bool
  len : Int
  prot : UInt32
  flags : UInt32
  fd : Int
  file : Option Nat
  offset : Nat
deriving DecidableEq, Repr

/-- A mapping slot that was never used. -/
def Vma.zero : Vma :=
  { start := 0, stop := 0, valid := false, len := 0, prot := 0, flags := 0,
    fd := 0, file := none, offset := 0 }

/-- The test `(v->flags & MAP_SHARED) && v->file` of the fault, unmap and
exit paths: pages of such a mapping live in the registry. -/
def Vma.isShared (v : Vma) : Bool := hasBit v.flags mapShared && v.file.isSome

/-- The file offset `v->offset + (a - v->start)`, in 64 bits. -/
def Vma.fileOff (v : Vma) (a : Nat) : Nat := u64 ((v.offset : Int) + ((a : Int) - v.start))

/-- `enum procstate`. -/
inductive ProcState where
  | unused
  | used
  | sleeping
  | runnable
  | running
  | zombie
deriving DecidableEq, Repr

/-- The saved user registers that fork and exec write. -/
structure Regs where
  epc : Nat
  sp : Nat
  a0 : Nat
  a1 : Nat
deriving DecidableEq, Repr

/-- `struct proc`. -/
structure Proc where
  state : ProcState
  killed : Bool
  xstate : Int
  pid : Nat
  vma : Nat → Vma
  curVmaStart : Nat
  /-- the parent's slot in the process table -/
  parent : Option Nat
  sz : Nat
  pagetable : PageTable
  /-- the trapframe's page, 0 for none -/
  trapframe : Nat
  regs : Regs
  ofile : Nat → Option Nat
  cwd : Option Nat
  name : List UInt8

/-- A process table entry that was never used. -/
def Proc.zero : Proc :=
  { state := .unused, killed := false, xstate := 0, pid := 0,
    vma := fun _ => .zero, curVmaStart := 0, parent := none, sz := 0,
    pagetable := .empty 0, trapframe := 0, regs := ⟨0, 0, 0, 0⟩,
    ofile := fun _ => none, cwd := none, name := [] }

/-- Replace one mapping slot. -/
def Proc.setVma (p : Proc) (i : Nat) (v : Vma) : Proc :=
  { p with vma := fun j => if j = i then v else p.vma j }

/-- Replace one descriptor. -/
def Proc.setOfile (p : Proc) (fd : Nat) (f : Option Nat) : Proc :=
  { p with ofile := fun j => if j = fd then f else p.ofile j }

/-- The whole kernel: the process table over the shared state. -/
structure Kernel where
  glob : Glob
  proc : Nat → Proc
  nextpid : Nat
  initproc : Nat

/-- Replace one process. -/
def Kernel.setProc (k : Kernel) (i : Nat) (p : Proc) : Kernel :=
  { k with proc := fun j => if j = i then p else k.proc j }

/-- Replace one process and the shared state, as a system call of that
process leaves them. -/
def Kernel.put (k : Kernel) (i : Nat) (s : Proc × Glob) : Kernel :=
  { k.setProc i s.1 with glob := s.2 }

end Xv6Labs.Model
