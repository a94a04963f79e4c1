/-
The other calls on names (sysfile.c): `sys_link`, `sys_mkdir`,
`sys_mknod` and `sys_chdir`, and the file-system calls of a process as
steps of the kernel.

A path is `none` when argstr cannot fetch it. `room` is as in the module
on names: the bytes of free blocks that are left, for the one entry that
a call may append to a directory.
-/
import Xv6Labs.Model.Step

namespace Xv6Labs.Model

open Lib

-- == sys_link

/-- sys_link's label `bad`: the link is taken back. -/
def linkBad (g : Glob) (ip : Nat) : Except Panic Glob := do
  let g ← ilock g ip
  let d := g.dinode ip
  pure (iput (g.setDisk (g.itable ip).inum
    { d with nlink := i16 (d.nlink - 1) }) ip)

/-- sys_link once the new link is counted: the entry in the directory of
the new name. -/
def linkNew (g : Glob) (cwd : Option Nat) (ip : Nat) (new : List UInt8)
    (room : Nat) : Except Panic (Nat × Glob) := do
  match ← namex g cwd new true with
  | (none, _, g) =>
    let g ← linkBad g ip
    pure (minusOne, g)
  | (some dp, name, g) =>
    let g ← ilock g dp
    let (ok, g) ← (if (g.itable dp).dev ≠ (g.itable ip).dev
      then pure (false, g)
      else dirlink g dp name (g.itable ip).inum room)
    let g := iput g dp
    if ok then pure (0, iput g ip)
    else
      let g ← linkBad g ip
      pure (minusOne, g)

/-- sys_link on the inode of the old name, once it is locked. -/
def linkIp (g : Glob) (cwd : Option Nat) (ip : Nat) (new : List UInt8)
    (room : Nat) : Except Panic (Nat × Glob) :=
  let d := g.dinode ip
  if d.type = .dir then .ok (minusOne, iput g ip)
  else
    linkNew (g.setDisk (g.itable ip).inum
      { d with nlink := i16 (d.nlink + 1) }) cwd ip new room

/-- `sys_link`. -/
def sysLink (p : Proc) (g : Glob) (old new : Option (List UInt8))
    (room : Nat) : Except Panic (Nat × Proc × Glob) :=
  match old, new with
  | some old, some new => do
    match ← namei g p.cwd old with
    | (none, g) => pure (minusOne, p, g)
    | (some ip, g) =>
      let g ← ilock g ip
      let (r, g) ← linkIp g p.cwd ip new room
      pure (r, p, g)
  | _, _ => .ok (minusOne, p, g)

-- == sys_mkdir, sys_mknod

/-- sys_mkdir and sys_mknod: create, and put what it returns. -/
def sysCreate (p : Proc) (g : Glob) (path : Option (List UInt8))
    (type : IType) (major minor : Int) (room : Nat) :
    Except Panic (Nat × Proc × Glob) :=
  match path with
  | none => .ok (minusOne, p, g)
  | some path => do
    match ← create g p.cwd path type major minor room with
    | (none, g) => pure (minusOne, p, g)
    | (some ip, g) => pure (0, p, iput g ip)

/-- `sys_mkdir`. -/
def sysMkdir (p : Proc) (g : Glob) (path : Option (List UInt8))
    (room : Nat) : Except Panic (Nat × Proc × Glob) :=
  sysCreate p g path .dir 0 0 room

/-- `sys_mknod`: create takes the numbers as `short`. -/
def sysMknod (p : Proc) (g : Glob) (path : Option (List UInt8))
    (major minor : Int) (room : Nat) : Except Panic (Nat × Proc × Glob) :=
  sysCreate p g path .device (i16 major) (i16 minor) room

-- == sys_chdir

/-- `sys_chdir`. -/
def sysChdir (p : Proc) (g : Glob) (path : Option (List UInt8)) :
    Except Panic (Nat × Proc × Glob) :=
  match path with
  | none => .ok (minusOne, p, g)
  | some path => do
    match ← namei g p.cwd path with
    | (none, g) => pure (minusOne, p, g)
    | (some ip, g) =>
      let g ← ilock g ip
      if (g.dinode ip).type ≠ .dir then pure (minusOne, p, iput g ip)
      else
        match p.cwd with
        | none => throw .undefined
        | some c => pure (0, { p with cwd := some ip }, iput g c)

-- == steps

/-- The calls of a process that open, name and hold files. -/
inductive FileCall where
  | openFile (path : Option (List UInt8)) (omode : UInt32) (room : Nat)
  | close (fd : Int32)
  | dup (fd : Int32)
  | link (old new : Option (List UInt8)) (room : Nat)
  | unlink (path : Option (List UInt8))
  | mkdir (path : Option (List UInt8)) (room : Nat)
  | mknod (path : Option (List UInt8)) (major minor : Int32) (room : Nat)
  | chdir (path : Option (List UInt8))
  | fork
  | exec (path : List UInt8) (argv : List (List UInt8))
  | exit (status : Int32)
  | wait (addr : UInt64)

/-- One such call of process `i`. -/
def fileStep (k : Kernel) (i : Nat) : FileCall → Except Panic Kernel
  | .openFile path omode room =>
    k.local i fun p g => sysOpen p g path omode room
  | .close fd => k.local i fun p g => sysClose p g fd.toInt
  | .dup fd => k.local i fun p g => sysDup p g fd.toInt
  | .link old new room => k.local i fun p g => sysLink p g old new room
  | .unlink path => k.local i fun p g => sysUnlink p g path
  | .mkdir path room => k.local i fun p g => sysMkdir p g path room
  | .mknod path major minor room =>
    k.local i fun p g => sysMknod p g path major.toInt minor.toInt room
  | .chdir path => k.local i fun p g => sysChdir p g path
  | .fork => do
    let (_, k) ← kfork k i
    pure k
  | .exec path argv => k.local i fun p g => kexec p g path argv
  | .exit status => kexit k i status.toInt
  | .wait addr => do
    let (_, k) ← kwait k i addr.toNat
    pure k

end Xv6Labs.Model
