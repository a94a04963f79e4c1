/-
Directories, path names and the system calls on descriptors (fs.c,
sysfile.c).

A directory is a file of 16-byte entries, an inode number and 14 bytes of
name, and is read and written as bytes. A path is its bytes without the
final NUL; `pathElems` are the elements that `skipelem` cuts from it one
after another.

`room` is the space left on the disk, in bytes of free blocks: only an
append to a directory can run out of it.
-/
import Xv6Labs.Model.Life

namespace Xv6Labs.Model

open Lib

/-- Length of a directory entry's name (fs.h). -/
abbrev dirSiz : Nat := 14

/-- Bytes of a directory entry (fs.h). -/
abbrev direntSize : Nat := 16

/-- A name as `namecmp` compares it: at most 14 bytes, up to a NUL. -/
def cutName (s : List UInt8) : List UInt8 := (s.take dirSiz).takeWhile fun c => c != 0

-- == directories

/-- The inode number of the entry at `off`. -/
def direntInum (d : Dinode) (off : Nat) : Nat := (d.data off).toNat + 256 * (d.data (off + 1)).toNat

/-- The name of the entry at `off`. -/
def direntName (d : Dinode) (off : Nat) : List UInt8 :=
  cutName ((List.range dirSiz).map fun i => d.data (off + 2 + i))

/-- The bytes of an entry, as dirlink writes them: strncpy pads the name
with NULs. -/
def direntByte (inum : Nat) (name : List UInt8) (i : Nat) : UInt8 :=
  if i = 0 then UInt8.ofNat inum
  else if i = 1 then UInt8.ofNat (inum / 256)
  else (cutName name).getD (i - 2) 0

/-- The entries that a scan over `off < dp->size` can read whole. -/
def direntCount (d : Dinode) : Nat := d.size / direntSize

/-- A scan that gets to an entry cut off by the end of the file panics. -/
def direntsWhole (d : Dinode) : Bool := d.size % direntSize = 0

/-- `dirlookup`: the inode of the first entry with this name, referenced,
and the entry's offset. -/
def dirlookup (g : Glob) (dp : Nat) (name : List UInt8) :
    Except Panic (Option (Nat × Nat) × Glob) :=
  let d := g.dinode dp
  if d.type ≠ .dir then .error .dirlookup
  else
    match (List.range (direntCount d)).find? fun n =>
        direntInum d (n * direntSize) ≠ 0 ∧ direntName d (n * direntSize) = cutName name with
    | none => if direntsWhole d then .ok (none, g) else .error .dirRead
    | some n => do
      let off := n * direntSize
      let (ip, g) ← iget g (g.itable dp).dev (direntInum d off)
      pure (some (ip, off), g)

/-- The offset of dirlink's new entry: the first free one, or the end. -/
def freeDirent (d : Dinode) : Nat :=
  match (List.range (direntCount d)).find? fun n =>
      direntInum d (n * direntSize) = 0 with
  | none => d.size
  | some n => n * direntSize

/-- `dirlink`: `true` is the return value 0, `false` is -1. -/
def dirlink (g : Glob) (dp : Nat) (name : List UInt8) (inum room : Nat) :
    Except Panic (Bool × Glob) := do
  match ← dirlookup g dp name with
  | (some (ip, _), g) => pure (false, iput g ip)
  | (none, g) =>
    let (n, g) := writei g dp (direntByte inum name) (freeDirent (g.dinode dp)) direntSize room
    pure (decide (n = direntSize), g)

/-- `isdirempty`: no entry after "." and "..". -/
def isdirempty (d : Dinode) : Bool :=
  (List.range (direntCount d)).all fun n =>
    decide (n < 2 ∨ direntInum d (n * direntSize) = 0)

-- == paths

/-- The elements of a path, each cut to 14 bytes. -/
def pathElems (path : List UInt8) : List (List UInt8) :=
  ((path.splitOnP fun c => c == 47).filter fun s => !s.isEmpty).map fun s => s.take dirSiz

/-- namex's loop. `last` is the element `skipelem` left in `name`. -/
def namexLoop (parent : Bool) :
    List (List UInt8) → List UInt8 → Nat → Glob → Except Panic (Option Nat × List UInt8 × Glob)
  | [], last, ip, g =>
    if parent then .ok (none, last, iput g ip) else .ok (some ip, last, g)
  | name :: rest, _, ip, g => do
    let g ← ilock g ip
    if (g.dinode ip).type ≠ .dir then pure (none, name, iput g ip)
    else if parent && rest.isEmpty then pure (some ip, name, g)
    else
      match ← dirlookup g ip name with
      | (none, g) => pure (none, name, iput g ip)
      | (some (next, _), g) => namexLoop parent rest name next (iput g ip)

/-- `namex`, from the root or the working directory. -/
def namex (g : Glob) (cwd : Option Nat) (path : List UInt8) (parent : Bool) :
    Except Panic (Option Nat × List UInt8 × Glob) :=
  if path.head? = some 47 then do
    let (ip, g) ← iget g 1 1
    namexLoop parent (pathElems path) [] ip g
  else
    match cwd with
    | none => .error .undefined
    | some c => namexLoop parent (pathElems path) [] c (idup g c)

/-- `namei`. -/
def namei (g : Glob) (cwd : Option Nat) (path : List UInt8) : Except Panic (Option Nat × Glob) := do
  let (ip, _, g) ← namex g cwd path false
  pure (ip, g)

-- == create

/-- `ialloc`: the first free inode of the disk, marked and referenced. -/
def ialloc (g : Glob) (dev : Nat) (type : IType) : Except Panic (Option Nat × Glob) :=
  match (List.range g.ninodes).find? fun i =>
      1 ≤ i ∧ (g.disk i).type = .free with
  | none => .ok (none, g)
  | some i => do
    let (ip, g) ← iget (g.setDisk i { Dinode.zero with type }) dev i
    pure (some ip, g)

/-- The "." and ".." entries of a new directory. -/
def createDots (g : Glob) (dp ip room : Nat) : Except Panic (Bool × Glob) := do
  let (ok, g) ← dirlink g ip [46] (g.itable ip).inum room
  if ok then dirlink g ip [46, 46] (g.itable dp).inum room
  else pure (false, g)

/-- create's last part: the entries of a new inode, and its name in the
directory `dp`. The entries of a new directory take one block. Failure
gives the inode back. -/
def createLink (g : Glob) (dp ip : Nat) (name : List UInt8) (type : IType)
    (room : Nat) : Except Panic (Option Nat × Glob) := do
  let inum := (g.itable ip).inum
  let (ok, g) ← (if type = .dir then createDots g dp ip room else pure (true, g))
  let room := if type = .dir then room - bsize else room
  let (ok, g) ← (if ok then dirlink g dp name inum room else pure (false, g))
  if ok then
    let g := if type = .dir then
        let d := g.dinode dp
        g.setDisk (g.itable dp).inum { d with nlink := i16 (d.nlink + 1) }
      else g
    pure (some ip, iput g dp)
  else
    let g := g.setDisk (g.itable ip).inum { g.dinode ip with nlink := 0 }
    pure (none, iput (iput g ip) dp)

/-- `create`. -/
def create (g : Glob) (cwd : Option Nat) (path : List UInt8) (type : IType)
    (major minor : Int) (room : Nat) : Except Panic (Option Nat × Glob) := do
  match ← namex g cwd path true with
  | (none, _, g) => pure (none, g)
  | (some dp, name, g) =>
    let g ← ilock g dp
    match ← dirlookup g dp name with
    | (some (ip, _), g) =>
      let g ← ilock (iput g dp) ip
      if type = .file ∧ ((g.dinode ip).type = .file
          ∨ (g.dinode ip).type = .device) then pure (some ip, g)
      else pure (none, iput g ip)
    | (none, g) =>
      match ← ialloc g (g.itable dp).dev type with
      | (none, g) => pure (none, iput g dp)
      | (some ip, g) =>
        let g ← ilock g ip
        let g := g.setDisk (g.itable ip).inum
          { g.dinode ip with major, minor, nlink := 1 }
        createLink g dp ip name type room

-- == descriptors

/-- `fdalloc`: the first free descriptor. -/
def fdalloc (p : Proc) (f : Nat) : Option (Nat × Proc) :=
  match (List.range nofile).find? fun fd => p.ofile fd = none with
  | none => none
  | some fd => some (fd, p.setOfile fd (some f))

/-- `argfd`: the open file of a descriptor that is in range. -/
def argfd (p : Proc) (fd : Int) : Option Nat :=
  if 0 ≤ fd ∧ fd < nofile then p.ofile fd.toNat else none

/-- `sys_dup`. -/
def sysDup (p : Proc) (g : Glob) (fd : Int) : Except Panic (Nat × Proc × Glob) :=
  match argfd p fd with
  | none => .ok (minusOne, p, g)
  | some f =>
    match fdalloc p f with
    | none => .ok (minusOne, p, g)
    | some (fd, p) => do
      let g ← filedup g f
      pure (fd, p, g)

/-- `sys_close`. -/
def sysClose (p : Proc) (g : Glob) (fd : Int) : Except Panic (Nat × Proc × Glob) :=
  match argfd p fd with
  | none => .ok (minusOne, p, g)
  | some f => do
    let g ← fileclose g f
    pure (0, p.setOfile fd.toNat none, g)

/-- The O_WRONLY bit (fcntl.h). -/
abbrev oWronly : UInt32 := 1

/-- The O_RDWR bit (fcntl.h). -/
abbrev oRdwr : UInt32 := 2

/-- The O_CREATE bit (fcntl.h). -/
abbrev oCreate : UInt32 := 0x200

/-- The O_TRUNC bit (fcntl.h). -/
abbrev oTrunc : UInt32 := 0x400

/-- sys_open's first part: the inode to open, locked and referenced. -/
def openInode (g : Glob) (cwd : Option Nat) (path : List UInt8)
    (omode : UInt32) (room : Nat) : Except Panic (Option Nat × Glob) :=
  if hasBit omode oCreate then create g cwd path .file 0 0 room
  else do
    match ← namei g cwd path with
    | (none, g) => pure (none, g)
    | (some ip, g) =>
      let g ← ilock g ip
      if (g.dinode ip).type = .dir ∧ omode ≠ 0 then pure (none, iput g ip)
      else pure (some ip, g)

/-- The file sys_open sets up for an inode. -/
def openFile (fl : File) (d : Dinode) (ip : Nat) (omode : UInt32) : File :=
  let fl := if d.type = .device then
      { fl with type := .device, major := d.major }
    else { fl with type := .inode, off := 0 }
  { fl with ip := some ip, readable := !hasBit omode oWronly,
            writable := hasBit omode oWronly || hasBit omode oRdwr }

/-- Number of device drivers (param.h). -/
abbrev ndev : Nat := 10

/-- `sys_open`. `path` is `none` when the string cannot be fetched. -/
def sysOpen (p : Proc) (g : Glob) (path : Option (List UInt8))
    (omode : UInt32) (room : Nat) : Except Panic (Nat × Proc × Glob) :=
  match path with
  | none => .ok (minusOne, p, g)
  | some path => do
    match ← openInode g p.cwd path omode room with
    | (none, g) => pure (minusOne, p, g)
    | (some ip, g) =>
      let d := g.dinode ip
      if d.type = .device ∧ (d.major < 0 ∨ (ndev : Int) ≤ d.major) then
        pure (minusOne, p, iput g ip)
      else
        match filealloc g with
        | none => pure (minusOne, p, iput g ip)
        | some (f, g) =>
          match fdalloc p f with
          | none =>
            let g ← fileclose g f
            pure (minusOne, p, iput g ip)
          | some (fd, p) =>
            let g := g.setFile f (openFile (g.ftable f) d ip omode)
            let g := if hasBit omode oTrunc ∧ d.type = .file then itrunc g ip else g
            pure (fd, p, g)

/-- sys_unlink once the entry is erased: the link counts go down, that of
the directory for its child's "..", and both inodes are put. -/
def unlinkDrop (g : Glob) (dp ip : Nat) : Glob :=
  let g := if (g.dinode ip).type = .dir then
      let d := g.dinode dp
      g.setDisk (g.itable dp).inum { d with nlink := i16 (d.nlink - 1) }
    else g
  let g := iput g dp
  let d := g.dinode ip
  iput (g.setDisk (g.itable ip).inum
    { d with nlink := i16 (d.nlink - 1) }) ip

/-- sys_unlink on the directory `dp`, once it is locked. -/
def unlinkIn (g : Glob) (dp : Nat) (name : List UInt8) : Except Panic (Nat × Glob) := do
  if cutName name = [46] ∨ cutName name = [46, 46] then
    pure (minusOne, iput g dp)
  else
    match ← dirlookup g dp name with
    | (none, g) => pure (minusOne, iput g dp)
    | (some (ip, off), g) =>
      let g ← ilock g ip
      if (g.dinode ip).nlink < 1 then throw .unlinkNlink
      else if (g.dinode ip).type = .dir ∧ isdirempty (g.dinode ip) = false
        then pure (minusOne, iput (iput g ip) dp)
      else if (g.dinode ip).type = .dir ∧ direntsWhole (g.dinode ip) = false then throw .dirRead
      else
        let (n, g) := writei g dp (fun _ => 0) off direntSize 0
        if n ≠ direntSize then throw .unlinkWritei
        else pure (0, unlinkDrop g dp ip)

/-- `sys_unlink`. -/
def sysUnlink (p : Proc) (g : Glob) (path : Option (List UInt8)) :
    Except Panic (Nat × Proc × Glob) :=
  match path with
  | none => .ok (minusOne, p, g)
  | some path => do
    match ← namex g p.cwd path true with
    | (none, _, g) => pure (minusOne, p, g)
    | (some dp, name, g) =>
      let g ← ilock g dp
      let (r, g) ← unlinkIn g dp name
      pure (r, p, g)

/-- The bytes of a descriptor number that copyout delivers. -/
def fdByte (fd i : Nat) : UInt8 := UInt8.ofNat (fd / 256 ^ i)

/-- sys_pipe's error exit: close both files. -/
def pipeFail (p : Proc) (g : Glob) (rf wf : Nat) : Except Panic (Nat × Proc × Glob) := do
  let g ← fileclose g rf
  let g ← fileclose g wf
  pure (minusOne, p, g)

/-- `sys_pipe`. -/
def sysPipe (p : Proc) (g : Glob) (fdarray : Nat) : Except Panic (Nat × Proc × Glob) := do
  match ← pipealloc g with
  | (none, g) => pure (minusOne, p, g)
  | (some (rf, wf), g) =>
    match fdalloc p rf with
    | none => pipeFail p g rf wf
    | some (fd0, p0) =>
      match fdalloc p0 wf with
      | none => pipeFail (p0.setOfile fd0 none) g rf wf
      | some (fd1, p1) =>
        let (ok, p2, g) ← copyout p1 g fdarray (fdByte fd0) 4
        let (ok, p2, g) ← (if ok then
            copyout p2 g (u64 (fdarray + 4)) (fdByte fd1) 4
          else pure (false, p2, g))
        if ok then pure (0, p2, g)
        else pipeFail ((p2.setOfile fd0 none).setOfile fd1 none) g rf wf

end Xv6Labs.Model
