/-
The file-system calls with their locks and transactions (fs.c, file.c,
sysfile.c, exec.c, proc.c).

The modules on files and names leave `iunlock`, `begin_op` and `end_op`
out. Here each call is written again with every one of them in the place
the source has it, over the functions of those modules: `Fs` adds the
sleep locks of the inode table and `log.outstanding` to the shared state.

# Calls that do not come back

The calls run one at a time, so a lock that is taken was taken by the
same call: acquiresleep on it sleeps for ever. `Halt` has that case next
to the panics. begin_op never sleeps here: the log is empty and not
committing whenever a call starts.
-/
import Xv6Labs.Model.Links

namespace Xv6Labs.Model

open Lib

/-- Why a call does not come back. -/
inductive Halt where
  | panic (e : Panic)
  /-- "iunlock" -/
  | iunlock
  /-- the call sleeps on a lock that it holds -/
  | asleep

/-- A part of a call that can only panic. -/
def orPanic {α : Type} : Except Panic α → Except Halt α
  | .ok a => .ok a
  | .error e => .error (.panic e)

/-- The shared state with the locks of the inode table, `ip->lock.locked`,
and the transactions that are open, `log.outstanding`. -/
structure Fs where
  glob : Glob
  locked : Nat → Bool
  outstanding : Int

namespace Fs

/-- Set one lock. -/
def setLock (s : Fs) (ip : Nat) (b : Bool) : Fs :=
  { s with locked := Function.update s.locked ip b }

-- == locks, transactions

/-- `begin_op`. -/
def beginOp (s : Fs) : Fs := { s with outstanding := s.outstanding + 1 }

/-- `end_op`. -/
def endOp (s : Fs) : Fs := { s with outstanding := s.outstanding - 1 }

/-- `ilock`. -/
def ilock (s : Fs) (ip : Nat) : Except Halt Fs :=
  if (s.glob.itable ip).ref < 1 then .error (.panic .ilock)
  else if s.locked ip then .error .asleep
  else do
    let glob ← orPanic (Model.ilock s.glob ip)
    pure ({ s with glob }.setLock ip true)

/-- `iunlock`. -/
def iunlock (s : Fs) (ip : Nat) : Except Halt Fs :=
  if s.locked ip = false ∨ (s.glob.itable ip).ref < 1 then .error .iunlock
  else .ok (s.setLock ip false)

/-- `iput`: it holds the lock only while it frees the inode. -/
def iput (s : Fs) (ip : Nat) : Except Halt Fs :=
  let nd := s.glob.itable ip
  if nd.ref = 1 ∧ nd.valid = true ∧ (s.glob.dinode ip).nlink = 0
      ∧ s.locked ip = true then .error .asleep
  else .ok { s with glob := Model.iput s.glob ip }

/-- `iunlockput`. -/
def iunlockput (s : Fs) (ip : Nat) : Except Halt Fs := do
  let s ← s.iunlock ip
  s.iput ip

/-- A call on the shared state that takes no lock and opens no
transaction. -/
def run {α : Type} (s : Fs) (r : Except Panic (α × Glob)) : Except Halt (α × Fs) := do
  let (a, glob) ← orPanic r
  pure (a, { s with glob })

/-- iupdate with another link count. -/
def setNlink (s : Fs) (ip : Nat) (nlink : Int) : Fs :=
  let glob := s.glob.setDisk (s.glob.itable ip).inum
    { s.glob.dinode ip with nlink }
  { s with glob }

-- == names

/-- `dirlink`. -/
def dirlink (s : Fs) (dp : Nat) (name : List UInt8) (inum room : Nat) :
    Except Halt (Bool × Fs) := do
  match ← s.run (dirlookup s.glob dp name) with
  | (some (ip, _), s) =>
    let s ← s.iput ip
    pure (false, s)
  | (none, s) =>
    let (n, glob) := writei s.glob dp (direntByte inum name)
      (freeDirent (s.glob.dinode dp)) direntSize room
    pure (decide (n = direntSize), { s with glob })

/-- namex's loop. -/
def namexLoop (parent : Bool) :
    List (List UInt8) → List UInt8 → Nat → Fs → Except Halt (Option Nat × List UInt8 × Fs)
  | [], last, ip, s => do
    if parent then
      let s ← s.iput ip
      pure (none, last, s)
    else pure (some ip, last, s)
  | name :: rest, _, ip, s => do
    let s ← s.ilock ip
    if (s.glob.dinode ip).type ≠ .dir then
      let s ← s.iunlockput ip
      pure (none, name, s)
    else if parent && rest.isEmpty then
      let s ← s.iunlock ip
      pure (some ip, name, s)
    else
      match ← s.run (dirlookup s.glob ip name) with
      | (none, s) =>
        let s ← s.iunlockput ip
        pure (none, name, s)
      | (some (next, _), s) =>
        let s ← s.iunlockput ip
        namexLoop parent rest name next s

/-- `namex`. -/
def namex (s : Fs) (cwd : Option Nat) (path : List UInt8) (parent : Bool) :
    Except Halt (Option Nat × List UInt8 × Fs) :=
  if path.head? = some 47 then do
    let (ip, s) ← s.run (iget s.glob 1 1)
    namexLoop parent (pathElems path) [] ip s
  else
    match cwd with
    | none => .error (.panic .undefined)
    | some c =>
      namexLoop parent (pathElems path) [] c
        { s with glob := idup s.glob c }

/-- `namei`. -/
def namei (s : Fs) (cwd : Option Nat) (path : List UInt8) : Except Halt (Option Nat × Fs) := do
  let (ip, _, s) ← s.namex cwd path false
  pure (ip, s)

-- == create

/-- The "." and ".." entries of a new directory. -/
def createDots (s : Fs) (dp ip room : Nat) : Except Halt (Bool × Fs) := do
  let (ok, s) ← s.dirlink ip [46] (s.glob.itable ip).inum room
  if ok then s.dirlink ip [46, 46] (s.glob.itable dp).inum room
  else pure (false, s)

/-- create's last part, with both inodes locked; its success keeps the
lock of the new inode. -/
def createLink (s : Fs) (dp ip : Nat) (name : List UInt8) (type : IType)
    (room : Nat) : Except Halt (Option Nat × Fs) := do
  let inum := (s.glob.itable ip).inum
  let (ok, s) ← (if type = .dir then s.createDots dp ip room else pure (true, s))
  let room := if type = .dir then room - bsize else room
  let (ok, s) ← (if ok then s.dirlink dp name inum room else pure (false, s))
  if ok then
    let s := if type = .dir then
        s.setNlink dp (i16 ((s.glob.dinode dp).nlink + 1))
      else s
    let s ← s.iunlockput dp
    pure (some ip, s)
  else
    let s := s.setNlink ip 0
    let s ← s.iunlockput ip
    let s ← s.iunlockput dp
    pure (none, s)

/-- `create`. -/
def create (s : Fs) (cwd : Option Nat) (path : List UInt8) (type : IType)
    (major minor : Int) (room : Nat) : Except Halt (Option Nat × Fs) := do
  match ← s.namex cwd path true with
  | (none, _, s) => pure (none, s)
  | (some dp, name, s) =>
    let s ← s.ilock dp
    match ← s.run (dirlookup s.glob dp name) with
    | (some (ip, _), s) =>
      let s ← s.iunlockput dp
      let s ← s.ilock ip
      if type = .file ∧ ((s.glob.dinode ip).type = .file
          ∨ (s.glob.dinode ip).type = .device) then pure (some ip, s)
      else
        let s ← s.iunlockput ip
        pure (none, s)
    | (none, s) =>
      match ← s.run (ialloc s.glob (s.glob.itable dp).dev type) with
      | (none, s) =>
        let s ← s.iunlockput dp
        pure (none, s)
      | (some ip, s) =>
        let s ← s.ilock ip
        let glob := s.glob.setDisk (s.glob.itable ip).inum
          { s.glob.dinode ip with major, minor, nlink := 1 }
        createLink { s with glob } dp ip name type room

-- == open, close

/-- `fileclose`. -/
def fileclose (s : Fs) (f : Nat) : Except Halt Fs :=
  let fl := s.glob.ftable f
  if fl.ref < 1 then .error (.panic .fileclose)
  else if 0 < fl.ref - 1 then
    .ok { s with glob := s.glob.setFile f { fl with ref := fl.ref - 1 } }
  else
    let s := { s with
      glob := s.glob.setFile f { fl with ref := 0, type := .none } }
    match fl.type, fl.ip with
    | .pipe, _ => do
      let glob ← orPanic (pipeclose s.glob fl.pipe fl.writable)
      pure { s with glob }
    | .inode, some ip => do
      let s ← s.beginOp.iput ip
      pure s.endOp
    | .device, some ip => do
      let s ← s.beginOp.iput ip
      pure s.endOp
    | .inode, none => .error (.panic .undefined)
    | .device, none => .error (.panic .undefined)
    | .none, _ => .ok s

/-- `sys_dup`. -/
def sysDup (p : Proc) (s : Fs) (fd : Int) : Except Halt (Nat × Proc × Fs) := do
  let (r, p, glob) ← orPanic (Model.sysDup p s.glob fd)
  pure (r, p, { s with glob })

/-- `sys_close`. -/
def sysClose (p : Proc) (s : Fs) (fd : Int) : Except Halt (Nat × Proc × Fs) :=
  match argfd p fd with
  | none => .ok (minusOne, p, s)
  | some f => do
    let s ← s.fileclose f
    pure (0, p.setOfile fd.toNat none, s)

/-- sys_open's first part: the inode to open, locked and referenced. -/
def openInode (s : Fs) (cwd : Option Nat) (path : List UInt8)
    (omode : UInt32) (room : Nat) : Except Halt (Option Nat × Fs) :=
  if hasBit omode oCreate then s.create cwd path .file 0 0 room
  else do
    match ← s.namei cwd path with
    | (none, s) => pure (none, s)
    | (some ip, s) =>
      let s ← s.ilock ip
      if (s.glob.dinode ip).type = .dir ∧ omode ≠ 0 then
        let s ← s.iunlockput ip
        pure (none, s)
      else pure (some ip, s)

/-- sys_open once it holds the inode. -/
def openLocked (p : Proc) (s : Fs) (ip : Nat) (omode : UInt32) : Except Halt (Nat × Proc × Fs) := do
  let d := s.glob.dinode ip
  if d.type = .device ∧ (d.major < 0 ∨ (ndev : Int) ≤ d.major) then
    let s ← s.iunlockput ip
    pure (minusOne, p, s.endOp)
  else
    match filealloc s.glob with
    | none =>
      let s ← s.iunlockput ip
      pure (minusOne, p, s.endOp)
    | some (f, glob) =>
      let s := { s with glob }
      match fdalloc p f with
      | none =>
        let s ← s.fileclose f
        let s ← s.iunlockput ip
        pure (minusOne, p, s.endOp)
      | some (fd, p) =>
        let glob := s.glob.setFile f (openFile (s.glob.ftable f) d ip omode)
        let glob := if hasBit omode oTrunc ∧ d.type = .file then itrunc glob ip else glob
        let s ← { s with glob }.iunlock ip
        pure (fd, p, s.endOp)

/-- `sys_open`. -/
def sysOpen (p : Proc) (s : Fs) (path : Option (List UInt8))
    (omode : UInt32) (room : Nat) : Except Halt (Nat × Proc × Fs) :=
  match path with
  | none => .ok (minusOne, p, s)
  | some path => do
    match ← s.beginOp.openInode p.cwd path omode room with
    | (none, s) => pure (minusOne, p, s.endOp)
    | (some ip, s) => openLocked p s ip omode

-- == link, unlink

/-- sys_link's label `bad`. -/
def linkBad (s : Fs) (ip : Nat) : Except Halt Fs := do
  let s ← s.ilock ip
  let s := s.setNlink ip (i16 ((s.glob.dinode ip).nlink - 1))
  let s ← s.iunlockput ip
  pure s.endOp

/-- sys_link once the new link is counted. -/
def linkNew (s : Fs) (cwd : Option Nat) (ip : Nat) (new : List UInt8)
    (room : Nat) : Except Halt (Nat × Fs) := do
  match ← s.namex cwd new true with
  | (none, _, s) =>
    let s ← s.linkBad ip
    pure (minusOne, s)
  | (some dp, name, s) =>
    let s ← s.ilock dp
    let (ok, s) ← (if (s.glob.itable dp).dev ≠ (s.glob.itable ip).dev
      then pure (false, s)
      else s.dirlink dp name (s.glob.itable ip).inum room)
    let s ← s.iunlockput dp
    if ok then
      let s ← s.iput ip
      pure (0, s.endOp)
    else
      let s ← s.linkBad ip
      pure (minusOne, s)

/-- sys_link on the inode of the old name, once it is locked. -/
def linkIp (s : Fs) (cwd : Option Nat) (ip : Nat) (new : List UInt8)
    (room : Nat) : Except Halt (Nat × Fs) := do
  let d := s.glob.dinode ip
  if d.type = .dir then
    let s ← s.iunlockput ip
    pure (minusOne, s.endOp)
  else
    let s ← (s.setNlink ip (i16 (d.nlink + 1))).iunlock ip
    s.linkNew cwd ip new room

/-- `sys_link`. -/
def sysLink (p : Proc) (s : Fs) (old new : Option (List UInt8))
    (room : Nat) : Except Halt (Nat × Proc × Fs) :=
  match old, new with
  | some old, some new => do
    match ← s.beginOp.namei p.cwd old with
    | (none, s) => pure (minusOne, p, s.endOp)
    | (some ip, s) =>
      let s ← s.ilock ip
      let (r, s) ← s.linkIp p.cwd ip new room
      pure (r, p, s)
  | _, _ => .ok (minusOne, p, s)

/-- sys_unlink once the entry is erased. -/
def unlinkDrop (s : Fs) (dp ip : Nat) : Except Halt Fs := do
  let s := if (s.glob.dinode ip).type = .dir then
      s.setNlink dp (i16 ((s.glob.dinode dp).nlink - 1))
    else s
  let s ← s.iunlockput dp
  let s := s.setNlink ip (i16 ((s.glob.dinode ip).nlink - 1))
  s.iunlockput ip

/-- sys_unlink on the directory `dp`, once it is locked. -/
def unlinkIn (s : Fs) (dp : Nat) (name : List UInt8) : Except Halt (Nat × Fs) := do
  if cutName name = [46] ∨ cutName name = [46, 46] then
    let s ← s.iunlockput dp
    pure (minusOne, s.endOp)
  else
    match ← s.run (dirlookup s.glob dp name) with
    | (none, s) =>
      let s ← s.iunlockput dp
      pure (minusOne, s.endOp)
    | (some (ip, off), s) =>
      let s ← s.ilock ip
      if (s.glob.dinode ip).nlink < 1 then throw (.panic .unlinkNlink)
      else if (s.glob.dinode ip).type = .dir ∧ isdirempty (s.glob.dinode ip) = false then
        let s ← s.iunlockput ip
        let s ← s.iunlockput dp
        pure (minusOne, s.endOp)
      else if (s.glob.dinode ip).type = .dir ∧ direntsWhole (s.glob.dinode ip) = false then
        throw (.panic .dirRead)
      else
        let (n, glob) := writei s.glob dp (fun _ => 0) off direntSize 0
        if n ≠ direntSize then throw (.panic .unlinkWritei)
        else
          let s ← { s with glob }.unlinkDrop dp ip
          pure (0, s.endOp)

/-- `sys_unlink`. -/
def sysUnlink (p : Proc) (s : Fs) (path : Option (List UInt8)) : Except Halt (Nat × Proc × Fs) :=
  match path with
  | none => .ok (minusOne, p, s)
  | some path => do
    match ← s.beginOp.namex p.cwd path true with
    | (none, _, s) => pure (minusOne, p, s.endOp)
    | (some dp, name, s) =>
      let s ← s.ilock dp
      let (r, s) ← s.unlinkIn dp name
      pure (r, p, s)

-- == mkdir, mknod, chdir

/-- sys_mkdir and sys_mknod: both open the transaction before they fetch
the path. -/
def sysCreate (p : Proc) (s : Fs) (path : Option (List UInt8))
    (type : IType) (major minor : Int) (room : Nat) :
    Except Halt (Nat × Proc × Fs) :=
  let s := s.beginOp
  match path with
  | none => .ok (minusOne, p, s.endOp)
  | some path => do
    match ← s.create p.cwd path type major minor room with
    | (none, s) => pure (minusOne, p, s.endOp)
    | (some ip, s) =>
      let s ← s.iunlockput ip
      pure (0, p, s.endOp)

/-- `sys_mkdir`. -/
def sysMkdir (p : Proc) (s : Fs) (path : Option (List UInt8))
    (room : Nat) : Except Halt (Nat × Proc × Fs) :=
  sysCreate p s path .dir 0 0 room

/-- `sys_mknod`. -/
def sysMknod (p : Proc) (s : Fs) (path : Option (List UInt8))
    (major minor : Int) (room : Nat) : Except Halt (Nat × Proc × Fs) :=
  sysCreate p s path .device (i16 major) (i16 minor) room

/-- `sys_chdir`. -/
def sysChdir (p : Proc) (s : Fs) (path : Option (List UInt8)) : Except Halt (Nat × Proc × Fs) :=
  let s := s.beginOp
  match path with
  | none => .ok (minusOne, p, s.endOp)
  | some path => do
    match ← s.namei p.cwd path with
    | (none, s) => pure (minusOne, p, s.endOp)
    | (some ip, s) =>
      let s ← s.ilock ip
      if (s.glob.dinode ip).type ≠ .dir then
        let s ← s.iunlockput ip
        pure (minusOne, p, s.endOp)
      else
        let s ← s.iunlock ip
        match p.cwd with
        | none => throw (.panic .undefined)
        | some c =>
          let s ← s.iput c
          pure (0, { p with cwd := some ip }, s.endOp)

-- == exec, exit

/-- kexec once it has read a good ELF header, up to its commit point. -/
def execLoad (p : Proc) (s : Fs) (ip : Nat) (elf : List UInt8)
    (argv : List (List UInt8)) : Except Halt (Option Image × Fs) := do
  match ← orPanic (procPagetable s.glob.phys p.trapframe) with
  | (none, phys) =>
    let s ← { s with glob := { s.glob with phys } }.iunlockput ip
    pure (none, s.endOp)
  | (some pt, phys) =>
    match ← orPanic (forRet (execSeg ip (leField elf 32 8))
        (leField elf 56 2) (0, pt, { s.glob with phys })) with
    | .inr (sz, pt, g) =>
      let phys ← orPanic (procFreepagetable pt g.phys sz)
      let s ← { s with glob := { g with phys } }.iunlockput ip
      pure (none, s.endOp)
    | .inl (sz, pt, g) =>
      let s ← { s with glob := g }.iunlockput ip
      let s := s.endOp
      match ← orPanic (execStack p s.glob pt sz (leField elf 24 8) argv) with
      | (none, sz, pt, g) =>
        let phys ← orPanic (procFreepagetable pt g.phys sz)
        pure (none, { s with glob := { g with phys } })
      | (some img, _, _, g) => pure (some img, { s with glob := g })

/-- kexec up to its commit point. -/
def execBuild (p : Proc) (s : Fs) (path : List UInt8)
    (argv : List (List UInt8)) : Except Halt (Option Image × Fs) := do
  match ← s.beginOp.namei p.cwd path with
  | (none, s) => pure (none, s.endOp)
  | (some ip, s) =>
    let s ← s.ilock ip
    let elf := readiObj s.glob ip 0 64
    if elf.length ≠ 64 ∨ leField elf 0 4 ≠ 0x464C457F then
      let s ← s.iunlockput ip
      pure (none, s.endOp)
    else execLoad p s ip elf argv

/-- `kexec`. -/
def kexec (p : Proc) (s : Fs) (path : List UInt8)
    (argv : List (List UInt8)) : Except Halt (Int × Proc × Fs) := do
  match ← s.execBuild p path argv with
  | (none, s) => pure (-1, p, s)
  | (some img, s) =>
    let (p, glob) ← orPanic (execCommit p s.glob path img)
    pure (img.argc, p, { s with glob })

/-- One turn of kexit's loop over the descriptors. -/
def exitFd (fd : Nat) (t : Proc × Fs) : Except Halt (Proc × Fs) :=
  match t.1.ofile fd with
  | none => .ok t
  | some f => do
    let s ← t.2.fileclose f
    pure (t.1.setOfile fd none, s)

/-- kexit on the process itself. -/
def exitSelf (p : Proc) (s : Fs) (status : Int) : Except Halt (Proc × Fs) := do
  let (p, s) ← forUpto exitFd nofile (p, s)
  match p.cwd with
  | none => throw (.panic .undefined)
  | some c =>
    let s ← s.beginOp.iput c
    let s := s.endOp
    let (p, glob) ← orPanic (forUpto exitVma nvma ({ p with cwd := none }, s.glob))
    pure ({ p with xstate := status, state := .zombie }, { s with glob })

end Fs

-- == steps

/-- The kernel with the locks and the transactions of the file system. -/
structure System where
  kernel : Kernel
  locked : Nat → Bool
  outstanding : Int

namespace System

/-- The shared state that the calls of the file system work on. -/
def fs (y : System) : Fs := ⟨y.kernel.glob, y.locked, y.outstanding⟩

/-- Put back process `i` and the shared state. -/
def put (y : System) (i : Nat) (p : Proc) (s : Fs) : System :=
  ⟨y.kernel.put i (p, s.glob), s.locked, s.outstanding⟩

/-- A call of process `i` that touches only itself and the shared state. -/
def call {α : Type} (y : System) (i : Nat)
    (f : Proc → Fs → Except Halt (α × Proc × Fs)) : Except Halt System := do
  let (_, p, s) ← f (y.kernel.proc i) y.fs
  pure (y.put i p s)

/-- A call on the kernel that uses neither inode locks nor the log. -/
def run {α : Type} (y : System) (r : Except Panic (α × Kernel)) : Except Halt System := do
  let (_, kernel) ← orPanic r
  pure { y with kernel }

/-- `kexit` by the process in slot `i`. -/
def kexit (y : System) (i : Nat) (status : Int) : Except Halt System :=
  if i = y.kernel.initproc then .error (.panic .initExiting)
  else
    let y := { y with kernel := reparent y.kernel i }
    do
      let (p, s) ← y.fs.exitSelf (y.kernel.proc i) status
      pure (y.put i p s)

/-- One call of process `i`. -/
def step (y : System) (i : Nat) : FileCall → Except Halt System
  | .openFile path omode room =>
    y.call i fun p s => Fs.sysOpen p s path omode room
  | .close fd => y.call i fun p s => Fs.sysClose p s fd.toInt
  | .dup fd => y.call i fun p s => Fs.sysDup p s fd.toInt
  | .link old new room => y.call i fun p s => Fs.sysLink p s old new room
  | .unlink path => y.call i fun p s => Fs.sysUnlink p s path
  | .mkdir path room => y.call i fun p s => Fs.sysMkdir p s path room
  | .mknod path major minor room =>
    y.call i fun p s => Fs.sysMknod p s path major.toInt minor.toInt room
  | .chdir path => y.call i fun p s => Fs.sysChdir p s path
  | .fork => y.run (kfork y.kernel i)
  | .exec path argv => y.call i fun p s => Fs.kexec p s path argv
  | .exit status => y.kexit i status.toInt
  | .wait addr => y.run (kwait y.kernel i addr.toNat)

end System

end Xv6Labs.Model
