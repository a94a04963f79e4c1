/-
Open files and inodes: file.c's reference counting, the inode table of
fs.c, and reading and writing file bytes.

Every function is the source's, on the shared state. `iunlock` is not
here: the operations run one at a time, so a lock taken by `ilock` is
always free again, and unlock's own checks repeat ilock's. `begin_op` and
`end_op` bracket transactions of the log, which is below this model.
-/
import Xv6Labs.Model.State

namespace Xv6Labs.Model

open Lib

-- == inode table

/-- `iget`: the slot that holds `(dev, inum)`, with one more reference,
or the first free slot, recycled. -/
def iget (g : Glob) (dev inum : Nat) : Except Panic (Nat × Glob) :=
  match (List.range ninode).find? fun i =>
      0 < (g.itable i).ref ∧ (g.itable i).dev = dev ∧ (g.itable i).inum = inum with
  | some i =>
    let nd := g.itable i
    .ok (i, g.setInode i { nd with ref := nd.ref + 1 })
  | none =>
    match (List.range ninode).find? fun i => (g.itable i).ref = 0 with
    | none => .error .iget
    | some i => .ok (i, g.setInode i ⟨dev, inum, 1, false⟩)

/-- `idup`. -/
def idup (g : Glob) (ip : Nat) : Glob :=
  let nd := g.itable ip
  g.setInode ip { nd with ref := nd.ref + 1 }

/-- `ilock`: the first use of a slot reads the disk, and an inode that is
free there panics. -/
def ilock (g : Glob) (ip : Nat) : Except Panic Glob :=
  let nd := g.itable ip
  if nd.ref < 1 then .error .ilock
  else if nd.valid then .ok g
  else if (g.dinode ip).type = .free then .error .ilockType
  else .ok (g.setInode ip { nd with valid := true })

/-- `itrunc`: discard the content. -/
def itrunc (g : Glob) (ip : Nat) : Glob :=
  g.setDisk (g.itable ip).inum
    { g.dinode ip with size := 0, data := fun _ => 0 }

/-- `iput`: drop one reference; the last one to an inode without links
frees it on the disk. -/
def iput (g : Glob) (ip : Nat) : Glob :=
  let nd := g.itable ip
  if nd.ref = 1 ∧ nd.valid = true ∧ (g.dinode ip).nlink = 0 then
    let g := itrunc g ip
    let g := g.setDisk nd.inum { g.dinode ip with type := .free }
    g.setInode ip { nd with valid := false, ref := nd.ref - 1 }
  else g.setInode ip { nd with ref := nd.ref - 1 }

-- == file bytes

/-- How many bytes `readi` delivers for `n` bytes at `off`, both `uint`. -/
def readLen (size off n : Nat) : Nat :=
  if size < off ∨ u32 (off + n) < off then 0
  else if size < off + n then size - off
  else n

/-- `readi` to a kernel address: the count, and the memory after it. The
offset is a `uint`, so a caller's 64-bit offset is cut to 32 bits. -/
def readi (g : Glob) (ip : Nat) (dst off n : Nat) : Nat × Glob :=
  let d := g.dinode ip
  let off := u32 off
  let n := readLen d.size off n
  (n, g.setMem (memput g.phys.mem dst n fun k => d.data (off + k)))

/-- `readi` into a kernel object: the bytes it delivers. -/
def readiObj (g : Glob) (ip : Nat) (off n : Nat) : List UInt8 :=
  let d := g.dinode ip
  (List.range (readLen d.size (u32 off) n)).map fun k => d.data (u32 off + k)

/-- How many of `n` bytes at `off` writei can store when the disk has
`room` bytes of free blocks left: a write stops at the end of the last
block it can get. -/
def writeLen (size off n room : Nat) : Nat := min n ((size + 1023) / bsize * bsize + room - off)

/-- `writei` from a kernel object: -1, or the number of bytes written,
with the new content and size. -/
def writei (g : Glob) (ip : Nat) (src : Nat → UInt8) (off n room : Nat) : Int × Glob :=
  let d := g.dinode ip
  let off := u32 off
  if d.size < off ∨ u32 (off + n) < off then (-1, g)
  else if maxFile * bsize < off + n then (-1, g)
  else
    let tot := writeLen d.size off n room
    (tot, g.setDisk (g.itable ip).inum
      { d with size := max d.size (off + tot), data := memput d.data off tot src })

-- == file table

/-- `filealloc`: the first free entry, with one reference. -/
def filealloc (g : Glob) : Option (Nat × Glob) :=
  match (List.range nfile).find? fun f => (g.ftable f).ref = 0 with
  | none => none
  | some f => some (f, g.setFile f { g.ftable f with ref := 1 })

/-- `filedup`. -/
def filedup (g : Glob) (f : Nat) : Except Panic Glob :=
  let fl := g.ftable f
  if fl.ref < 1 then .error .filedup
  else .ok (g.setFile f { fl with ref := fl.ref + 1 })

/-- `pipeclose`. -/
def pipeclose (g : Glob) (pi : Nat) (writable : Bool) : Except Panic Glob :=
  let q := g.pipes pi
  let q := if writable then { q with writeopen := false } else { q with readopen := false }
  let g := { g with pipes := fun a => if a = pi then q else g.pipes a }
  if q.readopen = false ∧ q.writeopen = false then do
    let ph ← kfree g.phys pi
    pure { g with phys := ph }
  else .ok g

/-- `fileclose`: drop one reference; the last one closes the pipe end or
drops the inode. -/
def fileclose (g : Glob) (f : Nat) : Except Panic Glob :=
  let fl := g.ftable f
  if fl.ref < 1 then .error .fileclose
  else if 0 < fl.ref - 1 then .ok (g.setFile f { fl with ref := fl.ref - 1 })
  else
    let g := g.setFile f { fl with ref := 0, type := .none }
    match fl.type, fl.ip with
    | .pipe, _ => pipeclose g fl.pipe fl.writable
    | .inode, some ip => .ok (iput g ip)
    | .device, some ip => .ok (iput g ip)
    | .inode, none => .error .undefined
    | .device, none => .error .undefined
    | .none, _ => .ok g

/-- `pipealloc`: two files on a new pipe, or nothing. -/
def pipealloc (g : Glob) : Except Panic (Option (Nat × Nat) × Glob) :=
  match filealloc g with
  | none => .ok (none, g)
  | some (f0, g) =>
    match filealloc g with
    | none => do
      let g ← fileclose g f0
      pure (none, g)
    | some (f1, g) =>
      match kalloc g.phys with
      | (none, ph) => do
        let g ← fileclose { g with phys := ph } f0
        let g ← fileclose g f1
        pure (none, g)
      | (some pi, ph) =>
        let g := { g with
          phys := ph,
          pipes := fun a => if a = pi then ⟨true, true⟩ else g.pipes a }
        let g := g.setFile f0 { g.ftable f0 with
          type := .pipe, readable := true, writable := false, pipe := pi }
        let g := g.setFile f1 { g.ftable f1 with
          type := .pipe, readable := false, writable := true, pipe := pi }
        .ok (some (f0, f1), g)

end Xv6Labs.Model
