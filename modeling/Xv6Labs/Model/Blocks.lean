/-
Files in blocks: `balloc`, `bmap` and `writei` of fs.c.

`Model.File` has files as byte arrays. Here is the level below it: an
inode with the block numbers of `addrs`, an indirect block that is read
and written as an array of 32-bit words, and a free map of which the
allocator takes the first free block. A block is what bread shows, the
buffer in the cache. `log` lists the blocks that log_write was called on.

The free map and the inodes of the disk are decoded: `inuse` has the bits
of the bitmap blocks and `dinode` the inodes of the inode blocks. bread
and brelse do nothing here but give access to a block.
-/
import Xv6Labs.Model.Machine

namespace Xv6Labs.Model.Blocks

open Lib

/-- Direct blocks of an inode (fs.h). -/
abbrev ndirect : Nat := 12

/-- Entries of an indirect block (fs.h). -/
abbrev nindirect : Nat := bsize / 4

/-- Bits of a bitmap block (fs.h). -/
abbrev bpb : Nat := bsize * 8

/-- Inodes of an inode block (fs.h): a dinode has 64 bytes. -/
abbrev ipb : Nat := bsize / 64

inductive Panic where
  /-- "bmap: out of range" -/
  | bmap
deriving DecidableEq, Repr

/-- The part of `struct inode` that says where the content is. -/
structure Ino where
  inum : Nat
  size : Nat
  addrs : Nat → Nat

def Ino.setAddr (ip : Ino) (i a : Nat) : Ino :=
  { ip with addrs := fun j => if j = i then a else ip.addrs j }

/-- The disk through the buffer cache. `size` is the `uint` of the
superblock. -/
structure Store where
  size : Nat
  size_lt : size < 2 ^ 32
  inodestart : Nat
  bmapstart : Nat
  inuse : Nat → Bool
  block : Nat → Nat → UInt8
  dinode : Nat → Ino
  log : List Nat

/-- `log_write`. -/
def Store.logWrite (s : Store) (b : Nat) : Store :=
  { s with log := s.log ++ [b] }

/-- Change the buffer of a block. -/
def Store.setBlock (s : Store) (b : Nat) (c : Nat → UInt8) : Store :=
  { s with block := fun j => if j = b then c else s.block j }

-- == words of an indirect block

/-- `a[i]` of the `uint` array in a block. -/
def load32 (c : Nat → UInt8) (i : Nat) : Nat :=
  (c (4 * i)).toNat + 256 * ((c (4 * i + 1)).toNat
    + 256 * ((c (4 * i + 2)).toNat + 256 * (c (4 * i + 3)).toNat))

/-- `a[i] = v`. -/
def store32 (c : Nat → UInt8) (i v : Nat) : Nat → UInt8 :=
  memput c (4 * i) 4 fun j => UInt8.ofNat (v / 256 ^ j)

/-- The entry `i` of the indirect block `ind` set, and the block logged. -/
def Store.setEntry (s : Store) (ind i a : Nat) : Store :=
  (s.setBlock ind (store32 (s.block ind) i a)).logWrite ind

-- == blocks

/-- `bzero`. -/
def bzero (s : Store) (b : Nat) : Store := (s.setBlock b fun _ => 0).logWrite b

/-- `BBLOCK`: the bitmap block of `b`. balloc's `b` is an `int`, negative
from 2^31 on. -/
def bblock (s : Store) (b : Nat) : Nat :=
  let first : Int := ((b / bpb * bpb : Nat) : Int).bmod (2 ^ 32)
  ((first.tdiv bpb + s.bmapstart) % 2 ^ 32).toNat

/-- What balloc does to the free block that it has found. -/
def Store.take (s : Store) (b : Nat) : Store :=
  let s := { s with inuse := fun j => if j = b then true else s.inuse j }
  bzero (s.logWrite (bblock s b)) b

/-- `balloc`: the first block that is free, zeroed, or 0. A free block 0
is taken too, and looks like a failure. -/
def balloc (s : Store) : Nat × Store :=
  match (List.range s.size).find? fun b => s.inuse b = false with
  | none => (0, s)
  | some b => (b, s.take b)

/-- bmap on a slot of `addrs`: the block there, or a new one. -/
def addrAt (s : Store) (ip : Ino) (i : Nat) : Nat × Store × Ino :=
  if ip.addrs i = 0 then
    let (a, s) := balloc s
    (a, s, if a = 0 then ip else ip.setAddr i a)
  else (ip.addrs i, s, ip)

/-- bmap on an entry of the indirect block `ind`. -/
def entryAt (s : Store) (ind i : Nat) : Nat × Store :=
  let a := load32 (s.block ind) i
  if a = 0 then
    let (a, s) := balloc s
    (a, if a = 0 then s else s.setEntry ind i a)
  else (a, s)

/-- `bmap`: the block of number `bn` of the file, allocated if need be; 0
when there is none. -/
def bmap (s : Store) (ip : Ino) (bn : Nat) : Except Panic (Nat × Store × Ino) :=
  if bn < ndirect then .ok (addrAt s ip bn)
  else if bn - ndirect < nindirect then
    let (ind, s, ip) := addrAt s ip ndirect
    if ind = 0 then .ok (0, s, ip)
    else
      let (a, s) := entryAt s ind (bn - ndirect)
      .ok (a, s, ip)
  else .error .bmap

/-- `iupdate`. -/
def iupdate (s : Store) (ip : Ino) : Store :=
  { s with dinode := fun i => if i = ip.inum then ip else s.dinode i }.logWrite
    (ip.inum / ipb + s.inodestart)

-- == writei

/-- Turns of the loop of writei: the blocks that `n` bytes from
`off` on lie in. -/
def blocksIn (off n : Nat) : Nat := if n = 0 then 0 else (off % bsize + n + (bsize - 1)) / bsize

/-- One turn of writei's loop, with the bytes written so far: `.inr` is
its `break`. The source can be read up to byte `good`, so either_copyin
has changed the buffer up to there when it fails. -/
def writeTurn (src : Nat → UInt8) (good off n : Nat) (_k : Nat)
    (w : Nat × Store × Ino) :
    Except Panic ((Nat × Store × Ino) ⊕ (Nat × Store × Ino)) := do
  let (tot, s, ip) := w
  let pos := off + tot
  let (addr, s, ip) ← bmap s ip (pos / bsize)
  if addr = 0 then pure (.inr (tot, s, ip))
  else
    let m := min (n - tot) (bsize - pos % bsize)
    let c := min m (good - tot)
    let s := s.setBlock addr (memput (s.block addr) (pos % bsize) c fun i => src (tot + i))
    if c < m then pure (.inr (tot, s, ip))
    else pure (.inl (tot + m, s.logWrite addr, ip))

/-- `writei`: the count, or -1. -/
def writei (s : Store) (ip : Ino) (src : Nat → UInt8) (good : Nat)
    (off n : UInt32) : Except Panic (Int × Store × Ino) :=
  if ip.size < off.toNat ∨ off + n < off then .ok (-1, s, ip)
  else if maxFile * bsize < (off + n).toNat then .ok (-1, s, ip)
  else do
    let w ← forRet (writeTurn src good off.toNat n.toNat) (blocksIn off.toNat n.toNat) (0, s, ip)
    let (tot, s, ip) := w.elim id id
    let ip := if ip.size < off.toNat + tot then
      { ip with size := off.toNat + tot } else ip
    pure (tot, iupdate s ip, ip)

end Xv6Labs.Model.Blocks
