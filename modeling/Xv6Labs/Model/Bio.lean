/-
The buffer cache of bio.c, and log.c on top of it.

# Users

A user of the cache is one use of one buffer at a time, from bread to
brelse; a process that has two buffers is two users. Between the locked
regions of bget, bread and brelse anyone else may run, so these functions
are cut there, and `Use` says which part comes next.

# The commit

`commit` is the list of the calls that it makes, with bread and brelse cut
as for any other user. Users 0 and 1 are those of the committing process:
0 is `to`, `lbuf` and `buf`, and 1 is `from` and `dbuf`.

# Left out

The LRU list is the list of the buffers from `head.next` on. Reference
counts have no upper bound. The disk driver has one disk and does not look
at a buffer's `dev`. The state starts when initlog has found the log empty.
-/
import Xv6Labs.Model.Log

namespace Xv6Labs.Model.Bio

-- == bio.c

/-- `NBUF` (param.h). -/
def nbuf : Nat := maxOpBlocks * 3

/-- `struct buf`. -/
structure Buf (β : Type) where
  dev : Nat
  blockno : Nat
  valid : Bool
  locked : Bool
  refcnt : Nat
  data : β

/-- `bcache`: the buffers, and their list from the most recently used. -/
structure Bcache (β : Type) where
  buf : Nat → Buf β
  lru : List Nat

variable {β : Type}

/-- Replace one buffer. -/
def Bcache.setBuf (c : Bcache β) (i : Nat) (b : Buf β) : Bcache β :=
  { c with buf := fun j => if j = i then b else c.buf j }

/-- bget's first scan. -/
def Bcache.cached (c : Bcache β) (dev blockno : Nat) : Option Nat :=
  c.lru.find? fun i =>
    (c.buf i).dev = dev ∧ (c.buf i).blockno = blockno

/-- bget's second scan, from the least recently used buffer. -/
def Bcache.unused (c : Bcache β) : Option Nat := c.lru.reverse.find? fun i => (c.buf i).refcnt = 0

/-- `bget` up to its acquiresleep. `none` is "bget: no buffers". -/
def bget (c : Bcache β) (dev blockno : Nat) : Option (Nat × Bcache β) :=
  match c.cached dev blockno with
  | some i => some (i, c.setBuf i
      { c.buf i with refcnt := (c.buf i).refcnt + 1 })
  | none =>
    match c.unused with
    | some i => some (i, c.setBuf i
        { c.buf i with dev, blockno, valid := false, refcnt := 1 })
    | none => none

/-- brelse's second half, under `bcache.lock`. -/
def unref (c : Bcache β) (i : Nat) : Bcache β :=
  let refcnt := (c.buf i).refcnt - 1
  let c := c.setBuf i { c.buf i with refcnt }
  if refcnt = 0 then { c with lru := i :: c.lru.erase i } else c

/-- `bpin`. -/
def bpin (c : Bcache β) (i : Nat) : Bcache β :=
  c.setBuf i { c.buf i with refcnt := (c.buf i).refcnt + 1 }

/-- `bunpin`. -/
def bunpin (c : Bcache β) (i : Nat) : Bcache β :=
  c.setBuf i { c.buf i with refcnt := (c.buf i).refcnt - 1 }

-- == users

/-- Where a user is in its use of block `b` of `dev`, in buffer `i`. -/
inductive Use where
  | idle
  /-- bget has chosen the buffer and sleeps on its lock -/
  | waiting (dev b i : Nat)
  /-- bget has returned -/
  | locked (dev b i : Nat)
  /-- bread has returned; `dirty` if the data was changed and not yet given
  to log_write or bwrite -/
  | held (dev b i : Nat) (dirty : Bool)
  /-- brelse has released the lock -/
  | unlocked (dev b i : Nat)
deriving DecidableEq, Repr

/-- One call of the committing process; `u` is one of its users. -/
inductive Call where
  | bget (u b : Nat)
  | acquire (u : Nat)
  | fill (u : Nat)
  /-- `memmove(dst->data, src->data, BSIZE)` -/
  | memmove (dst src : Nat)
  /-- write_head's stores to `hb` -/
  | header (u : Nat) (lh : List Nat)
  | bwrite (u : Nat)
  | bunpin (u : Nat)
  | unlock (u : Nat)
  | unref (u : Nat)
  /-- `log.lh.n = 0` -/
  | clear
deriving DecidableEq, Repr

/-- The cache, the disk, `struct log`, every user, and the calls that the
committing process has still to make. -/
structure Io (β : Type) where
  cache : Bcache β
  disk : Nat → β
  dev : Nat
  start : Nat
  outstanding : Nat
  committing : Bool
  lh : List Nat
  use : List Use
  todo : List Call

/-- Move a user on, with a change to the cache. -/
def Io.move (s : Io β) (u : Nat) (x : Use) (cache : Bcache β) : Io β :=
  { s with cache, use := s.use.set u x }

/-- Write one block to the disk. -/
def Io.toDisk (s : Io β) (b : Nat) (x : β) : Io β :=
  { s with disk := Function.update s.disk b x }

/-- What a user does next. -/
inductive Act (β : Type) where
  /-- `bget`, up to its acquiresleep -/
  | bget (dev b : Nat)
  /-- acquiresleep, once the lock is free -/
  | acquire
  /-- the rest of bread -/
  | fill
  /-- a store into the buffer's data -/
  | modify (x : β)
  | bwrite
  | logWrite
  /-- brelse up to its releasesleep -/
  | unlock
  /-- the rest of brelse -/
  | unref

/-- `log_write`'s bookkeeping for buffer `i`. -/
def Io.record (s : Io β) (i : Nat) : Io β :=
  if (s.cache.buf i).blockno ∈ s.lh then s
  else { s with cache := bpin s.cache i, lh := s.lh ++ [(s.cache.buf i).blockno] }

/-- A user's next act. `none` is an act that cannot happen now, or a panic.
A buffer that was changed is written before it is released. -/
def Io.act (s : Io β) (u : Nat) (a : Act β) : Option (Io β) :=
  match a, s.use[u]? with
  | .bget dev b, some .idle =>
    (bget s.cache dev b).map fun r => s.move u (.waiting dev b r.1) r.2
  | .acquire, some (.waiting dev b i) =>
    if (s.cache.buf i).locked then none
    else some (s.move u (.locked dev b i) (s.cache.setBuf i { s.cache.buf i with locked := true }))
  | .fill, some (.locked dev b i) =>
    some (s.move u (.held dev b i false)
      (if (s.cache.buf i).valid then s.cache
       else s.cache.setBuf i { s.cache.buf i with
          data := s.disk (s.cache.buf i).blockno, valid := true }))
  | .modify x, some (.held dev b i _) =>
    some (s.move u (.held dev b i true) (s.cache.setBuf i { s.cache.buf i with data := x }))
  | .bwrite, some (.held dev b i _) =>
    some ((s.toDisk (s.cache.buf i).blockno (s.cache.buf i).data).move u
      (.held dev b i false) s.cache)
  | .logWrite, some (.held dev b i _) =>
    if logBlocks ≤ s.lh.length ∨ s.outstanding < 1 then none
    else some ((s.record i).move u (.held dev b i false) (s.record i).cache)
  | .unlock, some (.held dev b i false) =>
    some (s.move u (.unlocked dev b i) (s.cache.setBuf i { s.cache.buf i with locked := false }))
  | .unref, some (.unlocked _ _ i) =>
    some (s.move u .idle (Bio.unref s.cache i))
  | _, _ => none

-- == commit

/-- bread, in its parts. -/
def breadCalls (u b : Nat) : List Call := [.bget u b, .acquire u, .fill u]

/-- brelse, in its parts. -/
def brelseCalls (u : Nat) : List Call := [.unlock u, .unref u]

/-- One turn of write_log. -/
def writeLogTurn (start tail b : Nat) : List Call :=
  breadCalls 0 (start + tail + 1) ++ breadCalls 1 b ++
    [.memmove 0 1, .bwrite 0] ++ brelseCalls 1 ++ brelseCalls 0

/-- `write_log`, from `tail` on. -/
def writeLog (start : Nat) : Nat → List Nat → List Call
  | _, [] => []
  | tail, b :: lh => writeLogTurn start tail b ++ writeLog start (tail + 1) lh

/-- `write_head`. -/
def writeHead (start : Nat) (lh : List Nat) : List Call :=
  breadCalls 0 start ++ [.header 0 lh, .bwrite 0] ++ brelseCalls 0

/-- One turn of `install_trans(0)`. -/
def installTurn (start tail b : Nat) : List Call :=
  breadCalls 0 (start + tail + 1) ++ breadCalls 1 b ++
    [.memmove 1 0, .bwrite 1, .bunpin 1] ++ brelseCalls 0 ++ brelseCalls 1

/-- `install_trans(0)`, from `tail` on. -/
def installTrans (start : Nat) : Nat → List Nat → List Call
  | _, [] => []
  | tail, b :: lh =>
    installTurn start tail b ++ installTrans start (tail + 1) lh

/-- `commit`. -/
def commit (start : Nat) (lh : List Nat) : List Call :=
  if 0 < lh.length then
    writeLog start 0 lh ++ writeHead start lh ++ installTrans start 0 lh ++
      [.clear] ++ writeHead start []
  else []

/-- The data in the hands of a user. -/
def Io.inHand (s : Io β) (u : Nat) : Option (Nat × β) :=
  match s.use[u]? with
  | some (.held _ _ i _) =>
    some ((s.cache.buf i).blockno, (s.cache.buf i).data)
  | _ => none

/-- A call of the committing process. -/
def Io.call (h : HeadCodec β) (s : Io β) : Call → Option (Io β)
  | .bget u b => s.act u (.bget s.dev b)
  | .acquire u => s.act u .acquire
  | .fill u => s.act u .fill
  | .memmove dst src =>
    (s.inHand src).bind fun d => s.act dst (.modify d.2)
  | .header u lh =>
    (s.inHand u).bind fun d => s.act u (.modify (h.put d.2 lh))
  | .bwrite u => s.act u .bwrite
  | .bunpin u =>
    match s.use[u]? with
    | some (.held _ _ i _) => some { s with cache := Bio.bunpin s.cache i }
    | _ => none
  | .unlock u => s.act u .unlock
  | .unref u => s.act u .unref
  | .clear => some { s with lh := [] }

-- == events

/-- begin_op, once it does not have to sleep. -/
def Io.beginOp (s : Io β) : Option (Io β) :=
  if s.committing then none
  else if logBlocks < s.lh.length + (s.outstanding + 1) * maxOpBlocks then none
  else some { s with outstanding := s.outstanding + 1 }

/-- end_op up to the commit. -/
def Io.endOp (s : Io β) : Option (Io β) :=
  if s.outstanding = 0 ∨ s.committing then none
  else if s.outstanding - 1 = 0 then
    some { s with outstanding := 0, committing := true, todo := Bio.commit s.start s.lh }
  else some { s with outstanding := s.outstanding - 1 }

/-- What can happen next. -/
inductive Event (β : Type) where
  /-- a user that is not the log's -/
  | user (u : Nat) (a : Act β)
  | beginOp
  | endOp
  /-- the committing process makes its next call -/
  | commit
  /-- end_op after the commit -/
  | commitEnd

/-- One event. `none` is an event that cannot happen now, or a panic. -/
def Io.step (h : HeadCodec β) (s : Io β) : Event β → Option (Io β)
  | .user u a => if 2 ≤ u then s.act u a else none
  | .beginOp => s.beginOp
  | .endOp => s.endOp
  | .commit =>
    match s.todo with
    | [] => none
    | c :: todo => Io.call h { s with todo } c
  | .commitEnd =>
    if s.committing ∧ s.todo = [] then some { s with committing := false }
    else none

/-- binit, and an empty log. -/
def Io.boot (users dev start : Nat) (disk : Nat → β) : Io β :=
  { cache :=
      { buf := fun _ => { dev := 0, blockno := 0, valid := false,
                          locked := false, refcnt := 0, data := disk 0 }
        lru := (List.range nbuf).reverse }
    disk, dev, start, outstanding := 0, committing := false, lh := []
    use := List.replicate (users + 2) .idle, todo := [] }

end Xv6Labs.Model.Bio
