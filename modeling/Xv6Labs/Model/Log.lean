/-
The file system log of log.c: `begin_op`, `log_write`, `end_op`, `commit`
and `recover_from_log`.

# Disk writes one by one

A commit and a recovery are cut at their disk writes: `Phase` says which
write comes next, and `diskStep` does it. Between two of them the machine
can crash (`Log.crash`), which leaves the disk and nothing else. The header
block is the commit point.

# Blocks

The contents of a block are an arbitrary type. A header block holds
`struct logheader`; `HeadCodec` is how that is stored in a block and read
back. `write_head` keeps what the block holds past the `n` numbers.

# What is left out

The buffer cache has a buffer for every block, and `bpin` and `bunpin`,
which keep a logged block in it, are not counted. A call that sleeps is no
step.
-/
import Xv6Labs.Lib.Overlay

namespace Xv6Labs.Model

/-- `MAXOPBLOCKS`. -/
def maxOpBlocks : Nat := 10

/-- `LOGBLOCKS`. -/
def logBlocks : Nat := maxOpBlocks * 3

/-- `struct logheader` in a block: `n` and the numbers `block[0..n)`, each
of 32 bits. -/
structure HeadCodec (β : Type) where
  put : β → List Nat → β
  get : β → List Nat
  get_put : ∀ b l, l.length ≤ logBlocks → (∀ x ∈ l, x < 2 ^ 32) → get (put b l) = l

/-- The layout of the source, in a block of `BSIZE` = 1024 bytes read as
ints. A negative `n` is no block; past the block read_head reads zeros. -/
def logHeader : HeadCodec (Fin 256 → UInt32) where
  put b l i :=
    if i.val = 0 then UInt32.ofNat l.length
    else match l[i.val - 1]? with
      | some x => UInt32.ofNat x
      | none => b i
  get b :=
    (List.range (if (b 0).toNat < 2 ^ 31 then (b 0).toNat else 0)).map fun i =>
      if h : i + 1 < 256 then (b ⟨i + 1, h⟩).toNat else 0
  get_put b l hlen hw := by
    unfold logBlocks maxOpBlocks at hlen
    have hn : (UInt32.ofNat l.length).toNat = l.length :=
      UInt32.toNat_ofNat_of_lt' (by
        show l.length < 2 ^ 32
        omega)
    have hlt : l.length < 2 ^ 31 := by omega
    refine List.ext_getElem ?_ ?_
    · simp only [Fin.val_zero, if_true, hn, hlt, List.length_map, List.length_range]
    intro i hi hi'
    have hx : (UInt32.ofNat l[i]).toNat = l[i] :=
      UInt32.toNat_ofNat_of_lt' (hw _ (List.getElem_mem hi'))
    have h256 : i + 1 < 256 := by omega
    simp only [List.getElem_map, List.getElem_range, h256, dif_pos,
      Nat.add_one_ne_zero, if_false, Nat.add_sub_cancel,
      List.getElem?_eq_getElem hi', hx]

/-- Where end_op, commit and recover_from_log are, by their next disk
write. -/
inductive Phase where
  /-- no commit is running -/
  | running
  /-- the call of commit -/
  | commit
  /-- write_log, before log block `tail` -/
  | writeLog (tail : Nat)
  /-- the write_head that commits -/
  | writeHead
  /-- install_trans, before home block `tail` -/
  | install (tail : Nat)
  /-- the write_head that clears the log -/
  | clearHead
  /-- end_op after commit -/
  | commitEnd
  /-- read_head of a recovery -/
  | recoverRead
  /-- install_trans of a recovery -/
  | recoverInstall (tail : Nat)
  /-- write_head of a recovery -/
  | recoverClear
deriving DecidableEq, Repr

/-- The panics of log.c. -/
inductive LogPanic where
  /-- "too big a transaction" -/
  | tooBig
  /-- "log_write outside of trans" -/
  | outside
  /-- "log.committing" -/
  | committing
deriving DecidableEq, Repr

/-- The disk, `struct log` and the buffer cache. `lh` is the list
`block[0..n)` of the header in memory. -/
structure Log (β : Type) where
  disk : Nat → β
  start : Nat
  lh : List Nat
  outstanding : Int
  committing : Bool
  cache : Nat → β
  phase : Phase

variable {β : Type}

/-- `begin_op`, once it does not have to sleep. -/
def beginOp (s : Log β) : Option (Log β) :=
  if s.committing then none
  else if (logBlocks : Int) < s.lh.length + (s.outstanding + 1) * maxOpBlocks then none
  else some { s with outstanding := s.outstanding + 1 }

/-- A file system operation changes the data of a buffer. -/
def Log.modify (s : Log β) (b : Nat) (v : β) : Log β :=
  { s with cache := Function.update s.cache b v }

/-- `log_write`, with absorption. -/
def logWrite (s : Log β) (b : Nat) : Except LogPanic (Log β) :=
  if logBlocks ≤ s.lh.length then .error .tooBig
  else if s.outstanding < 1 then .error .outside
  else .ok { s with lh := if b ∈ s.lh then s.lh else s.lh ++ [b] }

/-- `end_op` up to the call of commit. -/
def endOp (s : Log β) : Except LogPanic (Log β) :=
  let outstanding := s.outstanding - 1
  if s.committing then .error .committing
  else if outstanding = 0 then
    .ok { s with outstanding, committing := true, phase := .commit }
  else .ok { s with outstanding }

/-- Write one block to the disk. -/
def Log.bwrite (s : Log β) (b : Nat) (v : β) : Log β :=
  { s with disk := Function.update s.disk b v }

/-- `write_head`. -/
def Log.writeHead (c : HeadCodec β) (s : Log β) : Log β :=
  s.bwrite s.start (c.put (s.disk s.start) s.lh)

/-- One turn of install_trans: log block `tail` goes home to `b`. -/
def Log.installBlock (s : Log β) (tail b : Nat) : Log β :=
  (s.modify b (s.disk (s.start + tail + 1))).bwrite b (s.disk (s.start + tail + 1))

/-- The next step of a commit or a recovery: at most one disk write. -/
def diskStep (c : HeadCodec β) (s : Log β) : Option (Log β) :=
  match s.phase with
  | .running => none
  | .commit =>
    some { s with
      phase := if 0 < s.lh.length then .writeLog 0 else .commitEnd }
  | .writeLog tail =>
    match s.lh[tail]? with
    | some b => some
        { s.bwrite (s.start + tail + 1) (s.cache b) with
          phase := .writeLog (tail + 1) }
    | none => some { s with phase := .writeHead }
  | .writeHead => some { s.writeHead c with phase := .install 0 }
  | .install tail =>
    match s.lh[tail]? with
    | some b => some
        { s.installBlock tail b with phase := .install (tail + 1) }
    | none => some { s with lh := [], phase := .clearHead }
  | .clearHead => some { s.writeHead c with phase := .commitEnd }
  | .commitEnd => some { s with committing := false, phase := .running }
  | .recoverRead => some
      { s with lh := c.get (s.disk s.start), phase := .recoverInstall 0 }
  | .recoverInstall tail =>
    match s.lh[tail]? with
    | some b => some
        { s.installBlock tail b with phase := .recoverInstall (tail + 1) }
    | none => some { s with lh := [], phase := .recoverClear }
  | .recoverClear => some { s.writeHead c with phase := .running }

/-- A crash, and the boot up to initlog: memory is lost. -/
def Log.crash (s : Log β) : Log β :=
  { s with
    lh := [], outstanding := 0, committing := false, cache := s.disk,
    phase := .recoverRead }

/-- A crash, and then recover_from_log to its end. -/
def Recovers (c : HeadCodec β) (s s' : Log β) : Prop :=
  Lib.Reaches (fun t t' => diskStep c t = some t') s.crash s' ∧ s'.phase = .running

end Xv6Labs.Model
