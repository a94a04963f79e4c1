/-
The log of the week 6 kernel (xv6-labs-2024): its space.

log.c there is the one of `Model.Log`, but its log area has a size, the
`nlog` blocks that mkfs wrote into the superblock, and log_write checks
against that too. This is the part of the code that the space depends on:
`struct log` and the calls that change it. `commit` clears the list of
blocks; its disk writes are as in `Model.Log`.
-/
import Xv6Labs.Model.Log

namespace Xv6Labs.Model.Week6

/-- `LOGSIZE`: the size of the array in `struct logheader`. -/
def logSize : Nat := maxOpBlocks * 3

/-- What mkfs writes as `sb.nlog`: the blocks of the log area. One of them
is the header. -/
def mkfsNlog : Nat := logSize

/-- `struct log`, without the lock and where the area starts. `lh` is the
list `block[0..n)`. -/
structure Log where
  size : Nat
  lh : List Nat
  outstanding : Int
  committing : Bool

/-- The log after initlog: `size` is `sb->nlog`, and recovery has left it
empty. -/
def initlog (nlog : Nat) : Log :=
  { size := nlog, lh := [], outstanding := 0, committing := false }

/-- `begin_op`, once it does not have to sleep. -/
def beginOp (s : Log) : Option Log :=
  if s.committing then none
  else if (logSize : Int) < s.lh.length + (s.outstanding + 1) * maxOpBlocks then none
  else some { s with outstanding := s.outstanding + 1 }

/-- `log_write`, with absorption. -/
def logWrite (s : Log) (b : Nat) : Except LogPanic Log :=
  if logSize ≤ s.lh.length ∨ (s.size : Int) - 1 ≤ s.lh.length then
    .error .tooBig
  else if s.outstanding < 1 then .error .outside
  else .ok { s with lh := if b ∈ s.lh then s.lh else s.lh ++ [b] }

/-- `end_op` up to the call of commit. -/
def endOp (s : Log) : Except LogPanic Log :=
  let outstanding := s.outstanding - 1
  if s.committing then .error .committing
  else .ok { s with outstanding, committing := decide (outstanding = 0) }

/-- commit's `log.lh.n = 0`. -/
def commit (s : Log) : Option Log := if s.committing then some { s with lh := [] } else none

/-- end_op after commit. A log that still has blocks is not done. -/
def commitEnd (s : Log) : Option Log :=
  if s.committing ∧ s.lh = [] then some { s with committing := false }
  else none

-- == runs

/-- The log, and for each open operation how often it called log_write. -/
structure Run where
  s : Log
  /-- the log_write calls of each open operation -/
  ops : List Nat

/-- One call. The number of an operation is its place in the list. -/
inductive Event where
  | begin
  | write (op block : Nat)
  | finish (op : Nat)
  | commit
  | commitEnd

/-- One event. `none`: the call sleeps, or it is not one of an open
operation. -/
def Run.step (r : Run) : Event → Except LogPanic (Option Run)
  | .begin => .ok ((beginOp r.s).map fun s => ⟨s, r.ops ++ [0]⟩)
  | .write o b =>
    match r.ops[o]? with
    | none => .ok none
    | some n => (logWrite r.s b).map fun s => some ⟨s, r.ops.set o (n + 1)⟩
  | .finish o =>
    if o < r.ops.length then
      (endOp r.s).map fun s => some ⟨s, r.ops.eraseIdx o⟩
    else .ok none
  | .commit => .ok ((Week6.commit r.s).map fun s => ⟨s, r.ops⟩)
  | .commitEnd => .ok ((Week6.commitEnd r.s).map fun s => ⟨s, r.ops⟩)

/-- An operation calls log_write at most `MAXOPBLOCKS` times. -/
def Run.InBudget (r : Run) : Event → Prop
  | .write o _ => r.ops.getD o 0 < maxOpBlocks
  | _ => True

instance (r : Run) (e : Event) : Decidable (r.InBudget e) :=
  match e with
  | .write .. => inferInstanceAs (Decidable (_ < _))
  | .begin | .finish _ | .commit | .commitEnd =>
    inferInstanceAs (Decidable True)

/-- One step by an event that meets `C`. -/
def Step (C : Run → Event → Prop) (r r' : Run) : Prop :=
  ∃ e, r.InBudget e ∧ C r e ∧ r.step e = .ok (some r')

/-- The kernel has booted on an image of mkfs. -/
def Run.boot : Run := ⟨initlog mkfsNlog, []⟩

/-- Play events one after the other. -/
def Run.play (C : Run → Event → Prop) [∀ r e, Decidable (C r e)] (r : Run) : List Event → Option Run
  | [] => some r
  | e :: es =>
    if r.InBudget e ∧ C r e then
      match r.step e with
      | .ok (some r') => r'.play C es
      | _ => none
    else none

end Xv6Labs.Model.Week6
