/-
Pipes (pipe.c).

A call of pipewrite or piperead holds the pipe's lock from turn to turn of
its loops, and gives it up only to sleep and to return; so the steps of a
run are the turns of the loops, by the call that has the lock. The user's
addresses are valid: copyin and copyout do not fail. What copyin finds is
up to the caller's memory at that moment, so a turn of pipewrite is given
the byte.

The number of bytes accepted and delivered so far are records that no code
looks at.
-/
import Mathlib.Data.BitVec
import Xv6Labs.Model.Machine

namespace Xv6Labs.Model

-- == struct pipe

/-- `PIPESIZE`. -/
def pipeSize : Nat := 512

/-- `struct pipe`. -/
structure PipeBuf where
  data : Nat → UInt8
  nread : BitVec 32
  nwrite : BitVec 32
  readopen : Bool
  writeopen : Bool

/-- pipealloc's pipe, in a page that holds `data`. -/
def PipeBuf.alloc (data : Nat → UInt8) : PipeBuf where
  data
  nread := 0
  nwrite := 0
  readopen := true
  writeopen := true

/-- `pi->data[pi->nwrite++ % PIPESIZE] = ch`. -/
def PipeBuf.put (pi : PipeBuf) (ch : UInt8) : PipeBuf :=
  { pi with
    data := Function.update pi.data (pi.nwrite.toNat % pipeSize) ch
    nwrite := pi.nwrite + 1 }

/-- `ch = pi->data[pi->nread++ % PIPESIZE]`. -/
def PipeBuf.get (pi : PipeBuf) : UInt8 × PipeBuf :=
  (pi.data (pi.nread.toNat % pipeSize), { pi with nread := pi.nread + 1 })

-- == turns

/-- The two channels, `&pi->nread` and `&pi->nwrite`. -/
inductive PipeChan where
  | nread
  | nwrite
deriving DecidableEq, Repr

/-- What a turn of a loop comes to. -/
inductive PipeTurn (σ : Type) where
  /-- on to the next turn, in the lock -/
  | next (s : σ)
  /-- sleep on `chan`, after a wakeup of `wake` -/
  | sleep (s : σ) (chan : PipeChan) (wake : Option PipeChan)
  /-- release and return, after a wakeup of `wake` -/
  | ret (value : Int) (wake : Option PipeChan)
deriving DecidableEq, Repr

/-- One turn of the loop of pipewrite, with `ch` at `addr + i`. -/
def pipewriteTurn (pi : PipeBuf) (killed : Bool) (n : Int) (ch : UInt8)
    (i : Int) : PipeBuf × PipeTurn Int :=
  if i < n then
    if pi.readopen = false ∨ killed then (pi, .ret (-1) none)
    else if pi.nwrite = pi.nread + pipeSize then
      (pi, .sleep i .nwrite (some .nread))
    else (pi.put ch, .next (i + 1))
  else (pi, .ret i (some .nread))

/-- One turn of the first loop of piperead: `next` leaves it. -/
def pipereadWait (pi : PipeBuf) (killed : Bool) : PipeTurn Unit :=
  if pi.nread = pi.nwrite ∧ pi.writeopen then
    if killed then .ret (-1) none else .sleep () .nread none
  else .next ()

/-- One turn of the second loop of piperead: the byte that was copied out. -/
def pipereadTurn (pi : PipeBuf) (n i : Int) : PipeBuf × Option UInt8 × PipeTurn Int :=
  if i < n then
    if pi.nread = pi.nwrite then (pi, none, .ret i (some .nwrite))
    else (pi.get.2, some pi.get.1, .next (i + 1))
  else (pi, none, .ret i (some .nwrite))

-- == a destination that can fail

/-- The user's memory for copyout, by address. -/
structure UserBytes where
  byte : Nat → UInt8
  writable : Nat → Bool

/-- `copyout` of one byte, which lies in one page: `none` is its -1. -/
def UserBytes.copyout (u : UserBytes) (va : Nat) (ch : UInt8) : Option UserBytes :=
  if u.writable va then
    some { u with byte := Function.update u.byte va ch }
  else none

/-- The second loop of piperead at turn `i`, with `k` turns to go. -/
def pipereadCopy (addr : Nat) : (k i : Nat) → PipeBuf → UserBytes → Nat × PipeBuf × UserBytes
  | 0, i, pi, u => (i, pi, u)
  | k + 1, i, pi, u =>
    if pi.nread = pi.nwrite then (i, pi, u)
    else
      let (ch, pi) := pi.get
      match u.copyout (u64 (addr + i)) ch with
      | none => (i, pi, u)
      | some u => pipereadCopy addr k (i + 1) pi u

/-- `piperead`, if it does not sleep: after a sleep it begins again. -/
def piperead (pi : PipeBuf) (killed : Bool) (u : UserBytes) (addr : Nat)
    (n : Int) : Option (Int × PipeBuf × UserBytes) :=
  match pipereadWait pi killed with
  | .ret r _ => some (r, pi, u)
  | .sleep .. => none
  | .next () =>
    let (i, pi, u) := pipereadCopy addr n.toNat 0 pi u
    some (i, pi, u)

-- == runs

/-- Where a call is. -/
inductive PipeCall where
  | none
  /-- pipewrite, waiting for the lock -/
  | writeEnter (n i : Int)
  /-- pipewrite, in the lock -/
  | write (n i : Int)
  /-- pipewrite, asleep on `&pi->nwrite` -/
  | writeAsleep (n i : Int)
  /-- piperead's first loop, waiting for the lock -/
  | readEnter (n : Int)
  /-- piperead's first loop, in the lock -/
  | readWait (n : Int)
  /-- piperead, asleep on `&pi->nread` -/
  | readAsleep (n : Int)
  /-- piperead's second loop, in the lock -/
  | read (n i : Int)
deriving DecidableEq, Repr

/-- The call is in the lock. -/
def PipeCall.inLock : PipeCall → Bool
  | .write _ _ | .readWait _ | .read _ _ => true
  | _ => false

/-- The call after a wakeup of channel `chan`. -/
def PipeCall.wake (chan : PipeChan) : PipeCall → PipeCall
  | .writeAsleep n i => if chan = .nwrite then .writeEnter n i else .writeAsleep n i
  | .readAsleep n => if chan = .nread then .readEnter n else .readAsleep n
  | c => c

/-- The call after a kill of its process. -/
def PipeCall.rouse : PipeCall → PipeCall
  | .writeAsleep n i => .writeEnter n i
  | .readAsleep n => .readEnter n
  | c => c

/-- A pipe, who has its lock, the processes that use it, and the bytes that
went in and out. -/
structure PipeRun where
  pipe : PipeBuf
  lock : Option Nat
  calls : Nat → PipeCall
  killed : Nat → Bool
  accepted : List UInt8
  delivered : List UInt8

inductive PipeEvent where
  /-- process `p` calls pipewrite with `n` bytes -/
  | callWrite (p : Nat) (n : Int)
  /-- process `p` calls piperead for `n` bytes -/
  | callRead (p : Nat) (n : Int)
  /-- process `p` gets the lock -/
  | acquire (p : Nat)
  /-- the next turn of process `p`, with `ch` in its memory -/
  | turn (p : Nat) (ch : UInt8)
  /-- pipeclose -/
  | close (writable : Bool)
  | kill (p : Nat)
deriving DecidableEq, Repr

namespace PipeRun

def wakeup (s : PipeRun) : Option PipeChan → PipeRun
  | none => s
  | some chan => { s with calls := fun p => (s.calls p).wake chan }

def goto (s : PipeRun) (p : Nat) (c : PipeCall) : PipeRun :=
  { s with calls := Function.update s.calls p c }

def release (s : PipeRun) : PipeRun := { s with lock := none }

/-- Process `p`, in the lock, at the end of a turn: `on` is the place of its
next turn and `off` that of its sleep. -/
def after {σ : Type} (s : PipeRun) (p : Nat) (on off : σ → PipeCall) : PipeTurn σ → PipeRun
  | .next a => s.goto p (on a)
  | .sleep a _ wake => ((s.wakeup wake).goto p (off a)).release
  | .ret _ wake => ((s.wakeup wake).goto p .none).release

/-- One turn of process `p`, in the lock. -/
def turn (s : PipeRun) (p : Nat) (ch : UInt8) : Option PipeRun :=
  match s.calls p with
  | .write n i =>
    let (pipe, t) := pipewriteTurn s.pipe (s.killed p) n ch i
    let accepted := match t with
      | .next _ => s.accepted ++ [ch]
      | _ => s.accepted
    some (({ s with pipe, accepted } : PipeRun).after p (.write n) (.writeAsleep n) t)
  | .readWait n =>
    some (s.after p (fun _ => .read n 0) (fun _ => .readAsleep n)
      (pipereadWait s.pipe (s.killed p)))
  | .read n i =>
    let (pipe, out, t) := pipereadTurn s.pipe n i
    some (({ s with pipe, delivered := s.delivered ++ out.toList } :
      PipeRun).after p (.read n) (.read n) t)
  | _ => none

/-- Process `p` gets the lock, which is free. -/
def enter (s : PipeRun) (p : Nat) : Option PipeRun :=
  match s.calls p with
  | .writeEnter n i => some { s.goto p (.write n i) with lock := some p }
  | .readEnter n => some { s.goto p (.readWait n) with lock := some p }
  | _ => none

/-- `pipeclose`, without the kfree. -/
def close (s : PipeRun) (writable : Bool) : PipeRun :=
  if writable then
    ({ s with pipe := { s.pipe with writeopen := false } } : PipeRun).wakeup (some .nread)
  else
    ({ s with pipe := { s.pipe with readopen := false } } : PipeRun).wakeup (some .nwrite)

/-- One step, where it can happen. -/
def step (s : PipeRun) : PipeEvent → Option PipeRun
  | .callWrite p n =>
    if s.calls p = .none then some (s.goto p (.writeEnter n 0)) else none
  | .callRead p n =>
    if s.calls p = .none then some (s.goto p (.readEnter n)) else none
  | .acquire p => if s.lock = none then s.enter p else none
  | .turn p ch => if s.lock = some p then s.turn p ch else none
  | .close writable => if s.lock = none then some (s.close writable) else none
  | .kill p => some
      { s.goto p (s.calls p).rouse with
        killed := Function.update s.killed p true }

/-- A pipe that nobody uses yet. -/
def start (pipe : PipeBuf) : PipeRun where
  pipe
  lock := none
  calls _ := .none
  killed _ := false
  accepted := []
  delivered := []

end PipeRun

end Xv6Labs.Model
