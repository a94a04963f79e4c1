/-
The process table under interleaving: fork, exit, wait and kill (proc.c) in
the steps that their locks leave.

# Steps

A process inside kfork, kexit or kwait is at one of the places of `Where`.
A step is what one process does while it holds a lock, or one turn of a
loop under wait_lock: two processes at the same time are two processes whose
steps alternate. wait_lock is a field, since it is held over many steps;
`p->lock` is held for one step only and is not.

allocproc keeps the lock of the slot it finds until kfork has copied
everything, so `fork` is one step. Which slot it finds depends on what the
others did while it scanned: any free one.

# The rest of the kernel

The scheduler's steps and sleeps elsewhere are here as changes of `state`,
at any time where the code can do them; wakeup may come for any reason.
`killed` is also set by a trap of the process itself (`setkilled`).
-/
import Xv6Labs.Model.State

namespace Xv6Labs.Model

/-- The fields of `struct proc` that the locks of proc.c protect. -/
structure Slot where
  state : ProcState
  killed : Bool
  xstate : Int
  pid : Int
  /-- the slot of the parent -/
  parent : Option Nat
deriving DecidableEq, Repr

/-- A slot that was never used. -/
def Slot.zero : Slot :=
  { state := .unused, killed := false, xstate := 0, pid := 0, parent := none }

/-- Where a process is. -/
inductive Where where
  /-- in none of the functions below -/
  | elsewhere
  /-- kfork, before `np->parent = p` -/
  | forkParent (np : Nat)
  /-- kfork, before `np->state = RUNNABLE` -/
  | forkRun (np : Nat)
  /-- kexit with wait_lock held, before turn `pp` of reparent's loop -/
  | exiting (status : Int) (pp : Nat)
  /-- kwait with wait_lock held, before turn `pp` of its scan -/
  | waiting (addr : Nat) (pp : Nat) (havekids : Bool)
  /-- kwait, in the sleep -/
  | waitSleep (addr : Nat)
deriving DecidableEq, Repr

/-- The process table, its locks and where everyone is. -/
structure ProcTable where
  slot : Nat → Slot
  place : Nat → Where
  /-- who holds wait_lock -/
  waitLock : Option Nat
  nextpid : Int
  initproc : Nat

/-- Replace one slot. -/
def ProcTable.setSlot (t : ProcTable) (i : Nat) (s : Slot) : ProcTable :=
  { t with slot := fun j => if j = i then s else t.slot j }

/-- A process moves on. -/
def ProcTable.goto (t : ProcTable) (i : Nat) (w : Where) : ProcTable :=
  { t with place := fun j => if j = i then w else t.place j }

/-- The 32-bit value of an `int`. -/
def int32 (x : Int) : Int := (x + 2 ^ 31) % 2 ^ 32 - 2 ^ 31

-- == the functions

/-- `allocproc` on the slot it found, with `allocpid`: `killed`, `xstate`
and `parent` are what the slot's last use left. -/
def ProcTable.allocproc (t : ProcTable) (j : Nat) : ProcTable :=
  { t.setSlot j { t.slot j with state := .used, pid := t.nextpid } with
    nextpid := int32 (t.nextpid + 1) }

/-- `freeproc`. -/
def ProcTable.freeproc (t : ProcTable) (j : Nat) : ProcTable :=
  t.setSlot j
    { state := .unused, killed := false, xstate := 0, pid := 0, parent := none }

/-- One turn of reparent's loop for the process in slot `i`. -/
def ProcTable.reparent (t : ProcTable) (i pp : Nat) : ProcTable :=
  if (t.slot pp).parent = some i then
    t.setSlot pp { t.slot pp with parent := some t.initproc }
  else t

/-- `kkill`: `true` is the return value 0. -/
def ProcTable.kkill (t : ProcTable) (pid : Int) : Bool × ProcTable :=
  match (List.range nproc).find? fun j => (t.slot j).pid = pid with
  | none => (false, t)
  | some j =>
    let s := t.slot j
    (true, t.setSlot j { s with
      killed := true,
      state := if s.state = .sleeping then .runnable else s.state })

-- == steps

/-- What happens next. `i` is the slot of the process that does it. -/
inductive TableEvent where
  | run (i : Nat)
  | yield (i : Nat)
  | sleep (i : Nat)
  | wakeup (i : Nat)
  /-- kfork up to the first release of the lock of `np` -/
  | fork (i np : Nat)
  /-- kfork that runs out of memory -/
  | forkFail (i np : Nat)
  | forkParent (i : Nat)
  | forkRun (i : Nat)
  /-- kexit up to wait_lock -/
  | exit (i : Nat) (status : Int)
  /-- a turn of reparent's loop, and after the last one the rest -/
  | exitTurn (i : Nat)
  /-- kwait takes wait_lock, at its start or after the sleep -/
  | wait (i addr : Nat)
  /-- a turn of kwait's scan, and after the last one what follows it.
  `ok`: does copyout of the status succeed? -/
  | waitTurn (i : Nat) (ok : Bool)
  | kill (pid : Int)
  | setkilled (i : Nat)

/-- Is the process running, outside the functions here? -/
def ProcTable.idle (t : ProcTable) (i : Nat) : Bool :=
  decide (i < nproc ∧ (t.slot i).state = .running ∧ t.place i = .elsewhere)

/-- reparent's loop for slot `i`, and the end of kexit. -/
def ProcTable.exitTurn (t : ProcTable) (i : Nat) : Option ProcTable :=
  match t.place i with
  | .exiting status pp =>
    if pp < nproc then
      some ((t.reparent i pp).goto i (.exiting status (pp + 1)))
    else
      some { (t.setSlot i
          { t.slot i with xstate := status, state := .zombie }).goto i
          .elsewhere with waitLock := none }
  | _ => none

/-- A kwait that returns a pid. -/
structure Reaped where
  caller : Nat
  /-- the child's slot -/
  child : Nat
  pid : Int
  /-- where copyout stored a status, and which -/
  stored : Option (Nat × Int)
deriving DecidableEq, Repr

/-- kwait's scan for slot `i`, and what follows it. A child that has exited
is freed once its status is delivered. -/
def ProcTable.waitTurn (t : ProcTable) (i : Nat) (ok : Bool) : Option (Option Reaped × ProcTable) :=
  match t.place i with
  | .waiting addr pp havekids =>
    let c := t.slot pp
    if pp < nproc then
      if c.parent = some i then
        if c.state = .zombie then
          let t := { t.goto i .elsewhere with waitLock := none }
          if addr = 0 then some (some ⟨i, pp, c.pid, none⟩, t.freeproc pp)
          else if ok then
            some (some ⟨i, pp, c.pid, some (addr, c.xstate)⟩, t.freeproc pp)
          else some (none, t)
        else some (none, t.goto i (.waiting addr (pp + 1) true))
      else some (none, t.goto i (.waiting addr (pp + 1) havekids))
    else if havekids = false ∨ (t.slot i).killed then
      some (none, { t.goto i .elsewhere with waitLock := none })
    else
      some (none,
        { (t.setSlot i { t.slot i with state := .sleeping }).goto i
          (.waitSleep addr) with waitLock := none })
  | _ => none

/-- One step, `none` if it cannot be taken now. -/
def ProcTable.step (t : ProcTable) : TableEvent → Option ProcTable
  | .run i =>
    if i < nproc ∧ (t.slot i).state = .runnable then
      some (t.setSlot i { t.slot i with state := .running })
    else none
  | .yield i =>
    if i < nproc ∧ (t.slot i).state = .running ∧ t.waitLock ≠ some i then
      some (t.setSlot i { t.slot i with state := .runnable })
    else none
  | .sleep i =>
    if t.idle i then some (t.setSlot i { t.slot i with state := .sleeping })
    else none
  | .wakeup i =>
    if i < nproc ∧ (t.slot i).state = .sleeping then
      some (t.setSlot i { t.slot i with state := .runnable })
    else none
  | .fork i j =>
    if t.idle i ∧ j < nproc ∧ (t.slot j).state = .unused then
      some ((t.allocproc j).goto i (.forkParent j))
    else none
  | .forkFail i j =>
    if t.idle i ∧ j < nproc ∧ (t.slot j).state = .unused then
      some ((t.allocproc j).freeproc j)
    else none
  | .forkParent i =>
    match t.place i with
    | .forkParent j =>
      if (t.slot i).state = .running ∧ t.waitLock = none then
        some ((t.setSlot j { t.slot j with parent := some i }).goto i (.forkRun j))
      else none
    | _ => none
  | .forkRun i =>
    match t.place i with
    | .forkRun j =>
      if (t.slot i).state = .running then
        some ((t.setSlot j { t.slot j with state := .runnable }).goto i .elsewhere)
      else none
    | _ => none
  | .exit i status =>
    if t.idle i ∧ i ≠ t.initproc ∧ t.waitLock = none then
      some { t.goto i (.exiting status 0) with waitLock := some i }
    else none
  | .exitTurn i => t.exitTurn i
  | .wait i addr =>
    if i < nproc ∧ (t.slot i).state = .running ∧ t.waitLock = none
        ∧ (t.place i = .elsewhere ∨ t.place i = .waitSleep addr) then
      some { t.goto i (.waiting addr 0 false) with waitLock := some i }
    else none
  | .waitTurn i ok => (t.waitTurn i ok).map Prod.snd
  | .kill pid => some (t.kkill pid).2
  | .setkilled i =>
    if t.idle i then some (t.setSlot i { t.slot i with killed := true })
    else none

/-- The table after userinit. -/
def ProcTable.boot : ProcTable where
  slot i := if i = 0 then { Slot.zero with state := .runnable, pid := 1 } else .zero
  place _ := .elsewhere
  waitLock := none
  nextpid := 2
  initproc := 0

end Xv6Labs.Model
