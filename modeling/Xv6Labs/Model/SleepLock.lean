/-
Sleep locks (sleeplock.c) over sleep and wakeup (proc.c), for any number of
processes at once.

A step is what a process does between two spin locks. A process that is
`dozing` holds its `p->lock`, from the first line of sleep to sched, and
wakeup cannot go past it.
-/
import Xv6Labs.Lib.Overlay
import Xv6Labs.Model.State

namespace Xv6Labs.Model

open Lib

/-- Where a process is, as far as one sleep lock is concerned. -/
inductive SleepPlace where
  /-- without the lock, and not in sleep -/
  | outside
  /-- sleep, before `p->state = SLEEPING` -/
  | dozing
  /-- SLEEPING on the lock -/
  | asleep
  /-- sleep, after sched -/
  | woken
  /-- between acquiresleep and releasesleep -/
  | holder
deriving DecidableEq

/-- Who holds `lk->lk`. -/
inductive SpinLock where
  | free
  /-- acquiresleep, before the test of `locked` -/
  | testing (i : Nat)
  /-- releasesleep, before turn `p` of wakeup's loop -/
  | waking (i p : Nat)

/-- `struct sleeplock`, and where everyone is. -/
structure SleepLock where
  locked : Bool
  lk : SpinLock
  pid : Int
  place : Nat → SleepPlace

/-- `initsleeplock`. -/
def SleepLock.init : SleepLock := ⟨false, .free, 0, fun _ => .outside⟩

/-- A process moves on, and `lk->lk` is as given. -/
def SleepLock.goto (s : SleepLock) (i : Nat) (w : SleepPlace) (lk : SpinLock) : SleepLock :=
  { s with place := fun j => if j = i then w else s.place j, lk }

/-- What happens next. -/
inductive SleepEvent where
  /-- the start of acquiresleep, or the end of sleep -/
  | acquire (i : Nat)
  /-- acquiresleep up to the release, in sleep or its own -/
  | test
  | sched (i : Nat)
  /-- kkill wakes a process that sleeps -/
  | kill (i : Nat)
  /-- releasesleep up to wakeup -/
  | release (i : Nat)
  /-- a turn of wakeup's loop, and after the last one the release -/
  | wakeup

/-- One step, `none` if it cannot be taken now. `pids` are the pids of the
slots. Only the holder calls releasesleep, and it does not call
acquiresleep again. -/
def SleepLock.step (pids : Nat → Int) (s : SleepLock) : SleepEvent → Option SleepLock
  | .acquire i =>
    match s.lk, s.place i with
    | .free, .outside | .free, .woken =>
      if i < nproc then some { s with lk := .testing i } else none
    | _, _ => none
  | .test =>
    match s.lk with
    | .testing i =>
      if s.locked then some (s.goto i .dozing .free)
      else some { s.goto i .holder .free with locked := true, pid := pids i }
    | _ => none
  | .sched i =>
    if s.place i = .dozing then some (s.goto i .asleep s.lk) else none
  | .kill i =>
    if s.place i = .asleep then some (s.goto i .woken s.lk) else none
  | .release i =>
    match s.lk, s.place i with
    | .free, .holder =>
      some { s.goto i .outside (.waking i 0) with locked := false, pid := 0 }
    | _, _ => none
  | .wakeup =>
    match s.lk with
    | .waking i p =>
      if p < nproc then
        match s.place p with
        | .dozing => none
        | .asleep => some (s.goto p .woken (.waking i (p + 1)))
        | _ => some { s with lk := .waking i (p + 1) }
      else some { s with lk := .free }
    | _ => none

/-- `holdingsleep` in the process of slot `i`. -/
def SleepLock.holdingsleep (pids : Nat → Int) (s : SleepLock) (i : Nat) : Bool :=
  s.locked && s.pid == pids i

/-- The runs of a sleep lock. -/
def SleepLock.Runs (pids : Nat → Int) : SleepLock → Prop :=
  Reaches (fun s s' => ∃ e, s.step pids e = some s') .init

end Xv6Labs.Model
