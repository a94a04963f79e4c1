/-
Sleep locks exclude, and lose no wakeup: whoever goes to sleep has found
the lock taken, so its holder owes a wakeup, and the loop of that wakeup
does not pass a process that is on its way to sleep.
-/
import Xv6Labs.Model.SleepLock

namespace Xv6Labs.Model

open Lib

/-- A wakeup is running and has not come to slot `j` yet. -/
def SpinLock.Before (j : Nat) : SpinLock → Prop
  | .waking _ p => p ≤ j
  | _ => False

/-- What every step keeps: process `o`, if any, has the lock and no other
has it, and whoever goes to sleep is owed a wakeup. -/
structure SleepLock.Inv (pids : Nat → Int) (o : Option Nat) (s : SleepLock) : Prop where
  holder : ∀ i, s.place i = .holder ↔ o = some i
  locked : s.locked = o.isSome
  pid : ∀ i, o = some i → s.pid = pids i
  tests : ∀ i, s.lk = .testing i → s.place i ≠ .holder
  owed : ∀ j, j < nproc → s.place j = .dozing ∨ s.place j = .asleep →
    s.locked = true ∨ s.lk.Before j

section

variable {pids : Nat → Int} {s s' : SleepLock}

theorem SleepLock.Inv.step {o : Option Nat} {e : SleepEvent}
    (h : s.Inv pids o) (hs : s.step pids e = some s') : ∃ o, s'.Inv pids o := by
  obtain ⟨holder, locked, pid, tests, owed⟩ := h
  cases e with
  | acquire i =>
    refine ⟨o, ?_, ?_, ?_, ?_, ?_⟩ <;> grind [SleepLock.step, SpinLock.Before]
  | test =>
    simp only [SleepLock.step] at hs
    split at hs
    · next i hlk =>
      have hi := tests i hlk
      split at hs <;> cases hs
      · -- the lock is taken, so its holder owes the wakeup
        refine ⟨o, ?_, ?_, ?_, ?_, ?_⟩ <;> grind [SleepLock.goto]
      · refine ⟨some i, ?_, ?_, ?_, ?_, ?_⟩ <;> grind [SleepLock.goto]
    · cases hs
  | sched i | kill i =>
    refine ⟨o, ?_, ?_, ?_, ?_, ?_⟩ <;> grind [SleepLock.step, SleepLock.goto]
  | release i =>
    -- the loop starts at slot 0, before every sleeper
    refine ⟨none, ?_, ?_, ?_, ?_, ?_⟩ <;> grind [SleepLock.step, SleepLock.goto, SpinLock.Before]
  | wakeup =>
    -- the loop does not leave a slot that is dozing or asleep
    refine ⟨o, ?_, ?_, ?_, ?_, ?_⟩ <;> grind [SleepLock.step, SleepLock.goto, SpinLock.Before]

theorem SleepLock.Runs.inv (hr : s.Runs pids) : ∃ o, s.Inv pids o := by
  refine Reaches.inv (P := fun s => ∃ o, s.Inv pids o) hr ⟨none, ?_⟩ ?_
  · constructor <;> simp [SleepLock.init]
  · rintro s s' ⟨o, h⟩ ⟨e, he⟩
    exact h.step he

/-- At most one process has the lock, `locked` says whether one has it, and
holdingsleep is true in that process and in no other. -/
theorem sleep_lock_excludes (hr : s.Runs pids) :
    (∀ i j, s.place i = .holder → s.place j = .holder → i = j)
    ∧ (s.locked = true ↔ ∃ i, s.place i = .holder)
    ∧ (pids.Injective → ∀ i,
      s.holdingsleep pids i = true ↔ s.place i = .holder) := by
  obtain ⟨o, h⟩ := hr.inv
  refine ⟨fun i j hi hj => ?_, ?_, fun hinj i => ?_⟩
  · rw [h.holder] at hi hj
    exact Option.some.inj (hi.symm.trans hj)
  · simp only [h.locked, h.holder, Option.isSome_iff_exists]
  rw [SleepLock.holdingsleep, Bool.and_eq_true, beq_iff_eq, h.locked,
    Option.isSome_iff_exists, h.holder]
  constructor
  · rintro ⟨⟨j, hj⟩, hpid⟩
    rw [hj, hinj ((h.pid j hj).symm.trans hpid)]
  · exact fun hi => ⟨⟨i, hi⟩, h.pid i hi⟩

/-- No wakeup is lost: while a process sleeps, or is about to, another has
the lock and will release it, or a wakeup is yet to come to the process. -/
theorem sleepers_are_owed (hr : s.Runs pids) {j : Nat} (hj : j < nproc)
    (hsl : s.place j = .dozing ∨ s.place j = .asleep) :
    (∃ i, i ≠ j ∧ s.place i = .holder) ∨ s.lk.Before j := by
  obtain ⟨o, h⟩ := hr.inv
  refine (h.owed j hj hsl).imp_left fun hl => ?_
  obtain ⟨i, hi⟩ := Option.isSome_iff_exists.mp (h.locked ▸ hl)
  rw [← h.holder] at hi
  refine ⟨i, ?_, hi⟩
  rintro rfl
  simp [hi] at hsl

end

/-- Process 0 has the lock, and process 1 has gone to sleep. -/
theorem contended_runs : ∃ s, SleepLock.Runs (fun i => i) s
    ∧ s.place 0 = .holder ∧ s.place 1 = .asleep :=
  ⟨_, reaches_of_play (show play (SleepLock.step fun i => i) .init
    [.acquire 0, .test, .acquire 1, .test, .sched 1] = some _ from rfl), rfl, rfl⟩

theorem sleep_lock_excludes_contended : ∃ s, SleepLock.Runs (fun i => i) s
    ∧ s.place 0 = .holder ∧ ∀ i, s.place i = .holder → i = 0 := by
  obtain ⟨s, hr, h0, _⟩ := contended_runs
  exact ⟨s, hr, h0, fun i hi => (sleep_lock_excludes hr).1 i 0 hi h0⟩

theorem sleepers_are_owed_contended : ∃ s, SleepLock.Runs (fun i => i) s
    ∧ s.place 1 = .asleep
    ∧ ((∃ i, i ≠ 1 ∧ s.place i = .holder) ∨ s.lk.Before 1) := by
  obtain ⟨s, hr, _, h1⟩ := contended_runs
  exact ⟨s, hr, h1, sleepers_are_owed hr (by decide) (.inr h1)⟩

end Xv6Labs.Model
