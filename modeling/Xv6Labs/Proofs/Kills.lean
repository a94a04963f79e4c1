/-
Whom kill reaches.

kkill compares `p->pid` without looking at `p->state`, and a free slot has
pid 0: kill(0) marks a free slot, and the next process made there dies of
it (`kill_zero_kills_child`). Otherwise no process is killed by a kill that
was not meant for it (`kills_reach_their_target`).
-/
import Xv6Labs.Proofs.Reaping

namespace Xv6Labs.Model

open Lib

/-- What a call of kkill should do: success names a process in use and
changes no more than its killed flag and state, failure changes nothing. -/
def KillLaw (t : ProcTable) (pid : Int) : Prop :=
  ((t.kkill pid).1 = true → ∃ j, j < nproc ∧ (t.slot j).state ≠ .unused
    ∧ (t.slot j).pid = pid
    ∧ (∀ k, k ≠ j → (t.kkill pid).2.slot k = t.slot k)
    ∧ ∃ killed state, (t.kkill pid).2.slot j = { t.slot j with killed, state })
  ∧ ((t.kkill pid).1 = false → (t.kkill pid).2 = t)

/-- The pid is not that of a free slot. -/
def KillsUsed (t : ProcTable) (pid : Int) : Prop :=
  pid ≠ 0 ∨ ∀ j, j < nproc → (t.slot j).state ≠ .unused

/-- A run with the events since each slot was last taken. -/
structure KillRun where
  r : TableRun
  since : Nat → List TableEvent

/-- Does the event make a process in slot `k`? -/
def TableEvent.makes : TableEvent → Nat → Bool
  | .fork _ j, k => decide (j = k)
  | _, _ => false

/-- One event. -/
def KillRun.next (q : KillRun) (e : TableEvent) : Option KillRun :=
  (q.r.next e).map fun r =>
    ⟨r, fun k => if e.makes k then [] else e :: q.since k⟩

/-- An event that is not a kill for a free slot. -/
def KillRun.Aimed (q : KillRun) : TableEvent → Prop
  | .kill pid => KillsUsed q.r.t pid
  | _ => True

/-- One step, by an event that meets the condition. -/
def KillStep (q q' : KillRun) : Prop := ∃ e, q.Aimed e ∧ q.next e = some q'

/-- The start. -/
def KillRun.boot : KillRun := ⟨.boot, fun _ => []⟩

-- == one step, one slot

/-- What a step can do to slot `k`. -/
inductive SlotStep (t t' : ProcTable) (e : TableEvent) (k : Nat) : Prop where
  | same (hpid : (t'.slot k).pid = (t.slot k).pid)
      (hkilled : (t'.slot k).killed = (t.slot k).killed)
      (hfree : t'.life k = .free ↔ t.life k = .free) (hno : e.makes k = false)
  | freed (hfree : t'.life k = .free) (hpid : (t'.slot k).pid = 0)
      (hkilled : (t'.slot k).killed = false)
  | made (hold : t.life k = .free) (hnew : t'.life k ≠ .free)
      (hkilled : (t'.slot k).killed = (t.slot k).killed)
  | killed (hpid : (t'.slot k).pid = (t.slot k).pid)
      (hfree : t'.life k = .free ↔ t.life k = .free) (hk : k < nproc)
      (heq : e = .kill (t.slot k).pid)
  | self (hpid : (t'.slot k).pid = (t.slot k).pid) (hused : t'.life k ≠ .free)
      (heq : e = .setkilled k)

section

variable {t t' : ProcTable} {e : TableEvent} {i j k : Nat} {s : Slot}
  {pid : Int}

theorem ProcTable.life_free : t.life k = .free ↔ (t.slot k).state = .unused := by
  unfold ProcTable.life
  cases (t.slot k).state with
  | unused => exact ⟨fun _ => rfl, fun _ => rfl⟩
  | used | sleeping | runnable | running | zombie => exact ⟨nofun, nofun⟩

theorem SlotStep.other (hk : t'.slot k = t.slot k) (hno : e.makes k = false) :
    SlotStep t t' e k := by
  refine .same ?_ ?_ ?_ hno
  · rw [hk]
  · rw [hk]
  · rw [ProcTable.life_free, ProcTable.life_free, hk]

/-- A slot gets a new value that differs in nothing that matters here. -/
theorem SlotStep.setSlot (i : Nat) (s : Slot) (hpid : s.pid = (t.slot i).pid)
    (hkilled : s.killed = (t.slot i).killed) (hfree : s.state.life = .free ↔ t.life i = .free)
    (hno : ∀ k, e.makes k = false)
    (hslot : t'.slot = (t.setSlot i s).slot) : SlotStep t t' e k := by
  by_cases heq : k = i
  · subst heq
    have hk : t'.slot k = s := (congrFun hslot k).trans (t.setSlot_self k s)
    refine .same ?_ ?_ ?_ (hno k)
    · rw [hk, hpid]
    · rw [hk, hkilled]
    · rw [← hfree, ← hk]
      rfl
  · exact .other ((congrFun hslot k).trans (t.setSlot_of_ne s heq)) (hno k)

theorem SlotStep.free (hslot : ∀ m, m ≠ j → t'.slot m = t.slot m)
    (hj : t'.slot j = .zero) (hno : ∀ k, e.makes k = false) : SlotStep t t' e k := by
  by_cases heq : k = j
  · subst heq
    refine .freed ?_ ?_ ?_
    · exact ProcTable.life_of_state (congrArg Slot.state hj)
    · rw [hj]
      rfl
    · rw [hj]
      rfl
  · exact .other (hslot k heq) (hno k)

theorem kkill_step : SlotStep t (t.kkill pid).2 (.kill pid) k := by
  unfold ProcTable.kkill
  split
  · exact .other rfl rfl
  · next j hfind =>
    have hf := List.find?_some hfind
    have hlt := List.mem_range.mp (List.mem_of_find?_eq_some hfind)
    by_cases heq : k = j
    · subst heq
      have hpid : (t.slot k).pid = pid := of_decide_eq_true hf
      refine .killed ?_ ?_ hlt (by rw [hpid])
      · dsimp only
        rw [ProcTable.setSlot_self]
      rw [ProcTable.life_free, ProcTable.life_free]
      rw [ProcTable.setSlot_self]
      split
      · next hs =>
        rw [hs]
        exact ⟨fun h => (by cases h), fun h => (by cases h)⟩
      · exact Iff.rfl
    · exact .other (t.setSlot_of_ne _ heq) rfl

theorem waitTurn_step {ok : Bool} {o : Option Reaped} (hf : Family t)
    (hs : t.waitTurn i ok = some (o, t')) : SlotStep t t' (.waitTurn i ok) k := by
  obtain ⟨addr, pp, kids, hw, hres⟩ := waitTurn_cases hs
  have hlive : t.life i = .alive := hf.busy i (by rw [hw]; exact nofun)
  rcases hres with ⟨_, rfl⟩ | ⟨_, kids', rfl⟩ | ⟨_, rfl⟩ | ⟨_, _, _, rfl⟩
  · exact .other rfl rfl
  · exact .other rfl rfl
  · refine .setSlot i { t.slot i with state := .sleeping } rfl rfl ?_ (fun _ => rfl) rfl
    rw [hlive]
    exact ⟨nofun, nofun⟩
  · exact .free (fun m hm => ProcTable.setSlot_of_ne _ _ hm)
      (ProcTable.setSlot_self _ _ _) fun _ => rfl

/-- What a step does to one slot. -/
theorem step_slot (hf : Family t) (hs : t.step e = some t') (k : Nat) : SlotStep t t' e k := by
  cases ProcTable.stepped hs with
  | @moved _ i st hq hi hst =>
    refine .setSlot i { t.slot i with state := st } rfl rfl ?_ (fun _ => ?_) rfl
    · rw [hi]
      exact hst ▸ Iff.rfl
    · cases e <;> first | rfl | cases hq
  | kill => exact kkill_step
  | @setkilled i hi =>
    by_cases heq : k = i
    · subst heq
      refine .self ?_ ?_ rfl
      · rw [ProcTable.setSlot_self]
      · rw [life_setSlot, if_pos rfl]
        exact fun hl => by cases hi.symm.trans hl
    · exact .other (t.setSlot_of_ne _ heq) rfl
  | @fork i j _ _ _ hfree =>
    by_cases heq : k = j
    · subst heq
      have hself := t.setSlot_self k
        { t.slot k with state := .used, pid := t.nextpid }
      refine .made hfree ?_ ((congrArg Slot.killed hself).trans rfl)
      intro hl
      cases (ProcTable.life_free.mp hl).symm.trans (congrArg Slot.state hself)
    · exact .other (t.setSlot_of_ne _ heq) (decide_eq_false fun h => heq h.symm)
  | forkFail =>
    exact .free (fun m hm => forkFail_slot t hm) (ProcTable.setSlot_self _ _ _) fun _ => rfl
  | @forkParent i j =>
    exact .setSlot j { t.slot j with parent := some i } rfl rfl Iff.rfl (fun _ => rfl) rfl
  | @forkRun i j hw =>
    refine .setSlot j { t.slot j with state := .runnable } rfl rfl ?_ (fun _ => rfl) rfl
    rw [hf.made i j (.inr hw)]
    exact ⟨nofun, nofun⟩
  | exit => exact .other rfl rfl
  | @reparent i pp =>
    exact .setSlot pp { t.slot pp with parent := some t.initproc } rfl rfl
      Iff.rfl (fun _ => rfl) rfl
  | passed => exact .other rfl rfl
  | @zombie i pp status hw =>
    refine .setSlot i { t.slot i with xstate := status, state := .zombie }
      rfl rfl ?_ (fun _ => rfl) rfl
    rw [hf.busy i (by rw [hw]; exact nofun)]
    exact ⟨nofun, nofun⟩
  | wait => exact .other rfl rfl
  | waitTurn hturn => exact waitTurn_step hf hturn

end

-- == every run

/-- Free slots have pid 0 and are not killed, and a process that is killed
was killed since it was made. -/
structure KillRun.Blamed (q : KillRun) : Prop where
  family : Family q.r.t
  free : ∀ k, q.r.t.life k = .free → (q.r.t.slot k).pid = 0 ∧ (q.r.t.slot k).killed = false
  blamed : ∀ k, q.r.t.life k ≠ .free → (q.r.t.slot k).killed = true →
    .kill (q.r.t.slot k).pid ∈ q.since k ∨ .setkilled k ∈ q.since k

section

variable {q q' : KillRun} {e : TableEvent} {k : Nat} {pid : Int}

/-- A kill that meets the condition does not find a free slot. -/
theorem KillRun.Blamed.used (h : q.Blamed) (hk : k < nproc)
    (ha : KillsUsed q.r.t (q.r.t.slot k).pid) : q.r.t.life k ≠ .free := by
  intro hfree
  rcases ha with hne | hall
  · exact hne (h.free k hfree).1
  · exact hall k hk (ProcTable.life_free.mp hfree)

theorem KillRun.Blamed.step (h : q.Blamed) (hs : KillStep q q') : q'.Blamed := by
  obtain ⟨e, ha, he⟩ := hs
  obtain ⟨r, hr, rfl⟩ := Option.map_eq_some_iff.mp he
  obtain ⟨t', ht, rfl⟩ := Option.map_eq_some_iff.mp hr
  have hslot := step_slot h.family ht
  have hrec := q.r.record_t t' e
  refine ⟨?_, fun k hk => ?_, fun k hk hkilled => ?_⟩
  · rw [hrec]
    exact h.family.step ht
  · dsimp only at hk ⊢
    rw [hrec] at hk ⊢
    cases hslot k with
    | same hpid hkill hfree _ =>
      rw [hpid, hkill]
      exact h.free k (hfree.mp hk)
    | freed _ hpid hkill => exact ⟨hpid, hkill⟩
    | made _ hnew _ => exact absurd hk hnew
    | killed _ hfree hlt heq =>
      subst heq
      exact absurd (hfree.mp hk) (h.used hlt ha)
    | self _ hused _ => exact absurd hk hused
  · dsimp only at hk hkilled ⊢
    rw [hrec] at hk hkilled ⊢
    cases hslot k with
    | same hpid hkill hfree hno =>
      rw [hkill] at hkilled
      rw [hpid, hno]
      have hold := h.blamed k (fun hf => hk (hfree.mpr hf)) hkilled
      exact hold.imp (List.mem_cons_of_mem _) (List.mem_cons_of_mem _)
    | freed hfree _ _ => exact absurd hfree hk
    | made hold _ hkill =>
      -- a slot that was free is not killed
      rw [hkill, (h.free k hold).2] at hkilled
      cases hkilled
    | killed hpid _ _ heq =>
      subst heq
      rw [hpid]
      exact .inl List.mem_cons_self
    | self _ _ heq =>
      subst heq
      exact .inr List.mem_cons_self

theorem KillRun.blamed_boot : KillRun.boot.Blamed := by
  refine ⟨family_boot, fun k hk => ?_, fun k _ hkilled => ?_⟩
  · have hne : k ≠ 0 := by
      rintro rfl
      cases hk
    have hslot : ProcTable.boot.slot k = .zero := if_neg hne
    show (ProcTable.boot.slot k).pid = 0 ∧ (ProcTable.boot.slot k).killed = false
    rw [hslot]
    exact ⟨rfl, rfl⟩
  · have hno : (ProcTable.boot.slot k).killed = false := by
      unfold ProcTable.boot
      dsimp only
      split <;> rfl
    have hyes : (ProcTable.boot.slot k).killed = true := hkilled
    rw [hno] at hyes
    cases hyes

theorem KillRun.Blamed.law (h : q.Blamed) (ha : KillsUsed q.r.t pid) : KillLaw q.r.t pid := by
  unfold KillLaw ProcTable.kkill
  split
  · exact ⟨fun h => absurd h Bool.false_ne_true, fun _ => rfl⟩
  · next j hfind =>
    have hpid : (q.r.t.slot j).pid = pid := by
      have hf := List.find?_some hfind
      exact of_decide_eq_true hf
    have hlt := List.mem_range.mp (List.mem_of_find?_eq_some hfind)
    refine ⟨fun _ => ⟨j, hlt, ?_, hpid, ?_, true,
      if (q.r.t.slot j).state = .sleeping then .runnable
        else (q.r.t.slot j).state, ?_⟩, fun h => absurd h.symm Bool.false_ne_true⟩
    · exact fun hu => h.used hlt (hpid.symm ▸ ha) (ProcTable.life_free.mpr hu)
    · exact fun k hk => q.r.t.setSlot_of_ne _ hk
    · exact q.r.t.setSlot_self j _

end

/-- In a run without kills for a free slot, every such kill reaches the
process it names and nothing else, a process that allocproc returns is not
killed, and a process that is killed was so by a kill with its pid since it
was made, or by itself. -/
theorem kills_reach_their_target {q : KillRun}
    (hr : Reaches KillStep .boot q) :
    (∀ pid, KillsUsed q.r.t pid → KillLaw q.r.t pid)
    ∧ (∀ j, (q.r.t.slot j).state = .unused →
      ((q.r.t.allocproc j).slot j).killed = false)
    ∧ (∀ j, (q.r.t.slot j).state ≠ .unused → (q.r.t.slot j).killed = true →
      .kill (q.r.t.slot j).pid ∈ q.since j ∨ .setkilled j ∈ q.since j) := by
  have hq : q.Blamed :=
    hr.inv KillRun.blamed_boot fun _ _ h hs => h.step hs
  refine ⟨fun pid ha => hq.law ha, fun j hj => ?_, fun j hj hk => ?_⟩
  · have hself := congrArg Slot.killed (q.r.t.setSlot_self j
      { q.r.t.slot j with state := .used, pid := q.r.t.nextpid })
    exact hself.trans (hq.free j (ProcTable.life_free.mpr hj)).2
  · exact hq.blamed j (fun hf => hj (ProcTable.life_free.mp hf)) hk

/-- init forks a child and kills it. -/
theorem kills_reach_their_target_child : ∃ q, Reaches KillStep .boot q
    ∧ (q.r.t.slot 1).state = .runnable ∧ (q.r.t.slot 1).killed = true
    ∧ (.kill 2 ∈ q.since 1 ∨ .setkilled 1 ∈ q.since 1) := by
  have hrun : Reaches KillStep .boot _ :=
    (((((Reaches.refl KillRun.boot).step ⟨.run 0, trivial, rfl⟩).step
      ⟨.fork 0 1, trivial, rfl⟩).step ⟨.forkParent 0, trivial, rfl⟩).step
      ⟨.forkRun 0, trivial, rfl⟩).step ⟨.kill 2, .inl (by decide), rfl⟩
  exact ⟨_, hrun, rfl, rfl, (kills_reach_their_target hrun).2.2 1 nofun rfl⟩

/-- kill(0) succeeds on a free slot, and the child that is then forked is
killed, although nobody called kill with its pid. -/
theorem kill_zero_kills_child : ∃ t t',
    play ProcTable.step .boot [.run 0] = some t
    ∧ (t.kkill 0).1 = true
    ∧ (∀ j, j < nproc → (t.slot j).pid = 0 → (t.slot j).state = .unused)
    ∧ play ProcTable.step .boot
      [.run 0, .kill 0, .fork 0 1, .forkParent 0, .forkRun 0] = some t'
    ∧ (t'.slot 1).state = .runnable ∧ (t'.slot 1).pid = 2
    ∧ (t'.slot 1).killed = true :=
  ⟨_, _, rfl, rfl, by decide, rfl, rfl, rfl, rfl⟩

end Xv6Labs.Model
