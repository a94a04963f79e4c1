/-
Parents and children over every interleaving of fork, exit and wait.

`Family` is about parent pointers: a parent is alive, since it becomes a
zombie only after reparent has been through the whole table. Both it and
`Pids` look at a state only up to `ProcState.life`, so the scheduler's
steps, sleeps and kills keep them for one reason (`Alike`).
-/
import Xv6Labs.Lib.Overlay
import Xv6Labs.Model.ProcTable

namespace Xv6Labs.Model

open Lib

variable {w : Where} {pp : Nat} {e : TableEvent} {status : Int} {ok : Bool}
  {o : Option Reaped}

-- == lives of a slot

/-- What a state says about the slot's use. -/
inductive Life where
  | free
  | made
  | alive
  | dead
deriving DecidableEq, Repr

def ProcState.life : ProcState → Life
  | .unused => .free
  | .used => .made
  | .sleeping => .alive
  | .runnable => .alive
  | .running => .alive
  | .zombie => .dead

/-- The life of slot `j`. -/
def ProcTable.life (t : ProcTable) (j : Nat) : Life := (t.slot j).state.life

/-- The parent pointer of slot `j`. -/
def ProcTable.parent (t : ProcTable) (j : Nat) : Option Nat := (t.slot j).parent

/-- Tables that differ in nothing that parents and pids depend on. -/
structure Alike (t t' : ProcTable) : Prop where
  life : ∀ j, t'.life j = t.life j
  parent : ∀ j, t'.parent j = t.parent j
  pid : ∀ j, (t'.slot j).pid = (t.slot j).pid
  xstate : ∀ j, (t'.slot j).xstate = (t.slot j).xstate
  place : t'.place = t.place
  waitLock : t'.waitLock = t.waitLock
  nextpid : t'.nextpid = t.nextpid
  initproc : t'.initproc = t.initproc

section

variable {t t' : ProcTable} {i j : Nat} {s : Slot}

theorem ProcTable.setSlot_self (t : ProcTable) (i : Nat) (s : Slot) :
    (t.setSlot i s).slot i = s := if_pos rfl

theorem ProcTable.setSlot_of_ne (t : ProcTable) (s : Slot) (h : j ≠ i) :
    (t.setSlot i s).slot j = t.slot j := if_neg h

/-- A slot changes its state or its killed flag, and not its life. -/
theorem Alike.setSlot (hl : s.state.life = t.life i)
    (hp : s.parent = t.parent i) (hpid : s.pid = (t.slot i).pid)
    (hx : s.xstate = (t.slot i).xstate) : Alike t (t.setSlot i s) := by
  refine ⟨fun j => ?_, fun j => ?_, fun j => ?_, fun j => ?_, rfl, rfl, rfl, rfl⟩
  all_goals by_cases hj : j = i
  all_goals simp only [ProcTable.life, ProcTable.parent, ProcTable.setSlot, hj, if_true, if_false]
  · exact hl
  · exact hp
  · exact hpid
  · exact hx

theorem kkill_alike (t : ProcTable) (pid : Int) : Alike t (t.kkill pid).2 := by
  unfold ProcTable.kkill
  split
  · exact ⟨fun _ => rfl, fun _ => rfl, fun _ => rfl, fun _ => rfl, rfl, rfl, rfl, rfl⟩
  · next j _ =>
    refine .setSlot ?_ rfl rfl rfl
    split
    · next hs =>
      unfold ProcTable.life
      rw [hs]
      rfl
    · rfl

/-- The events that only move a process between the states of a live one,
or set its killed flag. -/
def TableEvent.quiet : TableEvent → Bool
  | .run _ | .yield _ | .sleep _ | .wakeup _ | .kill _ | .setkilled _ => true
  | _ => false

theorem ProcTable.idle_iff :
    t.idle i = true ↔ i < nproc ∧ (t.slot i).state = .running ∧ t.place i = .elsewhere :=
  decide_eq_true_iff

theorem ProcTable.life_of_state {st : ProcState} (h : (t.slot i).state = st) : t.life i = st.life :=
  congrArg ProcState.life h

/-- What an event has done, once it has happened. -/
inductive ProcTable.Stepped (t : ProcTable) : TableEvent → ProcTable → Prop where
  /-- run, yield, sleep and wakeup -/
  | moved {e : TableEvent} {i : Nat} {st : ProcState} (hq : e.quiet = true)
      (hi : t.life i = .alive) (hst : st.life = .alive) :
      t.Stepped e (t.setSlot i { t.slot i with state := st })
  | kill (pid : Int) : t.Stepped (.kill pid) (t.kkill pid).2
  | setkilled {i : Nat} (hi : t.life i = .alive) :
      t.Stepped (.setkilled i) (t.setSlot i { t.slot i with killed := true })
  | fork {i j : Nat} (hi : t.life i = .alive) (hw : t.place i = .elsewhere)
      (hj : j < nproc) (hfree : t.life j = .free) :
      t.Stepped (.fork i j) ((t.allocproc j).goto i (.forkParent j))
  | forkFail {i j : Nat} (hfree : t.life j = .free) :
      t.Stepped (.forkFail i j) ((t.allocproc j).freeproc j)
  | forkParent {i j : Nat} (hw : t.place i = .forkParent j) :
      t.Stepped (.forkParent i)
        ((t.setSlot j { t.slot j with parent := some i }).goto i (.forkRun j))
  | forkRun {i j : Nat} (hw : t.place i = .forkRun j) :
      t.Stepped (.forkRun i) ((t.setSlot j { t.slot j with state := .runnable }).goto i .elsewhere)
  | exit {i : Nat} {status : Int} (hi : t.life i = .alive)
      (hw : t.place i = .elsewhere) (hinit : i ≠ t.initproc) :
      t.Stepped (.exit i status)
        { t.goto i (.exiting status 0) with waitLock := some i }
  | reparent {i pp : Nat} {status : Int} (hw : t.place i = .exiting status pp)
      (hchild : t.parent pp = some i) :
      t.Stepped (.exitTurn i)
        ((t.setSlot pp { t.slot pp with parent := some t.initproc }).goto i
          (.exiting status (pp + 1)))
  /-- reparent's loop at a slot that is no child -/
  | passed {i pp : Nat} {status : Int} (hw : t.place i = .exiting status pp)
      (hother : t.parent pp ≠ some i) :
      t.Stepped (.exitTurn i) (t.goto i (.exiting status (pp + 1)))
  | zombie {i pp : Nat} {status : Int} (hw : t.place i = .exiting status pp)
      (hpp : nproc ≤ pp) :
      t.Stepped (.exitTurn i) { (t.setSlot i { t.slot i with
        xstate := status, state := .zombie }).goto i .elsewhere with
        waitLock := none }
  | wait {i addr : Nat} (hi : t.life i = .alive)
      (hw : ∀ status pp, t.place i ≠ .exiting status pp) :
      t.Stepped (.wait i addr)
        { t.goto i (.waiting addr 0 false) with waitLock := some i }
  | waitTurn {i : Nat} {ok : Bool} {o : Option Reaped} {t' : ProcTable}
      (hturn : t.waitTurn i ok = some (o, t')) :
      t.Stepped (.waitTurn i ok) t'

theorem exitTurn_stepped (h : t.exitTurn i = some t') : t.Stepped (.exitTurn i) t' := by
  unfold ProcTable.exitTurn at h
  split at h
  · next status pp hw =>
    split at h
    · cases h
      unfold ProcTable.reparent
      split
      · next hchild => exact .reparent hw hchild
      · next hother => exact .passed hw hother
    · next hpp =>
      cases h
      exact .zombie hw (by omega)
  · cases h

theorem ProcTable.stepped (h : t.step e = some t') : t.Stepped e t' := by
  cases e with
  | run i | wakeup i =>
    obtain ⟨hc, ⟨⟩⟩ := Option.ite_none_right_eq_some.mp h
    exact .moved rfl (life_of_state hc.2) rfl
  | yield i =>
    obtain ⟨hc, ⟨⟩⟩ := Option.ite_none_right_eq_some.mp h
    exact .moved rfl (life_of_state hc.2.1) rfl
  | sleep i =>
    obtain ⟨hc, ⟨⟩⟩ := Option.ite_none_right_eq_some.mp h
    exact .moved rfl (life_of_state (idle_iff.mp hc).2.1) rfl
  | fork i j =>
    obtain ⟨⟨hc, hj, hfree⟩, ⟨⟩⟩ := Option.ite_none_right_eq_some.mp h
    obtain ⟨_, hrun, hw⟩ := idle_iff.mp hc
    exact .fork (life_of_state hrun) hw hj (life_of_state hfree)
  | forkFail i j =>
    obtain ⟨hc, ⟨⟩⟩ := Option.ite_none_right_eq_some.mp h
    exact .forkFail (life_of_state hc.2.2)
  | forkParent i =>
    simp only [ProcTable.step] at h
    split at h
    · next j hw =>
      obtain ⟨_, ⟨⟩⟩ := Option.ite_none_right_eq_some.mp h
      exact .forkParent hw
    · cases h
  | forkRun i =>
    simp only [ProcTable.step] at h
    split at h
    · next j hw =>
      obtain ⟨_, ⟨⟩⟩ := Option.ite_none_right_eq_some.mp h
      exact .forkRun hw
    · cases h
  | exit i status =>
    obtain ⟨⟨hc, hinit, _⟩, ⟨⟩⟩ := Option.ite_none_right_eq_some.mp h
    obtain ⟨_, hrun, hw⟩ := idle_iff.mp hc
    exact .exit (life_of_state hrun) hw hinit
  | exitTurn i => exact exitTurn_stepped h
  | wait i addr =>
    obtain ⟨⟨_, hrun, _, hw⟩, ⟨⟩⟩ := Option.ite_none_right_eq_some.mp h
    refine .wait (life_of_state hrun) fun status pp hp => ?_
    rcases hw with hw | hw
    all_goals cases hw.symm.trans hp
  | waitTurn i ok =>
    obtain ⟨⟨o, t''⟩, hturn, rfl⟩ := Option.map_eq_some_iff.mp h
    exact .waitTurn hturn
  | kill pid =>
    cases h
    exact .kill pid
  | setkilled i =>
    obtain ⟨hc, ⟨⟩⟩ := Option.ite_none_right_eq_some.mp h
    exact .setkilled (life_of_state (idle_iff.mp hc).2.1)

end

-- == families

/-- Does a process at `w` fork into slot `j`? -/
def Where.forks (w : Where) (j : Nat) : Prop := w = .forkParent j ∨ w = .forkRun j

theorem Where.not_forks (h : ∀ j, w ≠ .forkParent j)
    (h' : ∀ j, w ≠ .forkRun j) (j : Nat) : ¬ w.forks j := by
  rintro (hj | hj)
  · exact h j hj
  · exact h' j hj

/-- The parent pointers are in order, and so is who is where. -/
structure Family (t : ProcTable) : Prop where
  init : t.life t.initproc = .alive
  outside : ∀ j, nproc ≤ j → t.life j = .free
  orphan : ∀ j, t.life j = .free → t.parent j = none
  parent : ∀ j p, t.parent j = some p → t.life p = .alive
  child : ∀ j, j ≠ t.initproc → t.life j = .alive ∨ t.life j = .dead → t.parent j ≠ none
  busy : ∀ i, t.place i ≠ .elsewhere → t.life i = .alive
  made : ∀ i j, (t.place i).forks j → t.life j = .made
  linked : ∀ i j, t.place i = .forkRun j → t.parent j = some i
  one : ∀ i i' j, (t.place i).forks j → (t.place i').forks j → i = i'
  leaving : ∀ i status pp, t.place i = .exiting status pp →
    i ≠ t.initproc ∧ ∀ j, j < pp → t.parent j ≠ some i

section

variable {t t' : ProcTable} {i j np : Nat}

/-- A family depends on lives, parents, places and who is init. -/
theorem Family.congr (h : Family t) (hl : t'.life = t.life)
    (hp : t'.parent = t.parent) (hpl : t'.place = t.place)
    (hi : t'.initproc = t.initproc) : Family t' := by
  obtain ⟨h1, h2, h3, h4, h5, h6, h7, h8, h9, h10⟩ := h
  rw [← hl] at h1 h2 h3 h4 h5 h6 h7
  rw [← hp] at h3 h4 h5 h8 h10
  rw [← hpl] at h6 h7 h8 h9 h10
  rw [← hi] at h1 h5 h10
  exact ⟨h1, h2, h3, h4, h5, h6, h7, h8, h9, h10⟩

theorem Family.alike (h : Family t) (ha : Alike t t') : Family t' :=
  h.congr (funext ha.life) (funext ha.parent) ha.place ha.initproc

theorem Family.lt (h : Family t) (hl : t.life i ≠ .free) : i < nproc := by
  by_contra hge
  exact hl (h.outside i (by omega))

theorem life_setSlot (t : ProcTable) (i : Nat) (s : Slot) (j : Nat) :
    (t.setSlot i s).life j = if j = i then s.state.life else t.life j := by
  unfold ProcTable.life ProcTable.setSlot
  dsimp only
  split <;> rfl

theorem parent_setSlot (t : ProcTable) (i : Nat) (s : Slot) (j : Nat) :
    (t.setSlot i s).parent j = if j = i then s.parent else t.parent j := by
  unfold ProcTable.parent ProcTable.setSlot
  dsimp only
  split <;> rfl

theorem life_setSlot_same {s : Slot} (h : s.state.life = t.life j) (k : Nat) :
    (t.setSlot j s).life k = t.life k := by
  rw [life_setSlot]
  split
  · next heq => rw [heq, h]
  · rfl

/-- A process goes on to another place. -/
theorem Family.place (h : Family t) (hi : w ≠ .elsewhere → t.life i = .alive)
    (hfork : ∀ j, w.forks j → t.life j = .made ∧ ∀ k, (t.place k).forks j → k = i)
    (hlink : ∀ j, w = .forkRun j → t.parent j = some i)
    (hexit : ∀ status pp, w = .exiting status pp →
      i ≠ t.initproc ∧ ∀ j, j < pp → t.parent j ≠ some i) :
    Family (t.goto i w) := by
  have hplace : ∀ k, (t.goto i w).place k = if k = i then w else t.place k := fun _ => rfl
  refine ⟨h.init, h.outside, h.orphan, h.parent, h.child, fun k hk => ?_,
    fun k j hk => ?_, fun k j hk => ?_, fun k k' j hk hk' => ?_,
    fun k status pp hk => ?_⟩
  · rw [hplace] at hk
    split at hk
    · next heq => exact heq ▸ hi hk
    · exact h.busy k hk
  · rw [hplace] at hk
    split at hk
    · exact (hfork j hk).1
    · exact h.made k j hk
  · rw [hplace] at hk
    split at hk
    · next heq => exact heq ▸ hlink j hk
    · exact h.linked k j hk
  · rw [hplace] at hk hk'
    split at hk
    · next heq =>
      split at hk'
      · next heq' => exact heq.trans heq'.symm
      · exact heq.trans ((hfork j hk).2 k' hk').symm
    · split at hk'
      · next heq' => exact ((hfork j hk').2 k hk).trans heq'.symm
      · exact h.one k k' j hk hk'
  · rw [hplace] at hk
    split at hk
    · next heq => exact heq ▸ hexit status pp hk
    · exact h.leaving k status pp hk

/-- A slot gets a new state and a new parent. If its process was alive, it
stays so, or it is in none of the functions and nobody's parent. -/
theorem Family.slot {s : Slot} (h : Family t) (hj : j < nproc)
    (hinit : j = t.initproc → s.state.life = .alive)
    (horphan : s.state.life = .free → s.parent = none)
    (hparent : ∀ p, s.parent = some p → t.parent j = some p
      ∨ (t.setSlot j s).life p = .alive ∧ ∀ status pp, t.place p ≠ .exiting status pp)
    (hlive : t.life j = .alive → s.state.life = .alive
      ∨ t.place j = .elsewhere ∧ ∀ k, t.parent k ≠ some j)
    (hchild : j ≠ t.initproc → s.state.life = .alive ∨ s.state.life = .dead → s.parent ≠ none)
    (hfork : ∀ k, (t.place k).forks j → s.state.life = .made
      ∧ (t.place k = .forkRun j → s.parent = some k)) :
    Family (t.setSlot j s) := by
  have hlife := life_setSlot t j s
  have hpar := parent_setSlot t j s
  have hpoint : ∀ k p, t.parent k = some p → (t.setSlot j s).life p = .alive := by
    intro k p hk
    have hp := h.parent k p hk
    rw [hlife]
    split
    · next heq =>
      subst heq
      exact (hlive hp).resolve_right fun hno => hno.2 k hk
    · exact hp
  refine ⟨?_, fun k hk => ?_, fun k hk => ?_, fun k p hk => ?_,
    fun k hk hl => ?_, fun k hk => ?_, fun k m hk => ?_, fun k m hk => ?_,
    h.one, fun k status pp hk => ?_⟩
  · rw [hlife]
    split
    · next heq => exact hinit heq.symm
    · exact h.init
  · rw [hlife, if_neg (by omega)]
    exact h.outside k hk
  · rw [hlife] at hk
    rw [hpar]
    split at hk
    · next heq =>
      rw [if_pos heq]
      exact horphan hk
    · next hne =>
      rw [if_neg hne]
      exact h.orphan k hk
  · rw [hpar] at hk
    split at hk
    · exact (hparent p hk).elim (hpoint j p) fun hp => hp.1
    · exact hpoint k p hk
  · rw [hlife] at hl
    rw [hpar]
    split at hl
    · next heq =>
      rw [if_pos heq]
      exact hchild (heq ▸ hk) hl
    · next hne =>
      rw [if_neg hne]
      exact h.child k hk hl
  · have hold := h.busy k hk
    rw [hlife]
    split
    · next heq =>
      subst heq
      exact (hlive hold).resolve_right fun hno => hk hno.1
    · exact hold
  · rw [hlife]
    split
    · next heq => exact (hfork k (heq ▸ hk)).1
    · exact h.made k m hk
  · rw [hpar]
    split
    · next heq =>
      subst heq
      exact (hfork k (.inr hk)).2 hk
    · exact h.linked k m hk
  · obtain ⟨hne, hno⟩ := h.leaving k status pp hk
    refine ⟨hne, fun m hm => ?_⟩
    rw [hpar]
    split
    · next heq =>
      intro hs
      rcases hparent k hs with ho | ⟨_, hp⟩
      · exact hno m hm (heq ▸ ho)
      · exact hp status pp hk
    · exact hno m hm

/-- A live process goes on to a place outside kfork and kexit. -/
theorem Family.calm (h : Family t) (hi : t.life i = .alive)
    (hf : ∀ j, ¬ w.forks j) (he : ∀ status pp, w ≠ .exiting status pp) : Family (t.goto i w) :=
  h.place (fun _ => hi) (fun j hj => absurd hj (hf j)) (fun j hj => absurd (.inr hj) (hf j))
    fun status pp hw => absurd hw (he status pp)

/-- kfork takes a free slot. -/
theorem Family.fork (h : Family t) (hi : t.life i = .alive)
    (hj : t.life j = .free) (hlt : j < nproc) :
    Family ((t.allocproc j).goto i (.forkParent j)) := by
  -- nobody else forks into a free slot
  have hnot : ∀ k, ¬ (t.place k).forks j := by
    intro k hk
    cases hj.symm.trans (h.made k j hk)
  have hij : i ≠ j := by
    rintro rfl
    cases hj.symm.trans hi
  have hslot : Family (t.setSlot j
      { t.slot j with state := .used, pid := t.nextpid }) := by
    refine h.slot hlt (fun he => ?_) nofun (fun p hp => .inl hp)
      (fun hl => ?_) nofun fun k hk => absurd hk (hnot k)
    · cases hj.symm.trans (he ▸ h.init)
    · cases hj.symm.trans hl
  have hplace := hslot.place (i := i) (w := .forkParent j) (fun _ => ?_)
    (fun m hm => ?_) nofun nofun
  · exact hplace.congr rfl rfl rfl rfl
  · rw [life_setSlot, if_neg hij]
    exact hi
  · rcases hm with hm | hm <;> cases hm
    rw [life_setSlot, if_pos rfl]
    exact ⟨rfl, fun k hk => absurd hk (hnot k)⟩

theorem forkFail_slot (t : ProcTable) {k : Nat} (hk : k ≠ j) :
    ((t.allocproc j).freeproc j).slot k = t.slot k :=
  (ProcTable.setSlot_of_ne _ _ hk).trans (ProcTable.setSlot_of_ne _ _ hk)

theorem forkFail_life (hj : t.life j = .free) (k : Nat) :
    ((t.allocproc j).freeproc j).life k = t.life k := by
  by_cases hk : k = j
  · rw [hk, hj]
    exact congrArg (ProcState.life ∘ Slot.state) (if_pos rfl)
  · exact congrArg (ProcState.life ∘ Slot.state) (forkFail_slot t hk)

theorem Family.forkFail (h : Family t) (hj : t.life j = .free) :
    Family ((t.allocproc j).freeproc j) := by
  refine h.congr (funext (forkFail_life hj)) (funext fun k => ?_) rfl rfl
  by_cases hk : k = j
  · rw [hk, h.orphan j hj]
    exact congrArg Slot.parent (if_pos rfl)
  · exact congrArg Slot.parent (forkFail_slot t hk)

/-- kfork sets the parent of its child. -/
theorem Family.forkParent (h : Family t) (hi : t.place i = .forkParent j) :
    Family ((t.setSlot j { t.slot j with parent := some i }).goto i (.forkRun j)) := by
  have hlive : t.life i = .alive := h.busy i (by rw [hi]; exact nofun)
  have hmade : t.life j = .made := h.made i j (.inl hi)
  have hlife := life_setSlot_same (s := { t.slot j with parent := some i }) rfl
  have hone : ∀ k, (t.place k).forks j → k = i := fun k hk => h.one k i j hk (.inl hi)
  have hslot : Family (t.setSlot j { t.slot j with parent := some i }) := by
    refine h.slot (h.lt (by rw [hmade]; exact nofun)) (fun he => he ▸ h.init)
      (fun hl => ?_) (fun p hp => ?_) (fun hl => ?_) (fun _ _ => Option.some_ne_none i)
      fun k hk => ⟨hmade, fun _ => congrArg some (hone k hk).symm⟩
    · cases hmade.symm.trans hl
    · cases hp
      exact .inr ⟨(hlife i).trans hlive, by rw [hi]; exact nofun⟩
    · cases hmade.symm.trans hl
  refine hslot.place (fun _ => (hlife i).trans hlive) (fun m hm => ?_) (fun m hm => ?_) nofun
  · rcases hm with hm | hm <;> cases hm
    exact ⟨(hlife j).trans hmade, hone⟩
  · cases hm
    rw [parent_setSlot, if_pos rfl]

/-- The child of a fork is made runnable. -/
theorem Family.forkRun (h : Family t) (hi : t.place i = .forkRun j) :
    Family ((t.setSlot j { t.slot j with state := .runnable }).goto i .elsewhere) := by
  have hlive : t.life i = .alive := h.busy i (by rw [hi]; exact nofun)
  have hmade : t.life j = .made := h.made i j (.inr hi)
  have hgone := h.calm (w := .elsewhere) hlive (Where.not_forks nofun nofun) nofun
  have hslot := hgone.slot (s := { t.slot j with state := .runnable })
    (h.lt (by rw [hmade]; exact nofun)) (fun _ => rfl) nofun
    (fun p hp => .inl hp) (fun _ => .inl rfl) (fun _ _ => ?_) fun k hk => ?_
  · exact hslot
  · have hlink : (t.slot j).parent = some i := h.linked i j hi
    exact hlink ▸ Option.some_ne_none i
  · have hk' : (if k = i then Where.elsewhere else t.place k).forks j := hk
    split at hk'
    · rcases hk' with hk' | hk' <;> cases hk'
    · next hne => exact absurd (h.one k i j hk' (.inr hi)) hne

/-- kexit, at its start or after a turn of reparent's loop: the slots below
`pp` do not point to it. -/
theorem Family.exiting (h : Family t) (status : Int) (hl : t.life i = .alive) (hi : i ≠ t.initproc)
    (hbelow : ∀ m, m < pp → t.parent m ≠ some i) : Family (t.goto i (.exiting status pp)) := by
  refine h.place (fun _ => hl) (fun j hj => ?_) nofun fun status' pp' hw => ?_
  · rcases hj with hj | hj <;> cases hj
  cases hw
  exact ⟨hi, hbelow⟩

/-- A turn of reparent's loop hands a child to init. -/
theorem Family.reparent (h : Family t)
    (hi : t.place i = .exiting status pp) (hchild : t.parent pp = some i) :
    Family ((t.setSlot pp { t.slot pp with parent := some t.initproc }).goto i
      (.exiting status (pp + 1))) := by
  obtain ⟨hinit, hbelow⟩ := h.leaving i status pp hi
  have hlife := life_setSlot_same (s := { t.slot pp with parent := some t.initproc }) rfl
  have hused : t.life pp ≠ .free := by
    intro hfree
    cases hchild.symm.trans (h.orphan pp hfree)
  have hslot : Family (t.setSlot pp { t.slot pp with parent := some t.initproc }) := by
    refine h.slot (h.lt hused) (fun he => he ▸ h.init)
      (fun hl => absurd hl hused) (fun p hp => ?_) (fun hl => .inl hl)
      (fun _ _ => Option.some_ne_none _) fun k hk => ⟨h.made k pp hk, ?_⟩
    · cases hp
      exact .inr ⟨(hlife _).trans h.init, fun status' pp' hp => (h.leaving _ status' pp' hp).1 rfl⟩
    · -- a slot being forked points to its forker, which is not exiting
      intro hrun
      cases (h.linked k pp hrun).symm.trans hchild
      cases hi.symm.trans hrun
  refine hslot.exiting status
    ((hlife i).trans (h.busy i (by rw [hi]; exact nofun))) hinit fun m hm => ?_
  rw [parent_setSlot]
  split
  · exact fun he => hinit (Option.some.inj he).symm
  · exact hbelow m (by omega)

theorem Family.zombie (h : Family t) (hi : t.place i = .exiting status pp) (hpp : nproc ≤ pp) :
    Family ((t.setSlot i { t.slot i with
      xstate := status, state := .zombie }).goto i .elsewhere) := by
  obtain ⟨hinit, hbelow⟩ := h.leaving i status pp hi
  have hlive : t.life i = .alive := h.busy i (by rw [hi]; exact nofun)
  have hnone : ∀ m, t.parent m ≠ some i := by
    intro m
    by_cases hm : m < pp
    · exact hbelow m hm
    · rw [h.orphan m (h.outside m (by omega))]
      exact nofun
  have hgone := h.calm (w := .elsewhere) hlive (Where.not_forks nofun nofun) nofun
  have hslot := hgone.slot (s := { t.slot i with xstate := status, state := .zombie })
    (h.lt (by rw [hlive]; exact nofun)) (fun he => absurd he hinit) nofun
    (fun p hp => .inl hp) (fun _ => .inr ⟨if_pos rfl, hnone⟩)
    (fun hi _ => h.child i hi (.inl hlive)) fun k hk => ?_
  · exact hslot
  · cases hlive.symm.trans (hgone.made k i hk)

/-- kwait frees a zombie. -/
theorem Family.reap (h : Family t) (hj : t.life j = .dead) : Family (t.freeproc j) := by
  refine h.slot (h.lt (by rw [hj]; exact nofun)) (fun he => ?_) (fun _ => rfl)
    nofun (fun hl => ?_) (fun _ hl => ?_) fun k hk => ?_
  · cases hj.symm.trans (he ▸ h.init)
  · cases hj.symm.trans hl
  · rcases hl with hl | hl <;> cases hl
  · cases hj.symm.trans (h.made k j hk)

/-- wait_lock is no part of it. -/
theorem Family.lock (h : Family t) (o : Option Nat) :
    Family { t with waitLock := o } := h.congr rfl rfl rfl rfl

/-- A turn of kwait: the scan goes on, it ends, or it finds a child that has
exited and frees it. -/
theorem waitTurn_cases (h : t.waitTurn i ok = some (o, t')) :
    ∃ addr pp kids, t.place i = .waiting addr pp kids ∧
      ((o = none ∧ t' = { t.goto i .elsewhere with waitLock := none })
      ∨ (o = none ∧ ∃ kids', t' = t.goto i (.waiting addr (pp + 1) kids'))
      ∨ (o = none ∧ t' =
          { (t.setSlot i { t.slot i with state := .sleeping }).goto i
            (.waitSleep addr) with waitLock := none })
      ∨ t.parent pp = some i ∧ (t.slot pp).state = .zombie
        ∧ o = some ⟨i, pp, (t.slot pp).pid,
            if addr = 0 then none else some (addr, (t.slot pp).xstate)⟩
        ∧ t' = { t.goto i .elsewhere with waitLock := none }.freeproc pp) := by
  unfold ProcTable.waitTurn at h
  split at h
  · next addr pp kids hw =>
    refine ⟨addr, pp, kids, hw, ?_⟩
    dsimp only at h
    split at h
    · split at h
      · next hpar =>
        split at h
        · next hz =>
          split at h
          · next h0 =>
            cases h
            rw [if_pos h0]
            exact .inr (.inr (.inr ⟨hpar, hz, rfl, rfl⟩))
          · next h0 =>
            split at h
            · cases h
              rw [if_neg h0]
              exact .inr (.inr (.inr ⟨hpar, hz, rfl, rfl⟩))
            · cases h
              exact .inl ⟨rfl, rfl⟩
        · cases h
          exact .inr (.inl ⟨rfl, true, rfl⟩)
      · cases h
        exact .inr (.inl ⟨rfl, kids, rfl⟩)
    · split at h
      · cases h
        exact .inl ⟨rfl, rfl⟩
      · cases h
        exact .inr (.inr (.inl ⟨rfl, rfl⟩))
  · cases h

theorem Family.waitTurn (h : Family t) (hs : t.waitTurn i ok = some (o, t')) : Family t' := by
  obtain ⟨addr, pp, kids, hw, hres⟩ := waitTurn_cases hs
  have hlive : t.life i = .alive := h.busy i (by rw [hw]; exact nofun)
  have hcalm : ∀ w : Where, (∀ j, ¬ w.forks j) →
      (∀ status pp, w ≠ .exiting status pp) → Family (t.goto i w) :=
    fun w hf he => h.calm hlive hf he
  have helse := hcalm .elsewhere (Where.not_forks nofun nofun) nofun
  rcases hres with ⟨_, rfl⟩ | ⟨_, kids', rfl⟩ | ⟨_, rfl⟩ | ⟨_, hz, _, rfl⟩
  · exact helse.lock none
  · exact hcalm _ (Where.not_forks nofun nofun) nofun
  · -- it goes to sleep, and is alive as before
    have halike : Alike t (t.setSlot i { t.slot i with state := .sleeping }) :=
      .setSlot hlive.symm rfl rfl rfl
    have hsleep := (h.alike halike).calm (w := .waitSleep addr) ((halike.life i).trans hlive)
      (Where.not_forks nofun nofun) nofun
    exact hsleep.lock none
  · have hdead : t.life pp = .dead := by
      unfold ProcTable.life
      rw [hz]
      rfl
    exact (helse.lock none).reap hdead

/-- Every step keeps the family in order. -/
theorem Family.step (h : Family t) (hs : t.step e = some t') : Family t' := by
  cases ProcTable.stepped hs with
  | moved _ hi hst => exact h.alike (.setSlot (hst.trans hi.symm) rfl rfl rfl)
  | kill pid => exact h.alike (kkill_alike t pid)
  | setkilled => exact h.alike (.setSlot rfl rfl rfl rfl)
  | fork hi _ hj hfree => exact h.fork hi hfree hj
  | forkFail hfree => exact h.forkFail hfree
  | forkParent hw => exact h.forkParent hw
  | forkRun hw => exact h.forkRun hw
  | @exit i status hi _ hinit =>
    have hexit := h.exiting status hi hinit fun m hm => absurd hm (Nat.not_lt_zero m)
    exact hexit.lock (some i)
  | reparent hw hchild => exact h.reparent hw hchild
  | @passed i pp status hw hother =>
    obtain ⟨hinit, hbelow⟩ := h.leaving i status pp hw
    refine h.exiting status (h.busy i (by rw [hw]; exact nofun)) hinit fun m hm => ?_
    by_cases heq : m = pp
    · exact heq ▸ hother
    · exact hbelow m (by omega)
  | zombie hw hpp => exact (h.zombie hw hpp).lock none
  | @wait i addr hi =>
    exact (h.calm (w := .waiting addr 0 false) hi (Where.not_forks nofun nofun) nofun).lock (some i)
  | waitTurn hturn => exact h.waitTurn hturn

theorem family_boot : Family .boot := by
  have hlife : ∀ j, ProcTable.boot.life j = if j = 0 then .alive else .free := by
    intro j
    unfold ProcTable.life ProcTable.boot
    dsimp only
    split <;> rfl
  have hpar : ∀ j, ProcTable.boot.parent j = none := by
    intro j
    unfold ProcTable.parent ProcTable.boot
    dsimp only
    split <;> rfl
  refine ⟨rfl, fun j hj => ?_, fun j _ => hpar j, fun j p hp => ?_,
    fun j hj hl => ?_, fun i hi => absurd rfl hi, fun i j hf => ?_, nofun,
    fun i i' j hf => ?_, nofun⟩
  · rw [hlife, if_neg]
    rintro rfl
    exact absurd hj (by decide)
  · rw [hpar] at hp
    cases hp
  · have hne : j ≠ 0 := hj
    rw [hlife, if_neg hne] at hl
    rcases hl with hl | hl <;> cases hl
  · exact absurd hf (Where.not_forks (w := .elsewhere) nofun nofun j)
  · exact absurd hf (Where.not_forks (w := .elsewhere) nofun nofun j)

end

end Xv6Labs.Model
