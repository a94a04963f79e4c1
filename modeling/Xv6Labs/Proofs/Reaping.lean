/-
Pids, exits and waits over every interleaving.

`TableRun` is the process table with a record of the forks, exits and
waits. A pid is handed out once while fewer than `2^31 - 1` forks have been
made; a child that kwait returns leaves its slot in the same step, so no
later kwait finds it, and its status is the one it gave to kexit.
-/
import Xv6Labs.Proofs.Children

namespace Xv6Labs.Model

open Lib

-- == the record

/-- The process table and its record. -/
structure TableRun where
  t : ProcTable
  /-- calls of allocproc that found a slot -/
  forks : Nat
  /-- the pid of each process that called kexit, with the status -/
  exits : List (Int × Int)
  /-- what kwait returned, the last first -/
  reaped : List Reaped

/-- The record of a step to `t'`. -/
def TableRun.record (r : TableRun) (t' : ProcTable) : TableEvent → TableRun
  | .fork _ _ | .forkFail _ _ => { r with t := t', forks := r.forks + 1 }
  | .exit i status =>
    { r with t := t', exits := ((r.t.slot i).pid, status) :: r.exits }
  | .waitTurn i ok =>
    match r.t.waitTurn i ok with
    | some (some c, _) => { r with t := t', reaped := c :: r.reaped }
    | _ => { r with t := t' }
  | _ => { r with t := t' }

/-- One event, with its record. -/
def TableRun.next (r : TableRun) (e : TableEvent) : Option TableRun :=
  (r.t.step e).map fun t' => r.record t' e

/-- One step of any process. -/
def TableStep (r r' : TableRun) : Prop := ∃ e, r.next e = some r'

/-- The start. -/
def TableRun.boot : TableRun := ⟨.boot, 0, [], []⟩

theorem TableRun.record_t (r : TableRun) (t' : ProcTable) (e : TableEvent) :
    (r.record t' e).t = t' := by
  unfold TableRun.record
  split
  all_goals first | rfl | (split <;> rfl)

theorem TableRun.forks_le (r : TableRun) (t' : ProcTable) (e : TableEvent) :
    r.forks ≤ (r.record t' e).forks := by
  unfold TableRun.record
  split
  all_goals first | exact Nat.le_succ _ | exact Nat.le_refl _
                  | (split <;> exact Nat.le_refl _)

-- == the pids

/-- A process that has not called kexit. -/
def ProcTable.Staying (t : ProcTable) (j : Nat) : Prop :=
  (t.life j = .alive ∨ t.life j = .made) ∧ ∀ status pp, t.place j ≠ .exiting status pp

/-- Pids and statuses are in order. -/
structure Pids (r : TableRun) : Prop where
  next : r.t.nextpid = int32 (2 + r.forks)
  bound : ∀ j, r.t.life j ≠ .free → 1 ≤ (r.t.slot j).pid ∧ (r.t.slot j).pid ≤ 1 + r.forks
  distinct : ∀ i j, r.t.life i ≠ .free → r.t.life j ≠ .free →
    (r.t.slot i).pid = (r.t.slot j).pid → i = j
  /-- a process that was returned is in no slot -/
  gone : ∀ c ∈ r.reaped, c.pid ≤ 1 + r.forks ∧ ∀ j, r.t.life j ≠ .free → (r.t.slot j).pid ≠ c.pid
  once : (r.reaped.map Reaped.pid).Nodup
  exiting : ∀ i status pp, r.t.place i = .exiting status pp → ((r.t.slot i).pid, status) ∈ r.exits
  zombie : ∀ j, r.t.life j = .dead → ((r.t.slot j).pid, (r.t.slot j).xstate) ∈ r.exits
  /-- a process that did not call kexit is not on the list -/
  staying : ∀ x ∈ r.exits, x.1 ≤ 1 + r.forks ∧ ∀ j, r.t.Staying j → (r.t.slot j).pid ≠ x.1
  exitOnce : (r.exits.map Prod.fst).Nodup

section

variable {r r' : TableRun} {t' : ProcTable} {i j : Nat}
variable {s : Slot} {w : Where} {status : Int}

/-- The pid that allocproc hands out is new. -/
theorem Pids.nextpid_eq (h : Pids r) (hf : r.forks + 1 < 2 ^ 31 - 1) :
    r.t.nextpid = 2 + r.forks := by
  rw [h.next]
  unfold int32
  omega

theorem Pids.next_succ (h : Pids r) (hf : r.forks + 1 < 2 ^ 31 - 1) :
    int32 (r.t.nextpid + 1) = int32 (2 + (r.forks + 1 : Nat)) := by
  have hsum : (2 : Int) + r.forks + 1 = 2 + (r.forks + 1 : Nat) := by omega
  rw [h.nextpid_eq hf, hsum]

theorem ProcTable.Staying.used {t : ProcTable} (h : t.Staying j) : t.life j ≠ .free := by
  rcases h.1 with hl | hl
  · rw [hl]
    exact nofun
  · rw [hl]
    exact nofun

/-- A step that starts no kexit and returns no child, and after which every
slot in use was in use before. -/
theorem Pids.keep (h : Pids r) (hfam : Family t') {n : Nat} (hn : r.forks ≤ n)
    (hnext : t'.nextpid = int32 (2 + n))
    (hpid : ∀ j, t'.life j ≠ .free → r.t.life j ≠ .free ∧ (t'.slot j).pid = (r.t.slot j).pid)
    (hexit : ∀ i status pp, t'.place i = .exiting status pp →
      ∃ pp, r.t.place i = .exiting status pp)
    (hdead : ∀ j, t'.life j = .dead → r.t.life j = .dead ∧ (t'.slot j).xstate = (r.t.slot j).xstate
      ∨ ∃ pp, r.t.place j = .exiting (t'.slot j).xstate pp)
    (hstay : ∀ j, t'.Staying j → r.t.Staying j) : Pids { r with t := t', forks := n } := by
  refine ⟨hnext, fun j hj => ?_, fun i j hi hj hp => ?_,
    fun c hc => ?_, h.once, fun i status pp hi => ?_, fun j hj => ?_,
    fun x hx => ?_, h.exitOnce⟩
  all_goals dsimp only at *
  · have hb := h.bound j (hpid j hj).1
    rw [(hpid j hj).2]
    omega
  · rw [(hpid i hi).2, (hpid j hj).2] at hp
    exact h.distinct i j (hpid i hi).1 (hpid j hj).1 hp
  · have hle := (h.gone c hc).1
    refine ⟨by omega, fun j hj => ?_⟩
    rw [(hpid j hj).2]
    exact (h.gone c hc).2 j (hpid j hj).1
  · have hlive : t'.life i = .alive := hfam.busy i (by rw [hi]; exact nofun)
    obtain ⟨pp', hold⟩ := hexit i status pp hi
    rw [(hpid i (by rw [hlive]; exact nofun)).2]
    exact h.exiting i status pp' hold
  · rw [(hpid j (by rw [hj]; exact nofun)).2]
    rcases hdead j hj with ⟨hold, hx⟩ | ⟨pp, hold⟩
    · rw [hx]
      exact h.zombie j hold
    · exact h.exiting j _ pp hold
  · have hle := (h.staying x hx).1
    refine ⟨by omega, fun j hj => ?_⟩
    rw [(hpid j hj.used).2]
    exact (h.staying x hx).2 j (hstay j hj)

theorem Pids.turn (h : Pids r) (hfam : Family t')
    (hnext : t'.nextpid = r.t.nextpid) (hslot : ∀ k, t'.slot k = if k = j then s else r.t.slot k)
    (hplace : ∀ k, t'.place k = if k = i then w else r.t.place k)
    (hpid : s.state.life ≠ .free → r.t.life j ≠ .free ∧ s.pid = (r.t.slot j).pid)
    (hdead : s.state.life = .dead → r.t.life j = .dead ∧ s.xstate = (r.t.slot j).xstate
      ∨ ∃ pp, r.t.place j = .exiting s.xstate pp)
    (hstay : s.state.life = .alive ∨ s.state.life = .made →
      r.t.life j = .alive ∨ r.t.life j = .made)
    (hexit : ∀ status pp, w = .exiting status pp → ∃ pp, r.t.place i = .exiting status pp)
    (hleave : ∀ status pp, r.t.place i = .exiting status pp →
      (∃ pp, w = .exiting status pp) ∨ i = j ∧ s.state.life = .dead) :
    Pids { r with t := t' } := by
  have hlife : ∀ k, t'.life k = if k = j then s.state.life else r.t.life k := by
    intro k
    unfold ProcTable.life
    rw [hslot]
    split <;> rfl
  refine h.keep hfam (Nat.le_refl _) (hnext.trans h.next) (fun k hk => ?_)
    (fun k status pp hk => ?_) (fun k hk => ?_)
    fun k hk => ⟨?_, fun status pp hp => ?_⟩
  · rw [hlife] at hk
    rw [hslot]
    split at hk
    · next heq =>
      rw [if_pos heq, heq]
      exact hpid hk
    · next hne =>
      rw [if_neg hne]
      exact ⟨hk, rfl⟩
  · rw [hplace] at hk
    split at hk
    · next heq => exact heq ▸ hexit status pp hk
    · exact ⟨pp, hk⟩
  · rw [hlife] at hk
    rw [hslot]
    split at hk
    · next heq =>
      rw [if_pos heq, heq]
      exact hdead hk
    · next hne =>
      rw [if_neg hne]
      exact .inl ⟨hk, rfl⟩
  · have hl := hk.1
    rw [hlife] at hl
    split at hl
    · next heq => exact heq ▸ hstay hl
    · exact hl
  · by_cases heq : k = i
    · subst heq
      rcases hleave status pp hp with ⟨pp', hw⟩ | ⟨hij, hd⟩
      · exact hk.2 status pp' (by rw [hplace, if_pos rfl, hw])
      · have hl := hk.1
        rw [hlife, if_pos hij, hd] at hl
        rcases hl with hl | hl <;> cases hl
    · exact hk.2 status pp (by rw [hplace, if_neg heq, hp])

theorem Pids.alike (h : Pids r) (hf : Family r.t) (ha : Alike r.t t') :
    Pids { r with t := t' } := by
  refine h.keep (hf.alike ha) (Nat.le_refl _) (ha.nextpid.trans h.next) (fun j hj => ?_)
    (fun i status pp hi => ?_) (fun j hj => ?_) (fun j hj => ?_)
  · rw [ha.life] at hj
    exact ⟨hj, ha.pid j⟩
  · rw [ha.place] at hi
    exact ⟨pp, hi⟩
  · rw [ha.life] at hj
    exact .inl ⟨hj, ha.xstate j⟩
  · unfold ProcTable.Staying at hj ⊢
    rw [ha.life, ha.place] at hj
    exact hj

theorem Pids.fork (h : Pids r) (hf : Family r.t)
    (hlt : r.forks + 1 < 2 ^ 31 - 1) (hi : r.t.place i = .elsewhere) (hj : r.t.life j = .free) :
    Pids { r with t := (r.t.allocproc j).goto i (.forkParent j), forks := r.forks + 1 } := by
  have hnext := h.nextpid_eq hlt
  have hlife : ∀ k, ((r.t.allocproc j).goto i (.forkParent j)).life k
      = if k = j then .made else r.t.life k := life_setSlot r.t j _
  have hslot : ∀ k, ((r.t.allocproc j).goto i (.forkParent j)).slot k
      = if k = j then { r.t.slot j with state := .used, pid := r.t.nextpid }
        else r.t.slot k := fun _ => rfl
  have hplace : ∀ k, ((r.t.allocproc j).goto i (.forkParent j)).place k
      = if k = i then .forkParent j else r.t.place k := fun _ => rfl
  -- the slot was free, so nothing that is about used slots is about it
  have hused : ∀ k, r.t.life k ≠ .free → k ≠ j := by
    rintro k hk rfl
    exact hk hj
  have hnew : ∀ k, r.t.life k ≠ .free → (r.t.slot k).pid ≠ 2 + r.forks := by
    intro k hk heq
    have := (h.bound k hk).2
    omega
  refine ⟨?_, fun k hk => ?_, fun k m hk hm hp => ?_, fun c hc => ?_, h.once,
    fun k status pp hk => ?_, fun k hk => ?_, fun x hx => ?_, h.exitOnce⟩
  all_goals dsimp only at *
  · show int32 (r.t.nextpid + 1) = _
    exact h.next_succ hlt
  · rw [hlife] at hk
    rw [hslot]
    split
    · dsimp only
      omega
    · next hne =>
      rw [if_neg hne] at hk
      have := h.bound k hk
      omega
  · rw [hlife] at hk hm
    rw [hslot, hslot] at hp
    by_cases hkj : k = j
    · by_cases hmj : m = j
      · rw [hkj, hmj]
      · rw [if_neg hmj] at hm
        rw [if_pos hkj, if_neg hmj] at hp
        rw [hnext] at hp
        exact absurd hp.symm (hnew m hm)
    · rw [if_neg hkj] at hk
      rw [if_neg hkj] at hp
      by_cases hmj : m = j
      · rw [if_pos hmj] at hp
        rw [hnext] at hp
        exact absurd hp (hnew k hk)
      · rw [if_neg hmj] at hm hp
        exact h.distinct k m hk hm hp
  · obtain ⟨hle, hgone⟩ := h.gone c hc
    refine ⟨by omega, fun k hk => ?_⟩
    rw [hlife] at hk
    rw [hslot]
    split
    · dsimp only
      omega
    · next hne =>
      rw [if_neg hne] at hk
      exact hgone k hk
  · rw [hplace] at hk
    split at hk
    · cases hk
    · have hlive := hf.busy k (by rw [hk]; exact nofun)
      rw [hslot, if_neg (hused k (by rw [hlive]; exact nofun))]
      exact h.exiting k status pp hk
  · rw [hlife] at hk
    split at hk
    · cases hk
    · next hne =>
      rw [hslot, if_neg hne]
      exact h.zombie k hk
  obtain ⟨hle, hstay⟩ := h.staying x hx
  refine ⟨by omega, fun k hk => ?_⟩
  rw [hslot]
  split
  · dsimp only
    omega
  · next hne =>
    refine hstay k ⟨?_, fun status pp hp => ?_⟩
    · have hl := hk.1
      rw [hlife, if_neg hne] at hl
      exact hl
    refine hk.2 status pp ?_
    rw [hplace, if_neg]
    · exact hp
    · rintro rfl
      rw [hi] at hp
      cases hp

/-- A fork that fails uses up a pid. -/
theorem Pids.forkFail (h : Pids r) (hf : Family r.t)
    (hlt : r.forks + 1 < 2 ^ 31 - 1) (hj : r.t.life j = .free) :
    Pids { r with t := (r.t.allocproc j).freeproc j, forks := r.forks + 1 } := by
  have hlife := forkFail_life hj
  have hslot : ∀ k, ((r.t.allocproc j).freeproc j).life k ≠ .free →
      ((r.t.allocproc j).freeproc j).slot k = r.t.slot k := by
    intro k hk
    refine forkFail_slot r.t ?_
    rintro rfl
    exact hk ((hlife k).trans hj)
  refine h.keep (hf.forkFail hj) (Nat.le_succ _) (h.next_succ hlt)
    (fun k hk => ⟨hlife k ▸ hk, congrArg Slot.pid (hslot k hk)⟩) (fun k status pp hk => ⟨pp, hk⟩)
    (fun k hk => .inl ⟨(hlife k).symm.trans hk, ?_⟩)
    fun k hk => ⟨hlife k ▸ hk.1, hk.2⟩
  exact congrArg Slot.xstate (hslot k (by rw [hk]; exact nofun))

/-- kexit begins. -/
theorem Pids.exit (h : Pids r) (hl : r.t.life i = .alive)
    (hi : r.t.place i = .elsewhere) (o : Option Nat) :
    Pids { r with t := { r.t.goto i (.exiting status 0) with waitLock := o },
                  exits := ((r.t.slot i).pid, status) :: r.exits } := by
  have hplace : ∀ k, (r.t.goto i (.exiting status 0)).place k
      = if k = i then .exiting status 0 else r.t.place k := fun _ => rfl
  have hused : r.t.life i ≠ .free := by rw [hl]; exact nofun
  have hstay : r.t.Staying i := ⟨.inl hl, by rw [hi]; exact nofun⟩
  refine ⟨h.next, h.bound, h.distinct, h.gone, h.once,
    fun k status' pp hk => ?_, fun k hk => List.mem_cons_of_mem _ (h.zombie k hk),
    fun x hx => ?_, ?_⟩
  · have hk' := (hplace k).symm.trans hk
    split at hk'
    · next heq =>
      cases hk'
      rw [heq]
      exact List.mem_cons_self
    · exact List.mem_cons_of_mem _ (h.exiting k status' pp hk')
  · have hold : ∀ k, r.t.Staying k ∧ k ≠ i ∨ ¬ ProcTable.Staying
        { r.t.goto i (.exiting status 0) with waitLock := o } k := by
      intro k
      by_cases heq : k = i
      · refine .inr fun hk => hk.2 status 0 ?_
        exact (hplace k).trans (if_pos heq)
      · by_cases hk : r.t.Staying k
        · exact .inl ⟨hk, heq⟩
        · refine .inr fun hk' => hk ⟨hk'.1, fun status' pp hp => ?_⟩
          exact hk'.2 status' pp ((hplace k).trans ((if_neg heq).trans hp))
    rcases List.mem_cons.mp hx with rfl | hx
    · refine ⟨(h.bound i hused).2, fun k hk hp => ?_⟩
      rcases hold k with ⟨hst, hne⟩ | hno
      · exact hne (h.distinct k i hst.used hused hp)
      · exact hno hk
    · refine ⟨(h.staying x hx).1, fun k hk => ?_⟩
      rcases hold k with ⟨hst, _⟩ | hno
      · exact (h.staying x hx).2 k hst
      · exact absurd hk hno
  · refine List.nodup_cons.mpr ⟨fun hm => ?_, h.exitOnce⟩
    obtain ⟨x, hx, hp⟩ := List.mem_map.mp hm
    exact (h.staying x hx).2 i hstay hp.symm

theorem Pids.reap (h : Pids r) (hf : Family r.t) {c : Reaped}
    (hj : r.t.life j = .dead) (hc : c.pid = (r.t.slot j).pid) (hi : r.t.life i = .alive)
    (hw : ∀ status pp, r.t.place i ≠ .exiting status pp) :
    Pids { r with
      t := { r.t.goto i .elsewhere with waitLock := none }.freeproc j,
      reaped := c :: r.reaped } := by
  have hused : r.t.life j ≠ .free := by rw [hj]; exact nofun
  have hfam := ((hf.calm (w := .elsewhere) hi (Where.not_forks nofun nofun)
    nofun).lock none).reap hj
  have hk := h.turn hfam rfl (fun _ => rfl) (fun _ => rfl) (fun hl => absurd rfl hl) nofun
    (fun hl => ?_) nofun fun status pp hp => absurd hp (hw status pp)
  · refine { hk with gone := fun x hx => ?_, once := ?_ }
    · rcases List.mem_cons.mp hx with rfl | hx
      · refine ⟨hc ▸ (h.bound j hused).2, fun k hk hp => ?_⟩
        have hl := (life_setSlot _ j _ k).symm.trans_ne hk
        have hs : (if k = j then Slot.zero else r.t.slot k).pid = x.pid := hp
        by_cases heq : k = j
        · exact hl (if_pos heq)
        · rw [if_neg heq] at hl hs
          exact heq (h.distinct k j hl hused (hs.trans hc))
      · exact hk.gone x hx
    · refine List.nodup_cons.mpr ⟨fun hm => ?_, h.once⟩
      obtain ⟨x, hx, hp⟩ := List.mem_map.mp hm
      exact (h.gone x hx).2 j hused (hc.symm.trans hp.symm)
  · rcases hl with hl | hl <;> cases hl

theorem Pids.calm (h : Pids r) (hf : Family r.t)
    (hl : r.t.life i = .alive) (hn : ∀ status pp, r.t.place i ≠ .exiting status pp)
    (hw : ∀ j, ¬ w.forks j) (he : ∀ status pp, w ≠ .exiting status pp) (o : Option Nat) :
    Pids { r with t := { r.t.goto i w with waitLock := o } } := by
  refine h.turn ((hf.calm hl hw he).lock o) (j := i) (s := r.t.slot i) rfl
    (fun k => ?_) (fun _ => rfl) (fun hl => ⟨hl, rfl⟩)
    (fun hd => .inl ⟨hd, rfl⟩) id (fun status pp hp => absurd hp (he status pp))
    fun status pp hp => absurd hp (hn status pp)
  split
  · next heq => rw [heq]; rfl
  · rfl

theorem Pids.child (h : Pids r) (hf : Family r.t)
    (hi : (r.t.place i).forks j) (hpid : s.pid = (r.t.slot j).pid) (hlife : s.state.life ≠ .dead)
    (hw : ∀ status pp, w ≠ .exiting status pp) (hfam : Family ((r.t.setSlot j s).goto i w)) :
    Pids { r with t := (r.t.setSlot j s).goto i w } := by
  have hmade := hf.made i j hi
  refine h.turn hfam rfl (fun _ => rfl) (fun _ => rfl) (fun _ => ⟨?_, hpid⟩)
    (fun hd => absurd hd hlife) (fun _ => .inr hmade)
    (fun status pp hp => absurd hp (hw status pp)) fun status pp hp => ?_
  · rw [hmade]
    exact nofun
  · rcases hi with hi | hi <;> cases hp.symm.trans hi

theorem Pids.waitTurn (h : Pids r) (hf : Family r.t) {ok : Bool}
    {o : Option Reaped} (hs : r.t.waitTurn i ok = some (o, t')) :
    Pids (r.record t' (.waitTurn i ok)) := by
  obtain ⟨addr, pp, kids, hw, hres⟩ := waitTurn_cases hs
  have hlive : r.t.life i = .alive := hf.busy i (by rw [hw]; exact nofun)
  have hn : ∀ status pp, r.t.place i ≠ .exiting status pp := by
    rw [hw]
    exact nofun
  unfold TableRun.record
  dsimp only
  rw [hs]
  rcases hres with ⟨rfl, rfl⟩ | ⟨rfl, kids', rfl⟩ | ⟨rfl, rfl⟩ | ⟨_, hz, rfl, rfl⟩
  · exact h.calm hf (w := .elsewhere) hlive hn (Where.not_forks nofun nofun) nofun none
  · exact h.calm hf (w := .waiting addr (pp + 1) kids') hlive hn
      (Where.not_forks nofun nofun) nofun r.t.waitLock
  · have halike : Alike r.t (r.t.setSlot i { r.t.slot i with state := .sleeping }) :=
      .setSlot hlive.symm rfl rfl rfl
    exact (h.alike hf halike).calm (hf.alike halike) (w := .waitSleep addr)
      ((halike.life i).trans hlive) hn (Where.not_forks nofun nofun) nofun none
  · have hdead : r.t.life pp = .dead := by
      unfold ProcTable.life
      rw [hz]
      rfl
    exact h.reap hf hdead rfl hlive hn

/-- A turn of reparent's loop changes at most a parent. -/
theorem Pids.reparent (h : Pids r) {pp : Nat}
    (hw : r.t.place i = .exiting status pp)
    (hs : s.state = (r.t.slot j).state) (hpid : s.pid = (r.t.slot j).pid)
    (hx : s.xstate = (r.t.slot j).xstate)
    (hfam : Family ((r.t.setSlot j s).goto i (.exiting status (pp + 1)))) :
    Pids { r with
      t := (r.t.setSlot j s).goto i (.exiting status (pp + 1)) } := by
  have hl : s.state.life = r.t.life j := congrArg ProcState.life hs
  refine h.turn hfam rfl (fun _ => rfl) (fun _ => rfl)
    (fun hf => ⟨hl ▸ hf, hpid⟩) (fun hd => .inl ⟨hl ▸ hd, hx⟩)
    (fun ha => hl ▸ ha) (fun status' pp' hp => ?_) fun status' pp' hp => ?_
  · cases hp
    exact ⟨pp, hw⟩
  · cases hw.symm.trans hp
    exact .inl ⟨pp + 1, rfl⟩

/-- Every step keeps the pids in order. -/
theorem Pids.step {e : TableEvent} (h : Pids r) (hf : Family r.t)
    (hs : r.t.step e = some t') (hlt : (r.record t' e).forks < 2 ^ 31 - 1) :
    Pids (r.record t' e) := by
  have hfam := hf.step hs
  cases ProcTable.stepped hs with
  | @moved _ i st hq hi hst =>
    have hp := h.alike hf (.setSlot (s := { r.t.slot i with state := st })
      (hst.trans hi.symm) rfl rfl rfl)
    cases e <;> first | exact hp | cases hq
  | kill pid => exact h.alike hf (kkill_alike r.t pid)
  | setkilled => exact h.alike hf (.setSlot rfl rfl rfl rfl)
  | fork _ hw _ hfree => exact h.fork hf hlt hw hfree
  | forkFail hfree => exact h.forkFail hf hlt hfree
  | @forkParent i j hw =>
    have hmade : (r.t.slot j).state.life = .made := hf.made i j (.inl hw)
    exact h.child hf (.inl hw) rfl (by rw [hmade]; exact nofun) nofun hfam
  | forkRun hw => exact h.child hf (.inr hw) rfl nofun nofun hfam
  | @exit i _ hi hw => exact h.exit hi hw (some i)
  | reparent hw => exact h.reparent hw rfl rfl rfl hfam
  | @passed i pp status hw =>
    have hsame : r.t.setSlot i (r.t.slot i) = r.t := by
      refine congrArg (fun f => { r.t with slot := f }) (funext fun k => ?_)
      split
      · next heq => rw [heq]
      · rfl
    rw [← hsame] at hfam ⊢
    exact h.reparent hw rfl rfl rfl hfam
  | @zombie i pp status hw =>
    have hlive : r.t.life i = .alive := hf.busy i (by rw [hw]; exact nofun)
    exact h.turn hfam rfl (fun _ => rfl) (fun _ => rfl) (fun _ => ⟨by rw [hlive]; exact nofun, rfl⟩)
      (fun _ => .inr ⟨pp, hw⟩) (fun _ => .inl hlive) nofun
      fun _ _ _ => .inr ⟨rfl, rfl⟩
  | @wait i addr hi hw =>
    exact h.calm hf (w := .waiting addr 0 false) hi hw (Where.not_forks nofun nofun) nofun (some i)
  | waitTurn hturn => exact h.waitTurn hf hturn

theorem pids_boot : Pids .boot := by
  have hused : ∀ j, ProcTable.boot.life j ≠ .free → j = 0 := by
    intro j hj
    by_contra hne
    apply hj
    unfold ProcTable.life ProcTable.boot
    dsimp only
    rw [if_neg hne]
    rfl
  refine ⟨by decide, fun j hj => ?_, fun i j hi hj _ => ?_, nofun,
    List.nodup_nil, nofun, fun j hj => ?_, nofun, List.nodup_nil⟩
  · rw [hused j hj]
    decide
  · rw [hused i hi, hused j hj]
  · have h0 := hused j (by rw [show ProcTable.boot.life j = _ from hj]; exact nofun)
    rw [h0] at hj
    cases hj

/-- In every run the family is in order, and with it the pids, for as long as
they do not wrap. -/
theorem TableRun.inv_of_reaches (h : Reaches TableStep .boot r) :
    Family r.t ∧ (r.forks < 2 ^ 31 - 1 → Pids r) := by
  refine h.inv (P := fun r => Family r.t ∧ (r.forks < 2 ^ 31 - 1 → Pids r))
    ⟨family_boot, fun _ => pids_boot⟩ ?_
  rintro r r' ⟨hf, hp⟩ ⟨e, he⟩
  obtain ⟨t', hs, rfl⟩ := Option.map_eq_some_iff.mp he
  refine ⟨?_, fun hlt => ?_⟩
  · rw [r.record_t]
    exact hf.step hs
  · exact (hp (Nat.lt_of_le_of_lt (r.forks_le t' e) hlt)).step hf hs hlt

end

/-- A process that runs or has exited, other than init, has a parent that is
alive. Processes have distinct pids. A kwait that returns returns a child of
the caller that called kexit, and stores the status it gave; in the whole
run no child is returned twice. -/
theorem children_reaped_once {r : TableRun} (hr : Reaches TableStep .boot r)
    (hf : r.forks < 2 ^ 31 - 1) :
    (∀ j, j ≠ r.t.initproc → (r.t.slot j).state ≠ .unused →
      (r.t.slot j).state ≠ .used →
      ∃ p, (r.t.slot j).parent = some p ∧ (r.t.slot p).state ≠ .unused
        ∧ (r.t.slot p).state ≠ .used ∧ (r.t.slot p).state ≠ .zombie)
    ∧ (∀ i j, (r.t.slot i).state ≠ .unused → (r.t.slot j).state ≠ .unused →
      (r.t.slot i).pid = (r.t.slot j).pid → i = j)
    ∧ (∀ i ok c t', r.t.waitTurn i ok = some (some c, t') →
      c.caller = i ∧ (r.t.slot c.child).parent = some i
      ∧ (r.t.slot c.child).state = .zombie
      ∧ c.pid = (r.t.slot c.child).pid
      ∧ (∃ status, (c.pid, status) ∈ r.exits ∧
        ∀ addr pp kids, r.t.place i = .waiting addr pp kids →
          c.stored = if addr = 0 then none else some (addr, status))
      ∧ ∀ c' ∈ r.reaped, c'.pid ≠ c.pid)
    ∧ (r.reaped.map Reaped.pid).Nodup ∧ (r.exits.map Prod.fst).Nodup := by
  obtain ⟨hfam, hp⟩ := TableRun.inv_of_reaches hr
  have hpids := hp hf
  have hlife : ∀ j, r.t.life j = (r.t.slot j).state.life := fun _ => rfl
  have hused : ∀ j, (r.t.slot j).state ≠ .unused → r.t.life j ≠ .free := by
    intro j hj
    rw [hlife]
    cases hs : (r.t.slot j).state with
    | unused => exact absurd hs hj
    | used | sleeping | runnable | running | zombie => exact nofun
  refine ⟨fun j hj hu hm => ?_, fun i j hi hj heq => ?_, fun i ok c t' hs => ?_,
    hpids.once, hpids.exitOnce⟩
  · have hl : r.t.life j = .alive ∨ r.t.life j = .dead := by
      rw [hlife]
      cases hs : (r.t.slot j).state with
      | unused => exact absurd hs hu
      | used => exact absurd hs hm
      | sleeping | runnable | running => exact .inl rfl
      | zombie => exact .inr rfl
    obtain ⟨p, hpar⟩ := Option.ne_none_iff_exists'.mp (hfam.child j hj hl)
    have halive := hfam.parent j p hpar
    rw [hlife] at halive
    refine ⟨p, hpar, ?_, ?_, ?_⟩
    all_goals
      intro hst
      rw [hst] at halive
      cases halive
  · exact hpids.distinct i j (hused i hi) (hused j hj) heq
  obtain ⟨addr, pp, kids, hw, hres⟩ := waitTurn_cases hs
  rcases hres with ⟨ho, _⟩ | ⟨ho, _⟩ | ⟨ho, _⟩ | ⟨hpar, hz, ho, _⟩
  · cases ho
  · cases ho
  · cases ho
  cases ho
  have hdead : r.t.life pp = .dead := by
    rw [hlife, hz]
    rfl
  refine ⟨rfl, hpar, hz, rfl, ⟨_, hpids.zombie pp hdead, ?_⟩, ?_⟩
  · intro addr' pp' kids' hw'
    rw [hw] at hw'
    cases hw'
    rfl
  · intro c' hc'
    exact ((hpids.gone c' hc').2 pp (by rw [hdead]; exact nofun)).symm

/-- init forks a child, which exits with status 7 while init waits. -/
def exitWait : List TableEvent :=
  [.run 0, .fork 0 1, .forkParent 0, .forkRun 0, .run 1, .exit 1 7]
    ++ List.replicate 65 (.exitTurn 1)
    ++ [.wait 0 4096, .waitTurn 0 true]

set_option maxRecDepth 4000 in
theorem children_reaped_once_exitWait : ∃ r c t', Reaches TableStep .boot r
    ∧ r.t.waitTurn 0 true = some (some c, t') ∧ c.pid = 2
    ∧ c.stored = some (4096, 7) ∧ ∃ status, (c.pid, status) ∈ r.exits := by
  have hrun : ∃ r c t', play TableRun.next .boot exitWait = some r
      ∧ r.t.waitTurn 0 true = some (some c, t') ∧ c.pid = 2
      ∧ c.stored = some (4096, 7) ∧ decide (r.forks < 2 ^ 31 - 1) = true :=
    ⟨_, _, _, rfl, rfl, rfl, rfl, rfl⟩
  obtain ⟨r, c, t', hplay, hturn, hpid, hstored, hf⟩ := hrun
  have hr : Reaches TableStep .boot r := reaches_of_play hplay
  obtain ⟨_, _, hwait, _⟩ := children_reaped_once hr (of_decide_eq_true hf)
  obtain ⟨_, _, _, _, ⟨status, hexit, _⟩, _⟩ := hwait 0 true c t' hturn
  exact ⟨r, c, t', hr, hturn, hpid, hstored, status, hexit⟩

end Xv6Labs.Model
