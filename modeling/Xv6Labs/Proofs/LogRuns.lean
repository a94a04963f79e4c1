/-
Runs of the log.

`LogRun` is the log with a record of what the file system asked for: which
operations are open, what each wrote, and which groups were committed. An
event is one call, one disk write or a crash; a write changes a buffer and
calls log_write in one event, under the buffer's lock.
-/
import Xv6Labs.Lib.Exec
import Xv6Labs.Model.Log

namespace Xv6Labs.Model

open Lib

variable {β : Type}
variable {c : HeadCodec β}

-- == the record

/-- One log_write: by which operation, of which block, with which data. -/
structure Write (β : Type) where
  op : Nat
  block : Nat
  data : β

/-- The writes of one operation. -/
def writesOf (o : Nat) (ws : List (Write β)) : List (Write β) := ws.filter (·.op = o)

@[simp] theorem writesOf_append (o : Nat) (ws vs : List (Write β)) :
    writesOf o (ws ++ vs) = writesOf o ws ++ writesOf o vs :=
  List.filter_append ..

/-- The log and its record. -/
structure LogRun (β : Type) where
  s : Log β
  /-- the number of the next operation -/
  fresh : Nat
  /-- operations between begin_op and end_op -/
  active : List Nat
  /-- every log_write -/
  writes : List (Write β)
  /-- the log_writes since the last commit point -/
  group : List (Write β)
  /-- the transaction that the running commit is for -/
  cur : List (Write β)
  /-- the transactions committed, oldest first -/
  hist : List (List (Write β))
  /-- the transactions whose commit has returned -/
  acked : List (List (Write β))

inductive LogEvent (β : Type) where
  | begin
  | write (op block : Nat) (data : β)
  | finish (op : Nat)
  | disk
  | crash

/-- The record of a disk step: the header write is the commit point. -/
def LogRun.settle (r : LogRun β) (s : Log β) : LogRun β :=
  match r.s.phase with
  | .writeHead => { r with s, hist := r.hist ++ [r.group], group := [] }
  | .commitEnd => { r with s, acked := r.acked ++ [r.cur] }
  | _ => { r with s }

/-- One event. `none`: begin_op sleeps, or no disk write is due. -/
def LogRun.step (c : HeadCodec β) (r : LogRun β) : LogEvent β → Except LogPanic (Option (LogRun β))
  | .begin => .ok <| (beginOp r.s).map fun s =>
    { r with s, fresh := r.fresh + 1, active := r.fresh :: r.active }
  | .write o b v => (logWrite (r.s.modify b v) b).map fun s =>
    some { r with
      s, writes := r.writes ++ [⟨o, b, v⟩], group := r.group ++ [⟨o, b, v⟩] }
  | .finish o => (endOp r.s).map fun s =>
    some { r with s, active := r.active.erase o, cur := r.group }
  | .disk => .ok ((diskStep c r.s).map r.settle)
  | .crash => .ok <| some
      { r with s := r.s.crash, active := [], group := [], cur := [] }

/-- A block outside the log area. -/
def Home (start b : Nat) : Prop := b < start ∨ start + logBlocks < b

/-- initlog has not returned. -/
def Phase.booting : Phase → Bool
  | .recoverRead | .recoverInstall _ | .recoverClear => true
  | _ => false

/-- What the file system does: operations begin after initlog, and an open
operation writes home blocks and ends. -/
def LogRun.Allowed (r : LogRun β) : LogEvent β → Prop
  | .begin => r.s.phase.booting = false
  | .write o b _ => o ∈ r.active ∧ Home r.s.start b ∧ b < 2 ^ 32
  | .finish o => o ∈ r.active
  | .disk | .crash => True

/-- One step by an event that meets `C`. -/
def LogStep (c : HeadCodec β) (C : LogRun β → LogEvent β → Prop) (r r' : LogRun β) : Prop :=
  ∃ e, r.Allowed e ∧ C r e ∧ r.step c e = .ok (some r')

/-- The machine is switched on with this disk. -/
def LogRun.boot (start : Nat) (disk : Nat → β) : LogRun β where
  s :=
    { disk, start, lh := [], outstanding := 0, committing := false,
      cache := disk, phase := .recoverRead }
  fresh := 0
  active := []
  writes := []
  group := []
  cur := []
  hist := []
  acked := []

instance (start b : Nat) : Decidable (Home start b) := inferInstanceAs (Decidable (_ ∨ _))

instance (r : LogRun β) (e : LogEvent β) : Decidable (r.Allowed e) :=
  match e with
  | .begin => inferInstanceAs (Decidable (_ = _))
  | .write .. => inferInstanceAs (Decidable (_ ∧ _ ∧ _))
  | .finish _ => inferInstanceAs (Decidable (_ ∈ _))
  | .disk => inferInstanceAs (Decidable True)
  | .crash => inferInstanceAs (Decidable True)

/-- Play events one after the other. -/
def LogRun.play (c : HeadCodec β) (C : LogRun β → LogEvent β → Prop)
    [∀ r e, Decidable (C r e)] (r : LogRun β) :
    List (LogEvent β) → Option (LogRun β)
  | [] => some r
  | e :: es =>
    if r.Allowed e ∧ C r e then
      match r.step c e with
      | .ok (some r') => r'.play c C es
      | _ => none
    else none

theorem LogRun.reaches_of_play
    {C : LogRun β → LogEvent β → Prop} [∀ r e, Decidable (C r e)]
    {e : List (LogEvent β)} {r r' : LogRun β}
    (h : r.play c C e = some r') : Reaches (LogStep c C) r r' := by
  induction e generalizing r with
  | nil =>
    cases h
    exact Reaches.refl _
  | cons e es ih =>
    unfold LogRun.play at h
    split at h
    next hok =>
      split at h
      next q hq =>
        exact Relation.ReflTransGen.head ⟨e, hok.1, hok.2, hq⟩ (ih h)
      next => cases h
    next => cases h

-- == events taken apart

section

variable {c : HeadCodec β} {C : LogRun β → LogEvent β → Prop}
  {r r' : LogRun β}

/-- What a step is: one case for each event, with the call that returned. -/
theorem LogStep.elim {P : Prop} (h : LogStep c C r r')
    (hbegin : ∀ s, r.s.phase.booting = false → beginOp r.s = some s →
      r' = { r with s, fresh := r.fresh + 1, active := r.fresh :: r.active } → P)
    (hwrite : ∀ o b v s, o ∈ r.active → Home r.s.start b → b < 2 ^ 32 →
      C r (.write o b v) → logWrite (r.s.modify b v) b = .ok s →
      r' = { r with
        s, writes := r.writes ++ [⟨o, b, v⟩], group := r.group ++ [⟨o, b, v⟩] } → P)
    (hfinish : ∀ o s, o ∈ r.active → endOp r.s = .ok s →
      r' = { r with s, active := r.active.erase o, cur := r.group } → P)
    (hdisk : ∀ s, diskStep c r.s = some s → r' = r.settle s → P)
    (hcrash : r' =
      { r with s := r.s.crash, active := [], group := [], cur := [] } → P) :
    P := by
  obtain ⟨e, ha, hc, he⟩ := h
  cases e with
  | begin =>
    obtain ⟨s, hs, heq⟩ := Option.map_eq_some_iff.mp (Except.ok.inj he)
    exact hbegin s ha hs heq.symm
  | write o b v =>
    obtain ⟨s, hs, heq⟩ := map_ok he
    exact hwrite o b v s ha.1 ha.2.1 ha.2.2 hc hs (Option.some.inj heq).symm
  | finish o =>
    obtain ⟨s, hs, heq⟩ := map_ok he
    exact hfinish o s ha hs (Option.some.inj heq).symm
  | disk =>
    obtain ⟨s, hs, heq⟩ := Option.map_eq_some_iff.mp (Except.ok.inj he)
    exact hdisk s hs heq.symm
  | crash => exact hcrash (Option.some.inj (Except.ok.inj he)).symm

end

-- == operations are atomic

/-- Where the writes of an operation are. -/
inductive LogRun.OpAt (r : LogRun β) (o : Nat) : Prop where
  | pending (hist : writesOf o r.hist.flatten = [])
      (group : writesOf o r.group = writesOf o r.writes)
  | committed (hist : writesOf o r.hist.flatten = writesOf o r.writes)
      (group : writesOf o r.group = []) (ended : o ∉ r.active)
  | lost (hist : writesOf o r.hist.flatten = [])
      (group : writesOf o r.group = []) (ended : o ∉ r.active)

structure LogRun.Ops (r : LogRun β) : Prop where
  older : ∀ w ∈ r.writes, w.op < r.fresh
  started : ∀ o ∈ r.active, o < r.fresh
  nodup : r.active.Nodup
  place : ∀ o, r.OpAt o

theorem LogRun.ops_boot (start : Nat) (disk : Nat → β) : (LogRun.boot start disk).Ops := by
  refine ⟨?_, ?_, List.nodup_nil, fun o => .pending rfl rfl⟩
  · intro w hw
    exact absurd hw List.not_mem_nil
  · intro o ho
    exact absurd ho List.not_mem_nil

section

variable {c : HeadCodec β} {r r' : LogRun β} {s : Log β} {o : Nat}
variable {cur : List (Write β)}

/-- An open operation has all its writes in the open group. -/
theorem LogRun.Ops.pending (h : r.Ops) (ho : o ∈ r.active) :
    writesOf o r.hist.flatten = [] ∧ writesOf o r.group = writesOf o r.writes := by
  cases h.place o with
  | pending hh hg => exact ⟨hh, hg⟩
  | committed _ _ hn => exact absurd ho hn
  | lost _ _ hn => exact absurd ho hn

theorem LogRun.Ops.none_of_fresh (h : r.Ops) : writesOf r.fresh r.writes = [] := by
  unfold writesOf
  rw [List.filter_eq_nil_iff]
  intro w hw heq
  have hlt := h.older w hw
  have hop := of_decide_eq_true heq
  omega

theorem LogRun.Ops.begin (h : r.Ops) :
    { r with s, fresh := r.fresh + 1, active := r.fresh :: r.active : LogRun β }.Ops where
  older w hw := Nat.lt_succ_of_lt (h.older w hw)
  started o ho := by
    cases List.mem_cons.mp ho with
    | inl heq => exact heq ▸ Nat.lt_succ_self _
    | inr hm => exact Nat.lt_succ_of_lt (h.started o hm)
  nodup := List.nodup_cons.mpr ⟨fun hm => Nat.lt_irrefl _ (h.started _ hm), h.nodup⟩
  place o := by
    by_cases ho : o = r.fresh
    · -- the new operation has written nothing, wherever one looks
      have hw : writesOf o r.writes = [] := ho ▸ h.none_of_fresh
      cases h.place o with
      | pending hh hg => exact .pending hh hg
      | committed hh hg _ => exact .pending (hh.trans hw) (hg.trans hw.symm)
      | lost hh hg _ => exact .pending hh (hg.trans hw.symm)
    · have hne : o ∉ r.active → o ∉ r.fresh :: r.active := by
        intro hn hm
        cases List.mem_cons.mp hm with
        | inl heq => exact ho heq
        | inr hm => exact hn hm
      cases h.place o with
      | pending hh hg => exact .pending hh hg
      | committed hh hg hn => exact .committed hh hg (hne hn)
      | lost hh hg hn => exact .lost hh hg (hne hn)

theorem LogRun.Ops.write {b : Nat} {v : β} (h : r.Ops) (ho : o ∈ r.active) :
    { r with s, writes := r.writes ++ [⟨o, b, v⟩],
             group := r.group ++ [⟨o, b, v⟩] : LogRun β }.Ops where
  older w hw := by
    cases List.mem_append.mp hw with
    | inl hm => exact h.older w hm
    | inr hm =>
      rw [List.mem_singleton.mp hm]
      exact h.started o ho
  started := h.started
  nodup := h.nodup
  place o' := by
    by_cases heq : o' = o
    · obtain ⟨hh, hg⟩ := h.pending (heq ▸ ho)
      refine .pending hh ?_
      rw [writesOf_append, writesOf_append, hg]
    have hnil : writesOf o' [(⟨o, b, v⟩ : Write β)] = [] := by
      simp [writesOf, Ne.symm heq]
    cases h.place o' with
    | pending hh hg =>
      refine .pending hh ?_
      rw [writesOf_append, writesOf_append, hg]
    | committed hh hg hn =>
      refine .committed ?_ ?_ hn
      · rw [writesOf_append, hnil, List.append_nil, hh]
      · rw [writesOf_append, hnil, List.append_nil, hg]
    | lost hh hg hn =>
      refine .lost hh ?_ hn
      rw [writesOf_append, hnil, List.append_nil, hg]

theorem LogRun.Ops.finish (h : r.Ops) :
    { r with s, active := r.active.erase o, cur : LogRun β }.Ops where
  older := h.older
  started o' ho := h.started o' (List.mem_of_mem_erase ho)
  nodup := h.nodup.erase o
  place o' := by
    have hne : o' ∉ r.active → o' ∉ r.active.erase o := fun hn hm => hn (List.mem_of_mem_erase hm)
    cases h.place o' with
    | pending hh hg => exact .pending hh hg
    | committed hh hg hn => exact .committed hh hg (hne hn)
    | lost hh hg hn => exact .lost hh hg (hne hn)

/-- At the commit point no operation is open, so the group moves to the
history as a whole. -/
theorem LogRun.Ops.commit (h : r.Ops) (ha : r.active = []) :
    { r with s, hist := r.hist ++ [r.group], group := [] : LogRun β }.Ops where
  older := h.older
  started := h.started
  nodup := h.nodup
  place o := by
    have hn : o ∉ r.active := ha ▸ List.not_mem_nil
    have hflat : writesOf o (r.hist ++ [r.group]).flatten =
        writesOf o r.hist.flatten ++ writesOf o r.group := by
      rw [List.flatten_append, List.flatten_singleton, writesOf_append]
    cases h.place o with
    | pending hh hg =>
      refine .committed ?_ rfl hn
      rw [hflat, hh, hg, List.nil_append]
    | committed hh hg _ =>
      refine .committed ?_ rfl hn
      rw [hflat, hg, List.append_nil, hh]
    | lost hh hg _ =>
      refine .lost ?_ rfl hn
      rw [hflat, hg, List.append_nil, hh]

theorem LogRun.Ops.crash (h : r.Ops) :
    { r with s, active := [], group := [], cur : LogRun β }.Ops where
  older := h.older
  started o ho := absurd ho List.not_mem_nil
  nodup := List.nodup_nil
  place o := by
    cases h.place o with
    | pending hh _ => exact .lost hh rfl List.not_mem_nil
    | committed hh _ _ => exact .committed hh rfl List.not_mem_nil
    | lost hh _ _ => exact .lost hh rfl List.not_mem_nil

theorem LogRun.Ops.quiet {acked : List (List (Write β))} (h : r.Ops) :
    { r with s, acked : LogRun β }.Ops where
  older := h.older
  started := h.started
  nodup := h.nodup
  place o := by
    cases h.place o with
    | pending hh hg => exact .pending hh hg
    | committed hh hg hn => exact .committed hh hg hn
    | lost hh hg hn => exact .lost hh hg hn

theorem LogRun.Ops.settle (h : r.Ops)
    (ha : r.s.phase = .writeHead → r.active = []) : (r.settle s).Ops := by
  unfold LogRun.settle
  split
  next hph => exact h.commit (ha hph)
  next => exact h.quiet
  next => exact h.quiet

/-- All of an operation's writes are committed, or none is. -/
theorem LogRun.Ops.all_or_none (h : r.Ops) (o : Nat) :
    writesOf o r.hist.flatten = [] ∨ writesOf o r.hist.flatten = writesOf o r.writes := by
  cases h.place o with
  | pending hh _ => exact .inl hh
  | committed hh _ _ => exact .inr hh
  | lost hh _ _ => exact .inl hh

end

/-- The history only grows. -/
theorem LogStep.hist_grows
    {C : LogRun β → LogEvent β → Prop} {r r' : LogRun β}
    (h : LogStep c C r r') : r.hist <+: r'.hist := by
  refine h.elim ?_ ?_ ?_ ?_ ?_
  · intro s _ _ heq
    subst heq
    exact List.prefix_rfl
  · intro o b v s _ _ _ _ _ heq
    subst heq
    exact List.prefix_rfl
  · intro o s _ _ heq
    subst heq
    exact List.prefix_rfl
  · intro s _ heq
    rw [heq]
    unfold LogRun.settle
    split
    · exact List.prefix_append ..
    · exact List.prefix_rfl
    · exact List.prefix_rfl
  · intro heq
    subst heq
    exact List.prefix_rfl

end Xv6Labs.Model
