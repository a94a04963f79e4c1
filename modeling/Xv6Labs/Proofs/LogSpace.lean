/-
The log space that begin_op reserves.

The blocks used and those the open operations may still use fit the log
(`LogRun.Room`). But log_write looks at the room before it looks for the
block: with the log exactly full, it panics on a block that it would absorb
(`log_write_fits_iff`).
-/
import Mathlib.Algebra.BigOperators.Group.List.Lemmas
import Mathlib.Algebra.Order.BigOperators.Group.List
import Mathlib.Algebra.Order.Ring.Nat
import Mathlib.Data.Finset.Card
import Xv6Labs.Proofs.LogCrash

namespace Xv6Labs.Model

open Lib

variable {β : Type}
variable {D : Nat → β} {s : Log β}

-- == the budget

/-- The blocks an operation has logged. -/
def LogRun.blocksOf (r : LogRun β) (o : Nat) : Finset Nat :=
  ((writesOf o r.writes).map Write.block).toFinset

/-- The blocks logged since the last commit. -/
def LogRun.logged (r : LogRun β) : Finset Nat := (r.group.map Write.block).toFinset

/-- With this write its operation has logged at most `MAXOPBLOCKS` distinct
blocks. -/
def LogRun.InBudget (r : LogRun β) : LogEvent β → Prop
  | .write o b _ => (insert b (r.blocksOf o)).card ≤ maxOpBlocks
  | _ => True

instance (r : LogRun β) (e : LogEvent β) : Decidable (r.InBudget e) :=
  match e with
  | .write .. => inferInstanceAs (Decidable (_ ≤ _))
  | .begin | .finish _ | .disk | .crash => inferInstanceAs (Decidable True)

/-- What an operation may still log. -/
def LogRun.left (r : LogRun β) (o : Nat) : Nat := maxOpBlocks - (r.blocksOf o).card

/-- The blocks in the log and those still to come fit. -/
structure LogRun.Room (r : LogRun β) : Prop where
  nodup : r.s.lh.Nodup
  fits : r.s.lh.length + (r.active.map r.left).sum ≤ logBlocks

section

variable {c : HeadCodec β} {r r' : LogRun β} {init : Nat → β} {o b : Nat}

theorem LogRun.blocksOf_write (r : LogRun β) (s : Log β) (g : List (Write β)) (v : β) (o' : Nat) :
    { r with s, writes := r.writes ++ [⟨o, b, v⟩], group := g : LogRun β }.blocksOf o' =
      if o' = o then insert b (r.blocksOf o') else r.blocksOf o' := by
  unfold LogRun.blocksOf
  simp only [writesOf_append, List.map_append, List.toFinset_append]
  split
  next heq =>
    subst heq
    have hone : writesOf o' [(⟨o', b, v⟩ : Write β)] = [⟨o', b, v⟩] := by
      simp [writesOf]
    rw [hone, Finset.union_comm]
    rfl
  next hne => simp [writesOf, Ne.symm hne]

/-- The blocks of an open operation are among those logged. -/
theorem LogRun.Ops.blocksOf_subset (h : r.Ops) (ho : o ∈ r.active) : r.blocksOf o ⊆ r.logged := by
  intro x hx
  unfold LogRun.blocksOf at hx
  rw [← (h.pending ho).2, List.mem_toFinset] at hx
  obtain ⟨w, hw, rfl⟩ := List.mem_map.mp hx
  exact List.mem_toFinset.mpr (List.mem_map_of_mem (List.mem_of_mem_filter hw))

theorem Log.Buffered.mem_logged (h : r.s.Buffered D r.group) : b ∈ r.logged ↔ b ∈ r.s.lh := by
  unfold LogRun.logged
  rw [List.mem_toFinset, h.keys]

theorem LogRun.Room.card_logged (h : r.Room) (hb : r.s.Buffered D r.group) :
    r.logged.card = r.s.lh.length := by
  have hset : r.logged = r.s.lh.toFinset := by
    ext x
    rw [hb.mem_logged, List.mem_toFinset]
  rw [hset, List.toFinset_card_of_nodup h.nodup]

/-- A new block is within the budget of its operation, so it has room. -/
theorem LogRun.Room.new_block (h : r.Room) (hops : r.Ops)
    (hb : r.s.Buffered D r.group) (ho : o ∈ r.active) (hnew : b ∉ r.s.lh)
    (hbud : (insert b (r.blocksOf o)).card ≤ maxOpBlocks) :
    1 ≤ r.left o ∧ r.s.lh.length < logBlocks := by
  have hnot : b ∉ r.blocksOf o := fun hm => hnew (hb.mem_logged.mp (hops.blocksOf_subset ho hm))
  have hleft : 1 ≤ r.left o := by
    rw [Finset.card_insert_of_notMem hnot] at hbud
    unfold LogRun.left
    omega
  have hle : r.left o ≤ (r.active.map r.left).sum :=
    List.single_le_sum (fun _ _ => Nat.zero_le _) _ (List.mem_map_of_mem ho)
  have hfits := h.fits
  exact ⟨hleft, by omega⟩

-- == each event

theorem LogRun.Room.begin (h : r.Room)
    (hcount : r.s.outstanding = r.active.length) (hs : beginOp r.s = some s) :
    { r with s, fresh := r.fresh + 1, active := r.fresh :: r.active : LogRun β }.Room := by
  obtain ⟨_, hroom, rfl⟩ := beginOp_some hs
  refine ⟨h.nodup, ?_⟩
  have hsum : ((r.fresh :: r.active).map r.left).sum ≤
      (r.fresh :: r.active).length * maxOpBlocks := by
    have hle : ∀ x ∈ (r.fresh :: r.active).map r.left, x ≤ maxOpBlocks := by
      intro x hx
      obtain ⟨o, _, rfl⟩ := List.mem_map.mp hx
      exact Nat.sub_le ..
    have hsum := List.sum_le_card_nsmul _ _ hle
    rw [List.length_map] at hsum
    exact hsum
  rw [List.length_cons] at hsum
  unfold maxOpBlocks at hsum hroom
  show r.s.lh.length + ((r.fresh :: r.active).map r.left).sum ≤ logBlocks
  omega

theorem LogRun.Room.write {v : β} (h : r.Room) (hops : r.Ops)
    (hb : r.s.Buffered D r.group) (ho : o ∈ r.active)
    (hbud : (insert b (r.blocksOf o)).card ≤ maxOpBlocks)
    (hs : logWrite (r.s.modify b v) b = .ok s) :
    { r with s, writes := r.writes ++ [⟨o, b, v⟩],
             group := r.group ++ [⟨o, b, v⟩] : LogRun β }.Room := by
  obtain ⟨_, rfl⟩ := logWrite_ok hs
  set q : LogRun β := { r with
    s := { r.s.modify b v with
      lh := if b ∈ r.s.lh then r.s.lh else r.s.lh ++ [b] },
    writes := r.writes ++ [⟨o, b, v⟩], group := r.group ++ [⟨o, b, v⟩] } with hq
  have hblocks : ∀ o', q.blocksOf o' = if o' = o then insert b (r.blocksOf o') else r.blocksOf o' :=
    r.blocksOf_write _ _ v
  -- only the budget of `o` changes
  have hrest : (r.active.erase o).map q.left = (r.active.erase o).map r.left := by
    refine List.map_congr_left ?_
    intro o' ho'
    have hne := (hops.nodup.mem_erase_iff.mp ho').1
    unfold LogRun.left
    rw [hblocks, if_neg hne]
  have hsum := List.sum_map_erase r.left ho
  have hsum' := List.sum_map_erase q.left ho
  rw [hrest] at hsum'
  have hfits := h.fits
  have hown : q.left o = maxOpBlocks - (insert b (r.blocksOf o)).card := by
    unfold LogRun.left
    rw [hblocks, if_pos rfl]
  by_cases hm : b ∈ r.s.lh
  · have hlh : q.s.lh = r.s.lh := if_pos hm
    have hle : q.left o ≤ r.left o := by
      rw [hown]
      exact Nat.sub_le_sub_left (Finset.card_le_card (Finset.subset_insert _ _)) _
    refine ⟨hlh ▸ h.nodup, ?_⟩
    show q.s.lh.length + (r.active.map q.left).sum ≤ logBlocks
    rw [hlh]
    omega
  · have hlh : q.s.lh = r.s.lh ++ [b] := if_neg hm
    have hnot : b ∉ r.blocksOf o := fun hx => hm (hb.mem_logged.mp (hops.blocksOf_subset ho hx))
    obtain ⟨hleft, _⟩ := h.new_block hops hb ho hm hbud
    have hpaid : q.left o + 1 = r.left o := by
      rw [hown, Finset.card_insert_of_notMem hnot]
      unfold LogRun.left at hleft ⊢
      omega
    refine ⟨?_, ?_⟩
    · rw [hlh]
      exact List.nodup_append.mpr ⟨h.nodup, List.nodup_singleton b, by
        intro x hx y hy heq
        rw [heq, List.mem_singleton.mp hy] at hx
        exact hm hx⟩
    · show q.s.lh.length + (r.active.map q.left).sum ≤ logBlocks
      rw [hlh, List.length_append, List.length_singleton]
      omega

theorem LogRun.Room.finish {cur : List (Write β)} (h : r.Room)
    (ho : o ∈ r.active) (hlh : s.lh = r.s.lh) :
    { r with s, active := r.active.erase o, cur : LogRun β }.Room := by
  refine ⟨hlh ▸ h.nodup, ?_⟩
  have hsum := List.sum_map_erase r.left ho
  have hfits := h.fits
  show s.lh.length + ((r.active.erase o).map r.left).sum ≤ logBlocks
  rw [hlh]
  omega

theorem LogRun.room_of_empty (ha : r.active = []) (hl : r.s.lh = []) : r.Room := by
  refine ⟨?_, ?_⟩
  · rw [hl]
    exact List.nodup_nil
  · rw [ha, hl]
    exact Nat.zero_le _

-- == every run

/-- The room matters only while operations may be open. -/
def LogRun.Roomy (r : LogRun β) : Prop := r.s.phase = .running → r.Room

theorem endOp_lh {s' : Log β} (hs : endOp s = .ok s') : s'.lh = s.lh := by
  unfold endOp at hs
  extract_lets at hs
  repeat' split at hs
  all_goals cases hs
  all_goals rfl

theorem diskStep_running {s' : Log β} (hs : diskStep c s = some s') (hph : s'.phase = .running) :
    s'.lh = s.lh ∧ (s.phase = .commitEnd ∨ s.phase = .recoverClear) := by
  unfold diskStep at hs
  repeat' split at hs
  all_goals cases hs
  all_goals simp_all [Log.writeHead, Log.bwrite]

/-- A step into `running` ends a commit or a recovery, with an empty log. -/
theorem LogRun.Inv.emptied (h : r.Inv c init) (hs : diskStep c r.s = some s)
    (hph : s.phase = .running) : r.active = [] ∧ s.lh = [] := by
  obtain ⟨hlh, hfrom⟩ := diskStep_running hs hph
  have hp := h.phase
  unfold LogRun.AtPhase at hp
  rw [hlh]
  cases hfrom with
  | inl heq =>
    rw [heq] at hp
    exact ⟨hp.2.2.2.active, hp.2.1⟩
  | inr heq =>
    rw [heq] at hp
    exact ⟨hp.2.active, hp.1.empty⟩

theorem LogStep.roomy (hinv : r.Inv c init) (h : r.Roomy)
    (hstep : LogStep c LogRun.InBudget r r') : r'.Roomy := by
  refine hstep.elim ?_ ?_ ?_ ?_ ?_
  · intro s hb hs heq _
    obtain ⟨hc, _, _⟩ := beginOp_some hs
    have hph := hinv.phase.running_of_begin hb hc
    exact heq ▸ (h hph).begin hinv.count hs
  · intro o b v s ho _ _ hbud hs heq _
    have hph := hinv.phase.running (List.ne_nil_of_mem ho)
    exact heq ▸ (h hph).write hinv.ops (hinv.phase.of_running hph).2.1 ho hbud hs
  · intro o s ho hs heq _
    have hph := hinv.phase.running (List.ne_nil_of_mem ho)
    exact heq ▸ (h hph).finish ho (endOp_lh hs)
  · intro s hs heq hph
    rw [heq, r.settle_s] at hph
    obtain ⟨ha, hl⟩ := hinv.emptied hs hph
    rw [heq]
    refine LogRun.room_of_empty ?_ ?_
    · rw [r.settle_active, ha]
    · rw [r.settle_s, hl]
  · intro heq hph
    rw [heq] at hph
    cases hph

theorem LogRun.AtPhase.short (h : r.AtPhase c D) : r.s.lh.length ≤ logBlocks := by
  have hnil : r.s.lh = [] → r.s.lh.length ≤ logBlocks := by
    intro hl
    rw [hl]
    exact Nat.zero_le _
  have hin : ∀ {tail}, r.s.Installing c D tail → r.s.lh.length ≤ logBlocks := by
    intro tail hi
    rw [← hi.head]
    exact hi.recoverable.short
  unfold LogRun.AtPhase at h
  split at h
  · exact h.2.1.short
  · exact h.2.1.short
  · exact h.2.1.short
  · exact h.2.1.short
  · exact hin h.1
  · exact hnil h.1.empty
  · exact hnil h.2.1
  · exact hnil h.2.1
  · exact hin h.1
  · exact hnil h.1.empty

/-- The only panic of log_write in an open operation is for a full log. -/
theorem LogRun.step_write_error (hinv : r.Inv c init) (ho : o ∈ r.active)
    {v : β} : r.step c (.write o b v) = .error .tooBig ↔ logBlocks ≤ r.s.lh.length := by
  have hpos := List.length_pos_of_mem ho
  have hout : ¬ (r.s.modify b v).outstanding < 1 := by
    have hcount : (r.s.modify b v).outstanding = r.active.length := hinv.count
    omega
  unfold LogRun.step logWrite
  dsimp only
  by_cases hfull : logBlocks ≤ r.s.lh.length
  · have hfull' : logBlocks ≤ (r.s.modify b v).lh.length := hfull
    rw [if_pos hfull']
    exact ⟨fun _ => hfull, fun _ => rfl⟩
  · have hfull' : ¬ logBlocks ≤ (r.s.modify b v).lh.length := hfull
    rw [if_neg hfull', if_neg hout]
    exact ⟨fun h => (nomatch h), fun h => absurd h hfull⟩

/-- When each operation logs at most `MAXOPBLOCKS` distinct blocks, the
header never has more than `LOGBLOCKS`, and a block that is not in the log
has room. A log_write panics exactly when the operations since the last
commit have logged `LOGBLOCKS` distinct blocks, the block it is for among
them. -/
theorem log_write_fits_iff {start : Nat} {disk : Nat → β}
    (hd : Recoverable c start disk init)
    (hr : Reaches (LogStep c LogRun.InBudget) (LogRun.boot start disk) r) :
    r.s.lh.length ≤ logBlocks ∧
    ∀ o b v, r.Allowed (.write o b v) → r.InBudget (.write o b v) →
      (r.step c (.write o b v) ≠ .error .tooBig ↔
        r.logged.card ≠ logBlocks) ∧
      (b ∉ r.logged → r.logged.card ≠ logBlocks) := by
  have hinv := LogRun.inv_of_reaches hd hr
  have hroomy : r.Inv c init ∧ r.Roomy := by
    refine hr.inv (P := fun q => q.Inv c init ∧ q.Roomy) ?_ ?_
    · exact ⟨LogRun.inv_boot hd, fun hph => nomatch hph⟩
    · intro q q' hq hs
      exact ⟨hs.inv hq.1, LogStep.roomy hq.1 hq.2 hs⟩
  refine ⟨hinv.phase.short, ?_⟩
  intro o b v hal hbud
  have ho : o ∈ r.active := hal.1
  have hph := hinv.phase.running (List.ne_nil_of_mem ho)
  have hroom := hroomy.2 hph
  have hbuf := (hinv.phase.of_running hph).2.1
  have hcard := hroom.card_logged hbuf
  have hshort := hbuf.short
  refine ⟨not_congr ?_, ?_⟩
  · rw [LogRun.step_write_error hinv ho]
    omega
  · intro hnew
    have hlt := (hroom.new_block hinv.ops hbuf ho
      (fun hm => hnew (hbuf.mem_logged.mpr hm)) hbud).2
    omega

end

/-- After initlog, three operations log ten blocks each. -/
def fullLog : List (LogEvent (Fin 256 → UInt32)) :=
  [.disk, .disk, .disk, .begin, .begin, .begin] ++
    (List.range 30).map fun i => .write (i / 10) (100 + i) fun _ => 1

/-- Two of thirty blocks: there is room. -/
theorem log_write_fits_two :
    ∃ r : LogRun (Fin 256 → UInt32),
      Reaches (LogStep logHeader LogRun.InBudget)
        (LogRun.boot 2 blankDisk) r ∧
      r.step logHeader (.write 0 100 fun _ => 2) ≠ .error .tooBig := by
  have hrun : Reaches (LogStep logHeader LogRun.InBudget)
      (LogRun.boot 2 blankDisk) _ :=
    LogRun.reaches_of_play (e := [.disk, .disk, .disk,
      .begin, .write 0 100 (fun _ => 1), .write 0 101 (fun _ => 1)]) rfl
  refine ⟨_, hrun, ?_⟩
  exact (((log_write_fits_iff recoverable_blank hrun).2 0 100 _
    (by decide) (by decide)).1).mpr (by decide)

/-- The log is full and an operation writes a block once more that it has
logged: log_write panics. -/
theorem log_write_full_panics :
    ∃ r : LogRun (Fin 256 → UInt32),
      Reaches (LogStep logHeader LogRun.InBudget)
        (LogRun.boot 2 blankDisk) r ∧
      r.Allowed (.write 0 100 fun _ => 2) ∧
      r.InBudget (.write 0 100 fun _ => 2) ∧ 100 ∈ r.blocksOf 0 ∧
      r.step logHeader (.write 0 100 fun _ => 2) = .error .tooBig := by
  have hrun : ∃ r, (LogRun.boot 2 blankDisk).play logHeader LogRun.InBudget
      fullLog = some r ∧ r.Allowed (.write 0 100 fun _ => 2) ∧
      r.InBudget (.write 0 100 fun _ => 2) ∧ 100 ∈ r.blocksOf 0 ∧
      r.step logHeader (.write 0 100 fun _ => 2) = .error .tooBig := by
    refine ⟨_, rfl, ?_, ?_, ?_, rfl⟩
    · decide
    · decide
    · decide
  obtain ⟨r, hplay, hrest⟩ := hrun
  exact ⟨r, LogRun.reaches_of_play hplay, hrest⟩

end Xv6Labs.Model
