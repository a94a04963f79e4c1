/-
Crash atomicity of the log.

A disk is `Recoverable` to a state when the blocks the header does not name
already hold it and the log blocks hold the rest. Every disk write of a
commit or a recovery keeps the disk recoverable, so a crash at any point
loses nothing that was committed (`log_crash_atomic`).
-/
import Xv6Labs.Proofs.LogRuns

namespace Xv6Labs.Model

open Lib Function

variable {β : Type}

-- == what a disk says

theorem Home.ne_start {start b : Nat} (h : Home start b) : b ≠ start := by
  unfold Home at h
  omega

theorem Home.ne_slot {start b i : Nat} (h : Home start b)
    (hi : i < logBlocks) : b ≠ start + i + 1 := by
  unfold Home at h
  omega

/-- A recovery of this disk gives `D`. -/
structure Recoverable (c : HeadCodec β) (start : Nat) (disk D : Nat → β) : Prop where
  short : (c.get (disk start)).length ≤ logBlocks
  home : ∀ b ∈ c.get (disk start), Home start b
  other : ∀ b, Home start b → b ∉ c.get (disk start) → disk b = D b
  slot : ∀ i b, (c.get (disk start))[i]? = some b → disk (start + i + 1) = D b

/-- The home blocks hold `D` and the log is empty. -/
structure Log.Clean (c : HeadCodec β) (s : Log β) (D : Nat → β) : Prop where
  head : c.get (s.disk s.start) = []
  home : ∀ b, Home s.start b → s.disk b = D b

theorem Log.Clean.recoverable {c : HeadCodec β} {s : Log β} {D : Nat → β}
    (h : s.Clean c D) : Recoverable c s.start s.disk D where
  short := by
    rw [h.head]
    exact Nat.zero_le _
  home b hb := by
    rw [h.head] at hb
    exact absurd hb List.not_mem_nil
  other b hb _ := h.home b hb
  slot i b hb := by
    rw [h.head] at hb
    cases hb

def Write.pair (w : Write β) : Nat × β := (w.block, w.data)

/-- The header in memory names the blocks of `ws`, and the buffers hold `D`
under `ws`. -/
structure Log.Buffered (s : Log β) (D : Nat → β) (ws : List (Write β)) : Prop where
  short : s.lh.length ≤ logBlocks
  home : ∀ b ∈ s.lh, Home s.start b
  wide : ∀ b ∈ s.lh, b < 2 ^ 32
  keys : ∀ b, b ∈ s.lh ↔ b ∈ ws.map Write.block
  cache : ∀ b, Home s.start b → s.cache b = overlay D (ws.map Write.pair) b

/-- The first `tail` logged blocks are in the log area. -/
def Log.Copied (s : Log β) (tail : Nat) : Prop :=
  ∀ i b, i < tail → s.lh[i]? = some b → s.disk (s.start + i + 1) = s.cache b

/-- install_trans, with `tail` blocks at home. -/
structure Log.Installing (c : HeadCodec β) (s : Log β) (D : Nat → β) (tail : Nat) : Prop where
  head : c.get (s.disk s.start) = s.lh
  recoverable : Recoverable c s.start s.disk D
  done : ∀ i b, i < tail → s.lh[i]? = some b → s.disk b = D b

/-- All blocks are at home, and the header on the disk is not yet cleared. -/
structure Log.Installed (c : HeadCodec β) (s : Log β) (D : Nat → β) : Prop where
  empty : s.lh = []
  recoverable : Recoverable c s.start s.disk D
  home : ∀ b, Home s.start b → s.disk b = D b

/-- The buffers of the home blocks hold `D`. -/
def Log.Cached (s : Log β) (D : Nat → β) : Prop := ∀ b, Home s.start b → s.cache b = D b

-- == one disk write

section

variable {c : HeadCodec β} {s s' : Log β} {D : Nat → β}
  {ws : List (Write β)} {tail b : Nat}

theorem Log.Buffered.slot_lt (h : s.Buffered D ws) (hb : s.lh[tail]? = some b) : tail < logBlocks :=
  Nat.lt_of_lt_of_le (List.getElem?_eq_some_iff.mp hb).1 h.short

/-- A write of a log block leaves the header and the home blocks. -/
theorem Log.Clean.writeSlot (h : s.Clean c D) {v : β} {ph : Phase} (hi : tail < logBlocks) :
    { s.bwrite (s.start + tail + 1) v with phase := ph : Log β }.Clean c D where
  head := by
    show c.get (update s.disk (s.start + tail + 1) v s.start) = []
    rw [update_of_ne (by omega)]
    exact h.head
  home x hx := by
    have hx' : Home s.start x := hx
    show update s.disk (s.start + tail + 1) v x = D x
    rw [update_of_ne (Home.ne_slot hx' hi)]
    exact h.home x hx'

theorem Log.Copied.writeSlot (h : s.Copied tail) {ph : Phase} (hb : s.lh[tail]? = some b) :
    { s.bwrite (s.start + tail + 1) (s.cache b) with
      phase := ph : Log β }.Copied (tail + 1) := by
  intro i x hi hx
  show update s.disk (s.start + tail + 1) (s.cache b) (s.start + i + 1) = s.cache x
  by_cases heq : i = tail
  · subst heq
    have hbx : b = x := Option.some.inj (hb.symm.trans hx)
    rw [update_self, hbx]
  · rw [update_of_ne (by omega)]
    exact h i x (by omega) hx

/-- The commit point: from here on a recovery gives the buffers. -/
theorem Log.Clean.writeHead (h : s.Clean c D) (hb : s.Buffered D ws)
    (hc : s.Copied s.lh.length) {ph : Phase} :
    { s.writeHead c with phase := ph : Log β }.Installing c (overlay D (ws.map Write.pair)) 0 := by
  have hget : c.get (update s.disk s.start (c.put (s.disk s.start) s.lh) s.start) = s.lh := by
    rw [update_self]
    exact c.get_put _ _ hb.short hb.wide
  refine ⟨hget, ⟨?_, ?_, ?_, ?_⟩, fun i b hi _ => absurd hi (Nat.not_lt_zero _)⟩
  · show (c.get (update s.disk s.start _ s.start)).length ≤ logBlocks
    rw [hget]
    exact hb.short
  · show ∀ x ∈ c.get (update s.disk s.start _ s.start), _
    rw [hget]
    exact hb.home
  · intro x hx hn
    have hx' : Home s.start x := hx
    have hn' : x ∉ s.lh := fun hm => hn (hget.symm ▸ hm)
    show update s.disk s.start _ x = _
    rw [update_of_ne (Home.ne_start hx'), h.home x hx']
    refine (overlay_of_not_mem ?_).symm
    intro w hw heq
    obtain ⟨w', hm, hw'⟩ := List.mem_map.mp hw
    refine hn' ((hb.keys x).mpr (List.mem_map.mpr ⟨w', hm, ?_⟩))
    rw [← heq, ← hw']
    rfl
  · intro i x hx
    have hx' : s.lh[i]? = some x := hget ▸ hx
    have hm : x ∈ s.lh := List.mem_of_getElem? hx'
    show update s.disk s.start _ (s.start + i + 1) = _
    rw [update_of_ne (by omega),
      hc i x (List.getElem?_eq_some_iff.mp hx').1 hx', hb.cache x (hb.home x hm)]

theorem Log.Installing.slot (h : s.Installing c D tail) (hb : s.lh[tail]? = some b) :
    s.disk (s.start + tail + 1) = D b ∧ Home s.start b := by
  have hb' : (c.get (s.disk s.start))[tail]? = some b := by
    rw [h.head]
    exact hb
  exact ⟨h.recoverable.slot tail b hb', h.recoverable.home b (List.mem_of_getElem? hb')⟩

/-- A block goes home: the header and the log blocks stay, so the disk stays
recoverable to the same state. -/
theorem Log.Installing.installBlock (h : s.Installing c D tail) {ph : Phase}
    (hb : s.lh[tail]? = some b) :
    { s.installBlock tail b with phase := ph : Log β }.Installing c D (tail + 1) := by
  obtain ⟨hv, hhome⟩ := h.slot hb
  have hdisk : (s.installBlock tail b).disk = update s.disk b (D b) := by
    rw [← hv]
    rfl
  have hstart : (s.installBlock tail b).disk s.start = s.disk s.start := by
    rw [hdisk, update_of_ne (Home.ne_start hhome).symm]
  have hhead : c.get ((s.installBlock tail b).disk s.start) = s.lh := by
    rw [hstart]
    exact h.head
  have hrec := h.recoverable
  refine ⟨hhead, ⟨?_, ?_, ?_, ?_⟩, ?_⟩
  · show (c.get ((s.installBlock tail b).disk s.start)).length ≤ logBlocks
    rw [hstart]
    exact hrec.short
  · show ∀ x ∈ c.get ((s.installBlock tail b).disk s.start), Home s.start x
    rw [hstart]
    exact hrec.home
  · intro x hx hn
    have hn' : x ∉ c.get (s.disk s.start) := hstart ▸ hn
    rw [hdisk, update_apply]
    split
    next heq => rw [heq]
    next => exact hrec.other x hx hn'
  · intro i x hx
    have hx' : (c.get (s.disk s.start))[i]? = some x := hstart ▸ hx
    have hi := Nat.lt_of_lt_of_le (List.getElem?_eq_some_iff.mp hx').1 hrec.short
    show (s.installBlock tail b).disk (s.start + i + 1) = D x
    rw [hdisk, update_of_ne (Home.ne_slot hhome hi).symm]
    exact hrec.slot i x hx'
  · intro i x hi hx
    rw [hdisk, update_apply]
    split
    next heq => rw [heq]
    next hne =>
      -- `x` is not the block of this turn, so its turn was before
      refine h.done i x (Nat.lt_of_le_of_ne (Nat.le_of_lt_succ hi) ?_) hx
      intro heq
      subst heq
      exact hne (Option.some.inj (hx.symm.trans hb))

theorem Log.Installing.installed (h : s.Installing c D tail) {ph : Phase}
    (hn : s.lh[tail]? = none) :
    { s with lh := [], phase := ph : Log β }.Installed c D := by
  refine ⟨rfl, h.recoverable, ?_⟩
  intro b hb
  by_cases hm : b ∈ s.lh
  · obtain ⟨i, hi⟩ := List.mem_iff_getElem?.mp hm
    have hlt := (List.getElem?_eq_some_iff.mp hi).1
    have hle := List.getElem?_eq_none_iff.mp hn
    exact h.done i b (Nat.lt_of_lt_of_le hlt hle) hi
  · refine h.recoverable.other b hb ?_
    rw [h.head]
    exact hm

theorem Log.Installed.clean (h : s.Installed c D) {ph : Phase} :
    { s.writeHead c with phase := ph : Log β }.Clean c D where
  head := by
    show c.get (update s.disk s.start (c.put _ s.lh) s.start) = []
    rw [update_self, h.empty]
    exact c.get_put _ _ (Nat.zero_le _) (fun _ hx => absurd hx List.not_mem_nil)
  home b hb := by
    have hb' : Home s.start b := hb
    show update s.disk s.start _ b = D b
    rw [update_of_ne (Home.ne_start hb')]
    exact h.home b hb'

theorem Log.installBlock_cache (s : Log β) (tail b x : Nat) :
    (s.installBlock tail b).cache x = if x = b then s.disk (s.start + tail + 1) else s.cache x :=
  update_apply ..

theorem Log.installBlock_disk (s : Log β) (tail b x : Nat) :
    (s.installBlock tail b).disk x = if x = b then s.disk (s.start + tail + 1) else s.disk x :=
  update_apply ..

theorem Log.Cached.installBlock (h : s.Cached D) (hi : s.Installing c D tail)
    {ph : Phase} (hb : s.lh[tail]? = some b) :
    { s.installBlock tail b with phase := ph : Log β }.Cached D := by
  intro x hx
  rw [s.installBlock_cache]
  split
  next heq =>
    rw [heq]
    exact (hi.slot hb).1
  next => exact h x hx

theorem Log.Cached.installBlock_self (h : s.Cached s.disk) {ph : Phase} :
    { s.installBlock tail b with phase := ph : Log β }.Cached (s.installBlock tail b).disk := by
  intro x hx
  rw [s.installBlock_cache, s.installBlock_disk, h x hx]

-- == log_write

theorem logWrite_ok {v : β} (h : logWrite (s.modify b v) b = .ok s') :
    s.lh.length < logBlocks ∧ s' =
      { s.modify b v with lh := if b ∈ s.lh then s.lh else s.lh ++ [b] } := by
  unfold logWrite at h
  split at h
  · cases h
  next hlt =>
    split at h
    · cases h
    · cases h
      exact ⟨Nat.lt_of_not_le hlt, rfl⟩

theorem Log.Buffered.logged {v : β} {o : Nat} (h : s.Buffered D ws)
    (hhome : Home s.start b) (hwide : b < 2 ^ 32) (hs : logWrite (s.modify b v) b = .ok s') :
    s'.Buffered D (ws ++ [⟨o, b, v⟩]) := by
  obtain ⟨hlt, rfl⟩ := logWrite_ok hs
  have hmem : ∀ x, x ∈ (if b ∈ s.lh then s.lh else s.lh ++ [b]) ↔ x ∈ s.lh ∨ x = b := by
    intro x
    split
    next hb => exact ⟨.inl, fun hx => hx.elim id (fun heq => heq ▸ hb)⟩
    next => rw [List.mem_append, List.mem_singleton]
  refine ⟨?_, ?_, ?_, ?_, ?_⟩
  · show (if b ∈ s.lh then s.lh else s.lh ++ [b]).length ≤ logBlocks
    split
    · exact h.short
    · rw [List.length_append]
      exact hlt
  · intro x hx
    cases (hmem x).mp hx with
    | inl hx => exact h.home x hx
    | inr heq => exact heq ▸ hhome
  · intro x hx
    cases (hmem x).mp hx with
    | inl hx => exact h.wide x hx
    | inr heq => exact heq ▸ hwide
  · intro x
    rw [List.map_append, List.mem_append, ← h.keys x]
    exact (hmem x).trans (or_congr_right List.mem_singleton.symm)
  intro x hx
  show update s.cache b v x = _
  rw [List.map_append, List.map_singleton, overlay_snoc]
  show _ = update (overlay D (ws.map Write.pair)) b v x
  rw [update_apply, update_apply, h.cache x hx]

end

-- == every phase

/-- The disk the machine was switched on with, under the committed
transactions. -/
def LogRun.durable (r : LogRun β) (init : Nat → β) : Nat → β :=
  overlay init (r.hist.flatten.map Write.pair)

/-- A commit runs and its transaction is not yet committed. -/
structure LogRun.Closing (r : LogRun β) : Prop where
  committing : r.s.committing = true
  active : r.active = []
  cur : r.cur = r.group

/-- A commit runs and its transaction is committed, if it wrote at all. -/
structure LogRun.Closed (r : LogRun β) : Prop where
  committing : r.s.committing = true
  active : r.active = []
  group : r.group = []
  cur : r.cur ∈ r.hist ∨ r.cur = []

/-- A recovery runs. -/
structure LogRun.Booting (r : LogRun β) : Prop where
  committing : r.s.committing = false
  active : r.active = []
  group : r.group = []
  cached : r.s.Cached r.s.disk

/-- What holds in each phase, when `D` is the durable state. -/
def LogRun.AtPhase (r : LogRun β) (c : HeadCodec β) (D : Nat → β) : Prop :=
  match r.s.phase with
  | .running =>
    r.s.Clean c D ∧ r.s.Buffered D r.group ∧ r.s.committing = false
  | .commit => r.s.Clean c D ∧ r.s.Buffered D r.group ∧ r.Closing
  | .writeLog tail =>
    r.s.Clean c D ∧ r.s.Buffered D r.group ∧ r.Closing ∧ r.s.Copied tail
  | .writeHead =>
    r.s.Clean c D ∧ r.s.Buffered D r.group ∧ r.Closing ∧ r.s.Copied r.s.lh.length
  | .install tail => r.s.Installing c D tail ∧ r.s.Cached D ∧ r.Closed
  | .clearHead => r.s.Installed c D ∧ r.s.Cached D ∧ r.Closed
  | .commitEnd => r.s.Clean c D ∧ r.s.lh = [] ∧ r.s.Cached D ∧ r.Closed
  | .recoverRead => Recoverable c r.s.start r.s.disk D ∧ r.s.lh = [] ∧ r.Booting
  | .recoverInstall tail => r.s.Installing c D tail ∧ r.Booting
  | .recoverClear => r.s.Installed c D ∧ r.Booting

structure LogRun.Inv (r : LogRun β) (c : HeadCodec β) (init : Nat → β) : Prop where
  ops : r.Ops
  count : r.s.outstanding = r.active.length
  acked : ∀ g ∈ r.acked, g ∈ r.hist ∨ g = []
  phase : r.AtPhase c (r.durable init)

section

variable {c : HeadCodec β} {r r' : LogRun β} {s s' : Log β}
  {D init : Nat → β}

theorem LogRun.AtPhase.recoverable (h : r.AtPhase c D) : Recoverable c r.s.start r.s.disk D := by
  unfold LogRun.AtPhase at h
  split at h
  case h_8 => exact h.1
  all_goals exact h.1.recoverable

/-- In every other phase no operation is open and begin_op sleeps. -/
theorem LogRun.AtPhase.busy (h : r.AtPhase c D) (hne : r.s.phase ≠ .running) :
    r.active = [] ∧ (r.s.committing = true ∨ r.s.phase.booting = true) := by
  unfold LogRun.AtPhase at h
  split at h
  next hph => exact absurd hph hne
  next => exact ⟨h.2.2.active, .inl h.2.2.committing⟩
  next => exact ⟨h.2.2.1.active, .inl h.2.2.1.committing⟩
  next => exact ⟨h.2.2.1.active, .inl h.2.2.1.committing⟩
  next => exact ⟨h.2.2.active, .inl h.2.2.committing⟩
  next => exact ⟨h.2.2.active, .inl h.2.2.committing⟩
  next => exact ⟨h.2.2.2.active, .inl h.2.2.2.committing⟩
  next hph => exact ⟨h.2.2.active, .inr (hph ▸ rfl)⟩
  next hph => exact ⟨h.2.active, .inr (hph ▸ rfl)⟩
  next hph => exact ⟨h.2.active, .inr (hph ▸ rfl)⟩

/-- An operation is open in no phase but `running`. -/
theorem LogRun.AtPhase.running (h : r.AtPhase c D) (ha : r.active ≠ []) : r.s.phase = .running :=
  not_not.mp fun hne => ha (h.busy hne).1

/-- begin_op succeeds in no phase but `running`. -/
theorem LogRun.AtPhase.running_of_begin (h : r.AtPhase c D)
    (hb : r.s.phase.booting = false) (hc : r.s.committing = false) : r.s.phase = .running := by
  by_contra hne
  rcases (h.busy hne).2 with ht | ht
  · exact absurd (hc.symm.trans ht) Bool.noConfusion
  · exact absurd (hb.symm.trans ht) Bool.noConfusion

theorem LogRun.AtPhase.of_running (h : r.AtPhase c D) (hph : r.s.phase = .running) :
    r.s.Clean c D ∧ r.s.Buffered D r.group ∧ r.s.committing = false := by
  unfold LogRun.AtPhase at h
  rw [hph] at h
  exact h

theorem LogRun.atPhase_running (hph : r.s.phase = .running)
    (hclean : r.s.Clean c D) (hbuf : r.s.Buffered D r.group)
    (hc : r.s.committing = false) : r.AtPhase c D := by
  unfold LogRun.AtPhase
  rw [hph]
  exact ⟨hclean, hbuf, hc⟩

theorem Log.Buffered.of_cached (h : s.Cached D) (hl : s.lh = []) : s.Buffered D [] where
  short := by
    rw [hl]
    exact Nat.zero_le _
  home b hb := by
    rw [hl] at hb
    exact absurd hb List.not_mem_nil
  wide b hb := by
    rw [hl] at hb
    exact absurd hb List.not_mem_nil
  keys b := by rw [hl, List.map_nil]
  cache b hb := h b hb

theorem Log.Buffered.group_nil {ws : List (Write β)} (h : s.Buffered D ws)
    (hl : ¬ 0 < s.lh.length) : s.lh = [] ∧ ws = [] := by
  have hnil : s.lh = [] := List.length_eq_zero_iff.mp (by omega)
  refine ⟨hnil, List.eq_nil_iff_forall_not_mem.mpr ?_⟩
  intro w hw
  have hm := (h.keys w.block).mpr (List.mem_map_of_mem hw)
  rw [hnil] at hm
  exact List.not_mem_nil hm

/-- The step of a commit or a recovery, phase by phase. -/
theorem LogRun.AtPhase.disk (h : r.AtPhase c (r.durable init)) (hs : diskStep c r.s = some s) :
    (r.settle s).AtPhase c ((r.settle s).durable init) := by
  unfold LogRun.AtPhase at h
  unfold diskStep at hs
  unfold LogRun.settle
  split at h
  next hph =>
    rw [hph] at hs
    cases hs
  next hph =>
    -- the call of commit: an empty transaction is over at once
    obtain ⟨hclean, hbuf, hcl⟩ := h
    simp only [hph, Option.some.injEq] at hs ⊢
    subst hs
    by_cases hl : 0 < r.s.lh.length
    · rw [if_pos hl]
      refine ⟨{ hclean with }, { hbuf with }, { hcl with }, ?_⟩
      intro i b hi _
      exact absurd hi (Nat.not_lt_zero i)
    rw [if_neg hl]
    obtain ⟨hlh, hg⟩ := hbuf.group_nil hl
    refine ⟨{ hclean with }, hlh, ?_, hcl.committing, hcl.active, hg, .inr (hcl.cur.trans hg)⟩
    intro b hb
    have hcache := hbuf.cache b hb
    rw [hg] at hcache
    exact hcache
  next tail hph =>
    obtain ⟨hclean, hbuf, hcl, hcop⟩ := h
    simp only [hph] at hs ⊢
    split at hs
    next b hb =>
      cases hs
      exact ⟨hclean.writeSlot (hbuf.slot_lt hb), { hbuf with },
        { hcl with }, hcop.writeSlot hb⟩
    next hn =>
      cases hs
      refine ⟨{ hclean with }, { hbuf with },
        { hcl with }, ?_⟩
      intro i b hi hb
      have hle := List.getElem?_eq_none_iff.mp hn
      exact hcop i b (Nat.lt_of_lt_of_le hi hle) hb
  next hph =>
    obtain ⟨hclean, hbuf, hcl, hcop⟩ := h
    simp only [hph, Option.some.injEq] at hs ⊢
    subst hs
    have hdur : overlay init ((r.hist ++ [r.group]).flatten.map Write.pair) =
        overlay (r.durable init) (r.group.map Write.pair) := by
      rw [List.flatten_append, List.flatten_singleton, List.map_append, overlay_append]
      rfl
    show Log.Installing c _ (overlay init _) 0 ∧ Log.Cached _ (overlay init _) ∧ _
    rw [hdur]
    refine ⟨hclean.writeHead hbuf hcop, hbuf.cache, hcl.committing, hcl.active, rfl, .inl ?_⟩
    rw [hcl.cur]
    exact List.mem_append_right _ (List.mem_singleton_self _)
  next tail hph =>
    obtain ⟨hin, hcache, hcl⟩ := h
    simp only [hph] at hs ⊢
    split at hs
    next b hb =>
      cases hs
      exact ⟨hin.installBlock hb, hcache.installBlock hin hb,
        hcl.committing, hcl.active, hcl.group, hcl.cur⟩
    next hn =>
      cases hs
      exact ⟨hin.installed hn, hcache, hcl.committing, hcl.active, hcl.group, hcl.cur⟩
  next hph =>
    obtain ⟨hin, hcache, hcl⟩ := h
    simp only [hph, Option.some.injEq] at hs ⊢
    subst hs
    exact ⟨hin.clean, hin.empty, hcache, hcl.committing, hcl.active, hcl.group, hcl.cur⟩
  next hph =>
    obtain ⟨hclean, hlh, hcache, hcl⟩ := h
    simp only [hph, Option.some.injEq] at hs ⊢
    subst hs
    refine ⟨{ hclean with }, ?_, rfl⟩
    rw [hcl.group]
    exact Log.Buffered.of_cached hcache hlh
  next hph =>
    obtain ⟨hrec, _, hboot⟩ := h
    simp only [hph, Option.some.injEq] at hs ⊢
    subst hs
    refine ⟨⟨rfl, hrec, ?_⟩, hboot.committing, hboot.active, hboot.group, hboot.cached⟩
    intro i b hi _
    exact absurd hi (Nat.not_lt_zero i)
  next tail hph =>
    obtain ⟨hin, hboot⟩ := h
    simp only [hph] at hs ⊢
    split at hs
    next b hb =>
      cases hs
      exact ⟨hin.installBlock hb, hboot.committing, hboot.active,
        hboot.group, hboot.cached.installBlock_self⟩
    next hn =>
      cases hs
      exact ⟨hin.installed hn, hboot.committing, hboot.active, hboot.group, hboot.cached⟩
  next hph =>
    -- recovery is over: the buffers hold what is on the disk
    obtain ⟨hin, hboot⟩ := h
    simp only [hph, Option.some.injEq] at hs ⊢
    subst hs
    refine ⟨hin.clean, ?_, hboot.committing⟩
    rw [hboot.group]
    refine Log.Buffered.of_cached ?_ hin.empty
    intro b hb
    exact (hboot.cached b hb).trans (hin.home b hb)

/-- No disk step opens or ends an operation, or moves the log; one of a
recovery leads on in the recovery or ends it. -/
theorem diskStep_frame (hs : diskStep c s = some s') :
    s'.start = s.start ∧ s'.outstanding = s.outstanding ∧
      (s.phase.booting = true → s'.phase = .running ∨ s'.phase.booting = true) := by
  unfold diskStep at hs
  repeat' split at hs
  all_goals cases hs
  all_goals simp_all [Log.writeHead, Log.bwrite, Log.installBlock, Log.modify, Phase.booting]

theorem LogRun.settle_active (r : LogRun β) (s : Log β) : (r.settle s).active = r.active := by
  unfold LogRun.settle
  split
  · rfl
  · rfl
  · rfl

theorem LogRun.settle_s (r : LogRun β) (s : Log β) : (r.settle s).s = s := by
  unfold LogRun.settle
  split
  · rfl
  · rfl
  · rfl

theorem LogRun.Inv.disk (h : r.Inv c init) (hs : diskStep c r.s = some s) :
    (r.settle s).Inv c init := by
  have hidle : r.s.phase = .writeHead → r.active = [] := by
    intro hph
    by_contra ha
    have hrun := h.phase.running ha
    rw [hph] at hrun
    cases hrun
  refine ⟨h.ops.settle hidle, ?_, ?_, h.phase.disk hs⟩
  · rw [r.settle_s, r.settle_active, (diskStep_frame hs).2.1]
    exact h.count
  intro g hg
  have hp := h.phase
  unfold LogRun.AtPhase at hp
  unfold LogRun.settle at hg ⊢
  split at hg
  next => exact (h.acked g hg).imp_left (List.mem_append_left _)
  next hph =>
    simp only [hph] at hp ⊢
    cases List.mem_append.mp hg with
    | inl hg => exact h.acked g hg
    | inr hg =>
      rw [List.mem_singleton.mp hg]
      exact hp.2.2.2.cur
  next => exact h.acked g hg

-- == every event

theorem beginOp_some (h : beginOp r.s = some s) :
    r.s.committing = false ∧
      ¬ (logBlocks : Int) < r.s.lh.length + (r.s.outstanding + 1) * maxOpBlocks ∧
      s = { r.s with outstanding := r.s.outstanding + 1 } := by
  unfold beginOp at h
  split at h
  · cases h
  next hc =>
    split at h
    · cases h
    next hroom =>
      cases h
      exact ⟨Bool.eq_false_iff.mpr hc, hroom, rfl⟩

theorem LogRun.Inv.begin (h : r.Inv c init)
    (hb : r.s.phase.booting = false) (hs : beginOp r.s = some s) :
    { r with s, fresh := r.fresh + 1, active := r.fresh :: r.active : LogRun β }.Inv c init := by
  obtain ⟨hc, _, rfl⟩ := beginOp_some hs
  have hph := h.phase.running_of_begin hb hc
  obtain ⟨hclean, hbuf, _⟩ := h.phase.of_running hph
  refine ⟨h.ops.begin, ?_, h.acked, LogRun.atPhase_running hph
    { hclean with }
    { hbuf with } hc⟩
  rw [h.count]
  rfl

theorem LogRun.Inv.write {o b : Nat} {v : β} (h : r.Inv c init)
    (ho : o ∈ r.active) (hhome : Home r.s.start b) (hwide : b < 2 ^ 32)
    (hs : logWrite (r.s.modify b v) b = .ok s) :
    { r with s, writes := r.writes ++ [⟨o, b, v⟩],
             group := r.group ++ [⟨o, b, v⟩] : LogRun β }.Inv c init := by
  have hph := h.phase.running (List.ne_nil_of_mem ho)
  obtain ⟨hclean, hbuf, hc⟩ := h.phase.of_running hph
  have hbuf' := hbuf.logged (o := o) hhome hwide hs
  obtain ⟨_, rfl⟩ := logWrite_ok hs
  exact ⟨h.ops.write ho, h.count, h.acked, LogRun.atPhase_running hph
    { hclean with } hbuf' hc⟩

theorem LogRun.Inv.finish {o : Nat} (h : r.Inv c init) (ho : o ∈ r.active)
    (hs : endOp r.s = .ok s) :
    { r with s, active := r.active.erase o, cur := r.group : LogRun β }.Inv c init := by
  have hph := h.phase.running (List.ne_nil_of_mem ho)
  obtain ⟨hclean, hbuf, hc⟩ := h.phase.of_running hph
  have hpos := List.length_pos_of_mem ho
  have hlen : (r.active.erase o).length = r.active.length - 1 := List.length_erase_of_mem ho
  have hcount : r.s.outstanding - 1 = ((r.active.erase o).length : Int) := by
    rw [h.count]
    omega
  unfold endOp at hs
  extract_lets outstanding at hs
  rw [hc, if_neg Bool.false_ne_true] at hs
  split at hs
  next hz =>
    cases hs
    -- the last one out commits
    have hnil : r.active.erase o = [] := by
      refine List.length_eq_zero_iff.mp ?_
      omega
    exact ⟨h.ops.finish, hcount, h.acked, { hclean with },
      { hbuf with },
      rfl, hnil, rfl⟩
  next =>
    cases hs
    exact ⟨h.ops.finish, hcount, h.acked, LogRun.atPhase_running hph
      { hclean with }
      { hbuf with } rfl⟩

theorem LogRun.Inv.crash (h : r.Inv c init) :
    { r with s := r.s.crash, active := [], group := [], cur := [] : LogRun β }.Inv c init :=
  ⟨h.ops.crash, rfl, h.acked, h.phase.recoverable, rfl, rfl, rfl, rfl, fun _ _ => rfl⟩

theorem LogStep.inv {C : LogRun β → LogEvent β → Prop} (h : r.Inv c init)
    (hstep : LogStep c C r r') : r'.Inv c init := by
  refine hstep.elim ?_ ?_ ?_ ?_ ?_
  · intro s hb hs heq
    exact heq ▸ h.begin hb hs
  · intro o b v s ho hhome hwide _ hs heq
    exact heq ▸ h.write ho hhome hwide hs
  · intro o s ho hs heq
    exact heq ▸ h.finish ho hs
  · intro s hs heq
    exact heq ▸ h.disk hs
  · intro heq
    exact heq ▸ h.crash

theorem LogRun.inv_boot {start : Nat} {disk : Nat → β}
    (h : Recoverable c start disk init) :
    (LogRun.boot start disk).Inv c init where
  ops := LogRun.ops_boot start disk
  count := rfl
  acked _ hg := absurd hg List.not_mem_nil
  phase := ⟨h, rfl, rfl, rfl, rfl, fun _ _ => rfl⟩

theorem LogRun.inv_of_reaches {C : LogRun β → LogEvent β → Prop} {start : Nat}
    {disk : Nat → β} (hd : Recoverable c start disk init)
    (hr : Reaches (LogStep c C) (LogRun.boot start disk) r) : r.Inv c init :=
  hr.inv (LogRun.inv_boot hd) fun _ _ h hs => LogStep.inv h hs

-- == recovery

theorem LogRun.settle_hist (h : r.s.phase.booting = true) : (r.settle s).hist = r.hist := by
  unfold LogRun.settle
  split
  next hph =>
    rw [hph] at h
    cases h
  · rfl
  · rfl

/-- A recovery is a run of disk steps after a crash, so the invariant holds
at its end. -/
theorem LogRun.Inv.recovers (h : r.Inv c init) (hs : Recovers c r.s s') :
    ∃ q : LogRun β, q.s = s' ∧ q.Inv c init ∧ q.hist = r.hist ∧ q.s.start = r.s.start := by
  let P (t : Log β) : Prop :=
    (t.phase = .running ∨ t.phase.booting = true) ∧ ∃ q : LogRun β,
      q.s = t ∧ q.Inv c init ∧ q.hist = r.hist ∧ q.s.start = r.s.start
  have hstep : ∀ t t', P t → diskStep c t = some t' → P t' := by
    intro t t' ⟨hph, q, hq, hinv, hh, hst⟩ ht
    subst hq
    have hboot : q.s.phase.booting = true := by
      cases hph with
      | inl hrun =>
        unfold diskStep at ht
        rw [hrun] at ht
        cases ht
      | inr hboot => exact hboot
    obtain ⟨hst', _, hph'⟩ := diskStep_frame ht
    refine ⟨hph' hboot, q.settle t', q.settle_s t', hinv.disk ht,
      (LogRun.settle_hist hboot).trans hh, ?_⟩
    rw [q.settle_s, hst', hst]
  exact (hs.1.inv ⟨.inr rfl, _, rfl, h.crash, rfl, rfl⟩ hstep).2

/-- What a recovery leaves at home. -/
theorem LogRun.Inv.recovered (h : r.Inv c init) (hs : Recovers c r.s s')
    {b : Nat} (hb : Home r.s.start b) : s'.disk b = r.durable init b := by
  obtain ⟨q, rfl, hinv, hh, hst⟩ := h.recovers hs
  have hclean := (hinv.phase.of_running hs.2).1.home b (hst ▸ hb)
  unfold LogRun.durable at hclean ⊢
  rw [hclean, hh]

/-- install_trans of a recovery goes through its blocks. -/
theorem install_completes (c : HeadCodec β) : ∀ (n tail : Nat) (s : Log β),
    s.phase = .recoverInstall tail → s.lh.length - tail = n →
    ∃ s', Reaches (fun t t' => diskStep c t = some t') s s' ∧ s'.phase = .recoverClear := by
  intro n
  induction n with
  | zero =>
    intro tail s hph hn
    have hnone : s.lh[tail]? = none := List.getElem?_eq_none_iff.mpr (by omega)
    refine ⟨{ s with lh := [], phase := .recoverClear }, (Reaches.refl s).step ?_, rfl⟩
    unfold diskStep
    simp only [hph, hnone]
  | succ n ih =>
    intro tail s hph hn
    have hlt : tail < s.lh.length := by omega
    have hsome : s.lh[tail]? = some s.lh[tail] := List.getElem?_eq_getElem hlt
    obtain ⟨s', hs', hph'⟩ := ih (tail + 1)
      { s.installBlock tail s.lh[tail] with
        phase := .recoverInstall (tail + 1) } rfl
      (by
        show s.lh.length - (tail + 1) = n
        omega)
    refine ⟨s', Relation.ReflTransGen.head ?_ hs', hph'⟩
    unfold diskStep
    simp only [hph, hsome]

/-- recover_from_log returns. -/
theorem recovers_total (c : HeadCodec β) (s : Log β) : ∃ s', Recovers c s s' := by
  obtain ⟨s1, hrun, hph⟩ := install_completes c _ 0
    { s.crash with
      lh := c.get (s.disk s.start), phase := .recoverInstall 0 } rfl rfl
  refine ⟨{ s1.writeHead c with phase := .running }, ?_, rfl⟩
  have hlast : diskStep c s1 = some { s1.writeHead c with phase := .running } := by
    unfold diskStep
    simp only [hph]
  exact Reaches.step (Relation.ReflTransGen.head rfl hrun) hlast

theorem LogStep.start {C : LogRun β → LogEvent β → Prop}
    (h : LogStep c C r r') : r'.s.start = r.s.start := by
  refine h.elim ?_ ?_ ?_ ?_ ?_
  · intro s _ hs heq
    obtain ⟨_, _, rfl⟩ := beginOp_some hs
    rw [heq]
  · intro o b v s _ _ _ _ hs heq
    obtain ⟨_, rfl⟩ := logWrite_ok hs
    rw [heq]
    rfl
  · intro o s _ hs heq
    rw [heq]
    unfold endOp at hs
    extract_lets at hs
    repeat' split at hs
    all_goals cases hs
    all_goals rfl
  · intro s hs heq
    rw [heq, r.settle_s, (diskStep_frame hs).1]
  · intro heq
    rw [heq]
    rfl

/-- Crash atomicity. Wherever the machine crashed, also in recoveries,
recover_from_log completes, and then the home blocks hold the writes of the
committed transactions and nothing else. Of an operation's log_writes all
are committed or none is; a transaction whose commit has returned is
committed, if it wrote at all; the committed transactions only become more;
and a second recovery leaves the home blocks as they are. -/
theorem log_crash_atomic {start : Nat} {disk : Nat → β}
    (hd : Recoverable c start disk init)
    (hr : Reaches (LogStep c fun _ _ => True) (LogRun.boot start disk) r) :
    (∃ s', Recovers c r.s s') ∧
    (∀ s', Recovers c r.s s' →
      ∀ b, Home start b → s'.disk b = r.durable init b) ∧
    (∀ o, writesOf o r.hist.flatten = [] ∨
      writesOf o r.hist.flatten = writesOf o r.writes) ∧
    (∀ g ∈ r.acked, g ∈ r.hist ∨ g = []) ∧
    (∀ r', Reaches (LogStep c fun _ _ => True) r r' → r.hist <+: r'.hist) ∧
    (∀ s' s'', Recovers c r.s s' → Recovers c s' s'' →
      ∀ b, Home start b → s''.disk b = s'.disk b) := by
  have hinv := LogRun.inv_of_reaches hd hr
  have hstart : r.s.start = start :=
    hr.inv (P := fun q => q.s.start = start) rfl
      fun _ _ h hs => (LogStep.start hs).trans h
  refine ⟨recovers_total c r.s, ?_, hinv.ops.all_or_none, hinv.acked, ?_, ?_⟩
  · intro s' hs b hb
    exact hinv.recovered hs (hstart ▸ hb)
  · intro r' hr'
    exact hr'.inv (P := fun q => r.hist <+: q.hist) List.prefix_rfl
      fun _ _ h hs => h.trans hs.hist_grows
  intro s' s'' hs hs' b hb
  have hfirst := hinv.recovered hs (hstart ▸ hb)
  obtain ⟨q, rfl, hq, hh, hst⟩ := hinv.recovers hs
  have hb' : Home q.s.start b := by
    rw [hst, hstart]
    exact hb
  rw [hfirst, hq.recovered hs' hb']
  unfold LogRun.durable
  rw [hh]

end

/-- A disk of zeros: the log is empty. -/
def blankDisk : Nat → Fin 256 → UInt32 := fun _ _ => 0

theorem recoverable_blank : Recoverable logHeader 2 blankDisk blankDisk :=
  Log.Clean.recoverable (s := (LogRun.boot 2 blankDisk).s) ⟨rfl, fun _ _ => rfl⟩

/-- A crash right after the header write of a commit of block 100: the block
is there after the recovery. -/
theorem log_crash_atomic_commit :
    ∃ r : LogRun (Fin 256 → UInt32),
      Reaches (LogStep logHeader fun _ _ => True)
        (LogRun.boot 2 blankDisk) r ∧
      r.s.phase = .install 0 ∧ r.s.disk 100 = blankDisk 100 ∧
      ∃ s', Recovers logHeader r.s s' ∧ s'.disk 100 = fun _ => 7 := by
  have hrun : Reaches (LogStep logHeader fun _ _ => True)
      (LogRun.boot 2 blankDisk) _ :=
    LogRun.reaches_of_play (e := [.disk, .disk, .disk,
      .begin, .write 0 100 (fun _ => 7), .finish 0, .disk, .disk, .disk,
      .disk]) rfl
  have h := log_crash_atomic recoverable_blank hrun
  obtain ⟨s', hs'⟩ := h.1
  refine ⟨_, hrun, rfl, rfl, s', hs', ?_⟩
  rw [h.2.1 s' hs' 100 (by decide)]
  rfl

end Xv6Labs.Model
