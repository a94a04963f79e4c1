/-
Is there a buffer for the commit?

NBUF is LOGBLOCKS, so a transaction of LOGBLOCKS blocks pins every buffer,
and write_log's first bread panics: "bget: no buffers". An `FsRun` is a run
in which every user belongs to an operation or only reads.
-/
import Xv6Labs.Proofs.BufferRuns

namespace Xv6Labs.Model.Bio

open Lib

variable {β : Type}
variable {k u : Nat} {o : Option (List Nat)} {t : Track β} {s s' : Io β}

-- == operations

/-- The state and its history, and what each running operation has logged. -/
structure FsRun (β : Type) where
  t : Track β
  ops : List (Option (List Nat))

/-- What can happen next; `k` is an operation. -/
inductive FsEvent (β : Type) where
  | user (u : Nat) (a : Act β)
  | beginOp (k : Nat)
  | endOp (k : Nat)
  | commit
  | commitEnd

/-- The event of the system. -/
def FsEvent.event : FsEvent β → Event β
  | .user u a => .user u a
  | .beginOp _ => .beginOp
  | .endOp _ => .endOp
  | .commit => .commit
  | .commitEnd => .commitEnd

/-- What operation `k` has logged, if it is running. -/
def FsRun.op (q : FsRun β) (k : Nat) : Option (List Nat) := q.ops[k]?.join

/-- What an operation has logged once it logs what user `u` has. -/
def FsRun.logged (q : FsRun β) (u : Nat) (l : List Nat) : List Nat :=
  match q.t.s.inHand u with
  | some (b, _) => l.insert b
  | none => l

/-- The parts of bread and brelse. -/
def Act.reads : Act β → Bool
  | .modify _ => false
  | .bwrite => false
  | .logWrite => false
  | _ => true

/-- A user of an operation that has logged `l`. -/
def OpMay (q : FsRun β) (u : Nat) (l : List Nat) : Act β → Prop
  | .bwrite => False
  | .logWrite => (q.logged u l).length ≤ maxOpBlocks
  | _ => True

/-- What operations and readers may do. -/
def Allowed (owner : Nat → Option Nat) (q : FsRun β) : FsEvent β → Prop
  | .user u a => Polite q.t.s (.user u a) ∧
      match owner u with
      | none => a.reads = true
      | some k =>
        match q.op k with
        | none => False
        | some l => OpMay q u l a
  | .beginOp k => q.ops[k]? = some none
  | .endOp k => (q.op k).isSome = true ∧ ∀ u, u < q.t.s.use.length →
      owner u = some k → q.t.s.use[u]? = some .idle
  | _ => True

instance (q : FsRun β) (u : Nat) (l : List Nat) : (a : Act β) → Decidable (OpMay q u l a)
  | .bwrite => instDecidableFalse
  | .logWrite => Nat.decLe ..
  | .bget .. | .acquire | .fill | .modify _ | .unlock | .unref => instDecidableTrue

instance (owner : Nat → Option Nat) (q : FsRun β) (e : FsEvent β) :
    Decidable (Allowed owner q e) := by
  cases e with
  | user u a =>
    refine @instDecidableAnd _ _ inferInstance ?_
    split
    · infer_instance
    · split <;> infer_instance
  | _ => unfold Allowed; infer_instance

/-- The operations after an event. -/
def FsRun.opsAfter (owner : Nat → Option Nat) (q : FsRun β) : FsEvent β → List (Option (List Nat))
  | .user u .logWrite =>
    match owner u with
    | none => q.ops
    | some k => q.ops.set k ((q.op k).map (q.logged u))
  | .beginOp k => q.ops.set k (some [])
  | .endOp k => q.ops.set k none
  | _ => q.ops

/-- One allowed event. -/
def FsRun.next (h : HeadCodec β) (owner : Nat → Option Nat) (q : FsRun β)
    (e : FsEvent β) : Option (FsRun β) :=
  if Allowed owner q e then
    (q.t.next h e.event).map fun t => ⟨t, q.opsAfter owner e⟩
  else none

/-- A step of a run of operations. -/
def FsStep (h : HeadCodec β) (owner : Nat → Option Nat) (q q' : FsRun β) : Prop :=
  ∃ e, q.next h owner e = some q'

/-- Boot, with no operation running. -/
def FsRun.boot (users slots dev start : Nat) (disk : Nat → β) : FsRun β :=
  ⟨.boot users dev start disk, List.replicate slots none⟩

-- == what is kept

/-- How many operations are running. -/
def FsRun.running (q : FsRun β) : Nat := (q.ops.map fun o => if o.isSome then 1 else 0).sum

/-- What every step keeps. -/
structure FsRun.Kept (owner : Nat → Option Nat) (q : FsRun β) : Prop where
  coherent : Coherent q.t
  count : q.running = q.t.s.outstanding
  mine : ∀ {u k : Nat} {x : Use}, 2 ≤ u → owner u = some k → q.op k = none →
    q.t.s.use[u]? = some x → x = .idle
  full : q.t.s.committing = true → nbuf ≤ q.t.s.lh.length →
    q.t.s.todo = Bio.commit q.t.s.start q.t.s.lh ∧ q.t.pinned = q.t.s.lh

section
variable {owner : Nat → Option Nat} {q q' : FsRun β} {h : HeadCodec β}
variable {l pinned : List Nat} {a : Act β} {b dev : Nat}

/-- A slot of the operations changes. -/
theorem running_set {ops : List (Option (List Nat))} {p : Option (List Nat)}
    (ho : ops[k]? = some o) :
    ((ops.set k p).map fun o => if o.isSome then 1 else 0).sum + (if o.isSome then 1 else 0)
      = (ops.map fun o => if o.isSome then 1 else 0).sum + if p.isSome then 1 else 0 :=
  sum_map_set (fun o => if o.isSome then 1 else 0) ho

theorem FsRun.slot_of_op (h : q.op k = some l) : q.ops[k]? = some (some l) := by
  exact Option.join_eq_some_iff.mp h

theorem FsRun.op_set_ne {j : Nat} (hne : j ≠ k) : (FsRun.mk t (q.ops.set k o)).op j = q.op j := by
  simp only [FsRun.op, List.getElem?_set_ne (Ne.symm hne)]

theorem FsRun.op_set_self {o' : Option (List Nat)} (ho : q.ops[k]? = some o) :
    (FsRun.mk t (q.ops.set k o')).op k = o' := by
  simp only [FsRun.op, List.getElem?_set_self (List.getElem?_eq_some_iff.mp ho).1, Option.join_some]

/-- A user's act changes which blocks an operation has logged, and not
which operations are running. -/
theorem FsRun.opsAfter_user (hu : ∀ k, owner u = some k → q.op k ≠ none) :
    (FsRun.mk t (q.opsAfter owner (.user u a))).running = q.running
    ∧ ∀ k, (FsRun.mk t (q.opsAfter owner (.user u a))).op k = none ↔ q.op k = none := by
  have hsame : (FsRun.mk t q.ops).running = q.running
      ∧ ∀ k, (FsRun.mk t q.ops).op k = none ↔ q.op k = none :=
    ⟨rfl, fun _ => Iff.rfl⟩
  cases a with
  | logWrite =>
    simp only [FsRun.opsAfter]
    cases ho : owner u with
    | none => exact hsame
    | some k =>
      obtain ⟨l, hl⟩ := Option.ne_none_iff_exists'.mp (hu k ho)
      have hslot := FsRun.slot_of_op hl
      simp only [hl, Option.map_some]
      refine ⟨?_, fun j => ?_⟩
      · have := running_set (p := some (q.logged u l)) hslot
        exact Nat.add_right_cancel this
      by_cases hjk : j = k
      · subst hjk
        rw [FsRun.op_set_self hslot, hl]
        exact iff_of_false nofun nofun
      · rw [FsRun.op_set_ne hjk]
  | _ => exact hsame

theorem FsRun.Kept.user (hq : q.Kept owner)
    (hal : Allowed owner q (.user u a)) (hu : 2 ≤ u) (ha : q.t.s.act u a = some s') :
    FsRun.Kept owner ⟨⟨s', q.t.latestAfter (.user u a),
      q.t.pinnedAfter (.user u a)⟩, q.opsAfter owner (.user u a)⟩ := by
  obtain ⟨p, hs⟩ := hq.coherent.sound
  have haside := Io.act_aside hs.books ha
  have hrun : ∀ k, owner u = some k → q.op k ≠ none := by
    intro k ho hk
    have := hal.2
    rw [ho] at this
    simp only [hk] at this
  obtain ⟨hcount, hop⟩ := FsRun.opsAfter_user hrun
  refine ⟨hq.coherent.user hu hal.1 ha, ?_, fun {v k x} hv ho hk hx => ?_, fun hc hfull => ?_⟩
  · rw [hcount, hq.count]
    exact haside.outstanding.symm
  · have hk' := (hop k).mp hk
    by_cases hvu : v = u
    · subst hvu
      exact absurd hk' (hrun k ho)
    · exact hq.mine hv ho hk' ((haside.use hvu).symm.trans hx)
  have hc' : q.t.s.committing = true := haside.committing.symm.trans hc
  have hpin : a.pins = false := by
    cases a with
    | logWrite =>
      cases Io.acted ha with | logWrite _ _ hpos => ?_
      have := (hq.coherent.busy hc').1
      omega
    | _ => rfl
  have hlh := Io.act_lh ha hpin
  have hpinned : q.t.pinnedAfter (.user u a) = q.t.pinned := by
    cases a <;> first | rfl | cases hpin
  obtain ⟨htodo, hpl⟩ := hq.full hc' (hlh ▸ hfull)
  rw [haside.todo, haside.start, hlh, hpinned]
  exact ⟨htodo, hpl⟩

-- == a full cache

theorem Books.inUse_le (hb : Books s pinned) : (s.inUse pinned).dedup.length ≤ nbuf := by
  rw [← hb.inUse_card]
  exact (Finset.card_filter_le _ _).trans_eq (Finset.card_range nbuf)

theorem length_le_dedup {m : List Nat} (hl : l.Nodup) (hsub : l ⊆ m) : l.length ≤ m.dedup.length :=
  (List.subperm_of_subset hl fun _ hx =>
    List.mem_dedup.mpr (hsub hx)).length_le

/-- Once NBUF blocks are pinned, no other block gets a buffer. -/
theorem Books.bget_full (hb : Books s pinned)
    (hnodup : pinned.Nodup) (hfull : nbuf ≤ pinned.length)
    (hnot : b ∉ pinned) : Bio.bget s.cache s.dev b = none := by
  have hsub : pinned ⊆ s.inUse pinned := fun _ hx => mem_inUse.mpr (.inl hx)
  refine Option.not_isSome_iff_eq_none.mp fun hsome => ?_
  rcases (hb.bget_isSome_iff b).mp hsome with hin | hlt
  · have hle := length_le_dedup (List.nodup_cons.mpr ⟨hnot, hnodup⟩)
      (List.cons_subset.mpr ⟨hin, hsub⟩)
    have := hb.inUse_le
    rw [List.length_cons] at hle
    omega
  · have := length_le_dedup hnodup hsub
    omega

theorem commit_cons (start : Nat) {lh : List Nat} (h : 0 < lh.length) :
    ∃ cs, commit start lh = .bget 0 (start + 0 + 1) :: cs := by
  cases lh with
  | nil => exact absurd h (Nat.lt_irrefl 0)
  | cons b l => exact ⟨_, if_pos (by simp)⟩

/-- The first call of a commit of NBUF blocks. -/
theorem FsRun.Kept.stuck (hq : q.Kept owner)
    (hc : q.t.s.committing = true) (hfull : nbuf ≤ q.t.s.lh.length) :
    ∃ cs, q.t.s.todo = .bget 0 (q.t.s.start + 0 + 1) :: cs
      ∧ Bio.bget q.t.s.cache q.t.s.dev (q.t.s.start + 0 + 1) = none := by
  obtain ⟨htodo, hpin⟩ := hq.full hc hfull
  obtain ⟨p, hs⟩ := hq.coherent.sound
  have hpos : 0 < q.t.s.lh.length := Nat.lt_of_lt_of_le (by decide) hfull
  obtain ⟨cs, hcs⟩ := commit_cons q.t.s.start hpos
  refine ⟨cs, htodo.trans hcs, ?_⟩
  have hb := hs.books
  rw [hpin] at hb
  refine hb.bget_full hq.coherent.nodup hfull fun hin => ?_
  refine hq.coherent.out _ hin ⟨by omega, ?_⟩
  have : 0 < logBlocks := by decide
  omega

theorem Io.bget_of_act (ha : s.act u (.bget dev b) = some s') :
    (Bio.bget s.cache dev b).isSome = true := by
  cases Io.acted ha with
  | bget _ hget => exact hget ▸ rfl

theorem FsRun.Kept.commit (hq : q.Kept owner) {c : Call} {todo : List Call}
    (htodo : q.t.s.todo = c :: todo) (ha : Io.call h { q.t.s with todo } c = some s') :
    FsRun.Kept owner ⟨⟨s', q.t.latestCall c, q.t.pinnedCall c⟩, q.ops⟩ := by
  have hst := hq.coherent.steady htodo ha
  refine ⟨hq.coherent.commit htodo ha, ?_, fun {u k x} hu ho hk hx => ?_, fun hc hfull => ?_⟩
  · exact hq.count.trans hst.outstanding.symm
  · exact hq.mine hu ho hk ((hst.use hu).symm.trans hx)
  -- a full commit cannot make its first call
  have hlh : s'.lh = q.t.s.lh := by
    rcases hst.lh with hl | hl
    · exact hl
    · dsimp only at hfull
      rw [hl] at hfull
      exact absurd hfull (by decide)
  obtain ⟨cs, hcs, hnone⟩ := hq.stuck (hst.committing.symm.trans hc) (hlh ▸ hfull)
  cases htodo.symm.trans hcs
  have hsome := Io.bget_of_act ha
  rw [hnone] at hsome
  cases hsome

theorem FsRun.Kept.step (hq : q.Kept owner) (hstep : FsStep h owner q q') : q'.Kept owner := by
  obtain ⟨e, he⟩ := hstep
  unfold FsRun.next at he
  split at he
  case isFalse => cases he
  case isTrue hal =>
  obtain ⟨t, ht, rfl⟩ := Option.map_eq_some_iff.mp he
  obtain ⟨s', ha, rfl⟩ := Option.map_eq_some_iff.mp ht
  cases e with
  | user u a =>
    simp only [FsEvent.event, Io.step] at ha
    split at ha
    · rename_i hu
      exact hq.user hal hu ha
    · cases ha
  | beginOp k =>
    have hcoh := hq.coherent.step ⟨.beginOp, trivial, ht⟩
    have hslot : q.ops[k]? = some none := hal
    simp only [FsEvent.event, Io.step, Io.beginOp] at ha
    split at ha
    · cases ha
    rename_i hc
    split at ha
    · cases ha
    cases ha
    refine ⟨hcoh, ?_, fun {u j x} hu ho hj hx => ?_, fun hb => absurd hb hc⟩
    · have hsum := running_set (p := some []) hslot
      have hcount := hq.count
      exact hsum.trans (congrArg (· + 1) hcount)
    have hjk : j ≠ k := by
      rintro rfl
      rw [FsRun.opsAfter, FsRun.op_set_self hslot] at hj
      cases hj
    rw [FsRun.opsAfter, FsRun.op_set_ne hjk] at hj
    exact hq.mine hu ho hj hx
  | endOp k =>
    have hcoh := hq.coherent.step ⟨.endOp, trivial, ht⟩
    obtain ⟨hrun, hdone⟩ := hal
    obtain ⟨l, hl⟩ := Option.isSome_iff_exists.mp hrun
    have hslot := FsRun.slot_of_op hl
    have hsum := running_set (p := none) hslot
    have hcount : q.running = q.t.s.outstanding := hq.count
    simp only [Option.isSome_none, Option.isSome_some, if_true,
      Bool.false_eq_true, if_false] at hsum
    unfold FsRun.running at hcount
    have hmine : ∀ {u j : Nat} {x : Use} {t : Track β}, 2 ≤ u →
        owner u = some j → (FsRun.mk t (q.ops.set k none)).op j = none →
        q.t.s.use[u]? = some x → x = .idle := by
      intro u j x t hu ho hj hx
      by_cases hjk : j = k
      · subst hjk
        have hlt := (List.getElem?_eq_some_iff.mp hx).1
        exact Option.some.inj (hx.symm.trans (hdone u hlt ho))
      · rw [FsRun.op_set_ne hjk] at hj
        exact hq.mine hu ho hj hx
    simp only [FsEvent.event, Io.step, Io.endOp] at ha
    split at ha
    · cases ha
    rename_i hno
    have hidle : q.t.s.committing = false := by
      cases hc : q.t.s.committing with
      | false => rfl
      | true => exact absurd (.inr hc) hno
    split at ha
    · cases ha
      refine ⟨hcoh, ?_, hmine, fun _ _ => ⟨rfl, ?_⟩⟩
      · simp only [FsRun.running, FsRun.opsAfter]
        omega
      · exact (hq.coherent.idle hidle).2.agrees.pinned.symm
    · cases ha
      refine ⟨hcoh, ?_, hmine, fun hc => ?_⟩
      · simp only [FsRun.running, FsRun.opsAfter]
        omega
      · exact absurd (hidle.symm.trans hc) Bool.false_ne_true
  | commit =>
    simp only [FsEvent.event, Io.step] at ha
    cases htodo : q.t.s.todo with
    | nil =>
      rw [htodo] at ha
      cases ha
    | cons c todo =>
      rw [htodo] at ha
      simp only [FsEvent.event, Track.latestAfter, Track.pinnedAfter, htodo]
      exact hq.commit htodo ha
  | commitEnd =>
    have hcoh := hq.coherent.step ⟨.commitEnd, trivial, ht⟩
    simp only [FsEvent.event, Io.step] at ha
    split at ha
    · cases ha
      exact ⟨hcoh, hq.count, hq.mine, fun hc => absurd hc Bool.false_ne_true⟩
    · cases ha

theorem kept_boot (users slots : Nat) (start : Nat) (hdev : dev ≠ 0) (disk : Nat → β) :
    (FsRun.boot users slots dev start disk).Kept owner := by
  refine ⟨coherent_boot users start hdev disk, ?_, fun _ _ _ hx => ?_, nofun⟩
  · refine List.sum_eq_zero fun n hn => ?_
    obtain ⟨o, ho, rfl⟩ := List.mem_map.mp hn
    cases List.eq_of_mem_replicate ho
    rfl
  · exact List.eq_of_mem_replicate (List.mem_of_getElem? hx)

/-- No reader has a buffer. -/
def FsRun.ReadersIdle (owner : Nat → Option Nat) (q : FsRun β) : Prop :=
  ∀ u, u < q.t.s.use.length → 2 ≤ u → owner u = none → q.t.s.use[u]? = some .idle

/-- While nobody reads, the buffers in use during a commit are the pinned
ones and the commit's own. -/
theorem FsRun.Kept.commit_inUse (hq : q.Kept owner)
    (hread : q.ReadersIdle owner) (h0 : q.t.s.outstanding = 0)
    (hidle : ∀ u, u < 2 → q.t.s.use[u]? = some .idle) : q.t.s.inUse q.t.pinned = q.t.pinned := by
  have hnoop : ∀ k, q.op k = none := by
    intro k
    cases hk : q.op k with
    | none => rfl
    | some l =>
      have hsum := running_set (p := none) (FsRun.slot_of_op hk)
      have hcount : q.running = 0 := hq.count.trans h0
      simp only [Option.isSome_none, Option.isSome_some, if_true,
        Bool.false_eq_true, if_false] at hsum
      unfold FsRun.running at hcount
      omega
  have huse : ∀ (u : Nat) (x : Use), q.t.s.use[u]? = some x → x = .idle := by
    intro u x hx
    by_cases hu : u < 2
    · exact Option.some.inj (hx.symm.trans (hidle u hu))
    cases ho : owner u with
    | none =>
      have hlt := (List.getElem?_eq_some_iff.mp hx).1
      exact Option.some.inj (hx.symm.trans (hread u hlt (by omega) ho))
    | some k => exact hq.mine (by omega) ho (hnoop k) hx
  have hnone : (q.t.s.use.filterMap fun x => x.spot.map fun d => d.2.1) = [] := by
    refine List.filterMap_eq_nil_iff.mpr fun x hx => ?_
    obtain ⟨u, hu⟩ := List.mem_iff_getElem?.mp hx
    rw [huse u x hu]
    rfl
  rw [Io.inUse, hnone, List.append_nil]

/-- Whenever the commit calls bget, in any run of operations and readers:
it finds a buffer exactly if the block is in use already or fewer than NBUF
blocks are. So when nobody reads, it finds one exactly if the transaction
has fewer than NBUF blocks. -/
theorem commit_finds_buffer_iff {users slots dev start : Nat}
    {disk : Nat → β} (hdev : dev ≠ 0)
    (hr : Reaches (FsStep h owner) (.boot users slots dev start disk) q)
    {u b : Nat} {todo : List Call} (htodo : q.t.s.todo = .bget u b :: todo) :
    ((bget q.t.s.cache q.t.s.dev b).isSome = true
      ↔ b ∈ q.t.s.inUse q.t.pinned
        ∨ (q.t.s.inUse q.t.pinned).dedup.length < nbuf)
    ∧ (q.ReadersIdle owner →
      ((bget q.t.s.cache q.t.s.dev b).isSome = true
        ↔ q.t.s.lh.length < nbuf)) := by
  have hq : q.Kept owner :=
    hr.inv (kept_boot users slots start hdev disk) fun _ _ hk hs => hk.step hs
  obtain ⟨hbusy, h0, p, p', r, hs, hcall, -⟩ := hq.coherent.next htodo
  refine ⟨hs.books.bget_isSome_iff b, fun hread => ⟨fun hsome => ?_,
    fun hlt => (hs.books.bget_isSome_iff b).mpr ?_⟩⟩
  · by_contra hge
    obtain ⟨cs, hcs, hnone⟩ := hq.stuck hbusy (Nat.le_of_not_lt hge)
    cases htodo.symm.trans hcs
    rw [hnone] at hsome
    cases hsome
  simp only [Plan.call] at hcall
  split at hcall
  · rename_i hok
    rcases hok.2.2 with hfree | hin
    · refine .inr ?_
      have hidle : ∀ v, v < 2 → q.t.s.use[v]? = some .idle := by
        intro v hv
        have hspot := hs.agrees.spots hv
        obtain rfl | rfl : v = 0 ∨ v = 1 := by omega
        · have hat : p.spot 0 = .idle := hfree.1
          rw [hat] at hspot
          exact hspot
        · have hat : p.spot 1 = .idle := hfree.2
          rw [hat] at hspot
          exact hspot
      rw [hq.commit_inUse hread h0 hidle]
      have hle : q.t.pinned.dedup.length ≤ q.t.s.lh.dedup.length := by
        refine length_le_dedup (List.nodup_dedup _) fun x hx => ?_
        rw [← hs.agrees.lh]
        refine hs.agrees.sub ?_
        rw [hs.agrees.pinned]
        exact List.mem_dedup.mp hx
      rw [hq.coherent.nodup.dedup] at hle
      omega
    · exact .inl (mem_inUse.mpr (.inl (hs.agrees.pinned ▸ hin)))
  · cases hcall

end

/-- A process logs a block. -/
def logBlock (u b : Nat) : List (FsEvent (Fin 256 → UInt32)) :=
  [.user u (.bget 1 b), .user u .acquire, .user u .fill, .user u .logWrite,
    .user u .unlock, .user u .unref]

/-- `n` operations that run together and log `m` blocks each. -/
def opsOf (n m : Nat) : List (FsEvent (Fin 256 → UInt32)) :=
  (List.range n).map .beginOp ++
    (List.range (n * m)).flatMap (fun i => logBlock (2 + i / m) (100 + i)) ++
    (List.range n).map .endOp

/-- User `u` is that of operation `u - 2`. -/
def ownUser (u : Nat) : Option Nat := some (u - 2)

/-- What a run says about the commit's next call. -/
def FsRun.summary (q : FsRun (Fin 256 → UInt32)) : Nat × Option Call × Bool :=
  (q.t.s.lh.length, q.t.s.todo.head?, (bget q.t.s.cache q.t.s.dev 3).isSome)

/-- The run of `opsOf`, up to the commit. -/
theorem reaches_of_summary {n m : Nat} {v : Nat × Option Call × Bool}
    (h : (play (FsRun.next logHeader ownUser) (.boot 3 3 1 2 fun _ _ => 0)
      (opsOf n m)).map FsRun.summary = some v) : ∃ q,
    Reaches (FsStep logHeader ownUser) (.boot 3 3 1 2 fun _ _ => 0) q ∧ q.summary = v := by
  obtain ⟨q, hq, hv⟩ := Option.map_eq_some_iff.mp h
  exact ⟨q, reaches_of_play hq, hv⟩

/-- Two operations of five blocks each: the commit has its first buffer. -/
theorem commit_finds_buffer_two : ∃ q : FsRun (Fin 256 → UInt32),
    Reaches (FsStep logHeader ownUser) (.boot 3 3 1 2 fun _ _ => 0) q
      ∧ q.t.s.lh.length = 10
      ∧ (bget q.t.s.cache q.t.s.dev 3).isSome = true := by
  obtain ⟨q, hr, hv⟩ := reaches_of_summary (n := 2) (m := 5)
    (v := (10, some (.bget 0 3), true)) (by decide +kernel)
  have hlen : q.t.s.lh.length = 10 := congrArg Prod.fst hv
  obtain ⟨todo, htodo⟩ := List.head?_eq_some_iff.mp
    (congrArg (fun v => v.2.1) hv)
  refine ⟨q, hr, hlen, ?_⟩
  refine ((commit_finds_buffer_iff (by decide) hr htodo).2 fun u _ _ ho =>
    absurd ho nofun).mpr ?_
  rw [hlen]
  decide

/-- Three operations of ten blocks each: the commit panics. -/
theorem full_commit_panics : ∃ (q : FsRun (Fin 256 → UInt32))
    (todo : List Call),
    Reaches (FsStep logHeader ownUser) (.boot 3 3 1 2 fun _ _ => 0) q
      ∧ q.ReadersIdle ownUser ∧ q.t.s.lh.length = logBlocks
      ∧ q.t.s.todo = .bget 0 3 :: todo
      ∧ bget q.t.s.cache q.t.s.dev 3 = none := by
  obtain ⟨q, hr, hv⟩ := reaches_of_summary (n := 3) (m := 10)
    (v := (30, some (.bget 0 3), false)) (by decide +kernel)
  obtain ⟨todo, htodo⟩ := List.head?_eq_some_iff.mp
    (congrArg (fun v => v.2.1) hv)
  refine ⟨q, todo, hr, fun _ _ _ ho => absurd ho nofun, congrArg Prod.fst hv,
    htodo, ?_⟩
  have hno : (bget q.t.s.cache q.t.s.dev 3).isSome = false :=
    congrArg (fun v => v.2.2) hv
  exact Option.not_isSome_iff_eq_none.mp (by rw [hno]; exact nofun)

end Xv6Labs.Model.Bio
