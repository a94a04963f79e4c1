/-
Kernel reads against user loads.

copyin goes page by page and user code byte by byte, in step at every page
boundary (`copyinPage_loads`) as long as copyin finds every page. It faults
pages in as if for a store, so lazy_mmap refuses an untouched page of a
mapping without PROT_WRITE, and there they part.
-/
import Xv6Labs.Proofs.Handled

namespace Xv6Labs.Model

open Lib

variable {p p' : Proc} {g g' : Glob} {len n va : Nat} {read : Bool}
  {bs bs' : List UInt8}

variable {a d k m r : Nat} {p1 p2 : Proc} {g1 g2 : Glob}

-- == one user access

/-- An access that got through: over a PTE that was there, or over the one
its fault installed. -/
theorem userAccess_some (h : userAccess p g va read = .ok (some a, p', g')) :
    va < maxVa ∧ ∃ e, p'.pagetable.entry (va / pgSize) = some e
      ∧ e.grants read = true ∧ a = e.pa + va % pgSize
      ∧ (p.pagetable.entry (va / pgSize) = some e ∧ p' = p ∧ g' = g
        ∨ p.pagetable.entry (va / pgSize) = none ∧ e.pa ≠ 0
          ∧ vmfault p g va read = .ok (e.pa, p', g')) := by
  simp only [userAccess] at h
  split at h
  · next e he =>
    cases h
    obtain ⟨hva, hent, hgr⟩ := userPte_some he
    exact ⟨hva, e, hent, hgr, rfl, .inl ⟨hent, rfl, rfl⟩⟩
  · next hno =>
    obtain ⟨⟨r, p1, g1⟩, hf, h⟩ := bind_ok h
    split at h
    · cases h
    · next hr =>
      split at h
      · next e he =>
        cases h
        obtain ⟨hva, hent, hgr⟩ := userPte_some he
        refine ⟨hva, e, hent, hgr, rfl, ?_⟩
        rcases (vmfault_handled hf hr).2.entries hva with
          ⟨_, _, _, _, rfl, _⟩ | ⟨perm, hnone, hnew, _⟩
        · rw [hno] at he
          cases he
        · rw [hnew, if_pos rfl] at hent
          cases hent
          exact .inr ⟨hnone, hr, hf⟩
      · cases h

/-- The other pages of the table. -/
theorem userAccess_entry (h : userAccess p g va read = .ok (some a, p', g'))
    (hm : m ≠ va / pgSize) : p'.pagetable.entry m = p.pagetable.entry m := by
  obtain ⟨hva, e, _, _, _, ⟨_, rfl, _⟩ | ⟨hnone, hr, hf⟩⟩ := userAccess_some h
  · rfl
  rcases (vmfault_handled hf hr).2.entries hva with
    ⟨_, _, he, _⟩ | ⟨perm, _, hnew, _⟩
  · rw [hnone] at he
    cases he
  · rw [hnew, if_neg hm]

-- == several loads

theorem userLoads_succ (h : userLoads p g va (n + 1) = .ok (some bs', p', g')) :
    ∃ bs p1 g1 a, userLoads p g va n = .ok (some bs, p1, g1)
      ∧ userAccess p1 g1 (u64 (va + n)) true = .ok (some a, p', g')
      ∧ bs' = bs ++ [g'.phys.mem a] := by
  obtain ⟨⟨o, p1, g1⟩, hpre, h⟩ := bind_ok h
  cases o with
  | none => cases h
  | some bs =>
    obtain ⟨⟨b, p2, g2⟩, hload, h⟩ := bind_ok h
    obtain ⟨⟨o, p3, g3⟩, hacc, hload⟩ := bind_ok hload
    cases o with
    | none =>
      cases hload
      cases h
    | some a =>
      cases hload
      cases h
      exact ⟨bs, p1, g1, a, hpre, hacc, rfl⟩

theorem userLoads_prefix (h : userLoads p g va n = .ok (some bs, p', g')) (hm : m ≤ n) :
    ∃ bs' p1 g1, userLoads p g va m = .ok (some bs', p1, g1) := by
  induction n generalizing bs p' g' with
  | zero =>
    rw [Nat.le_zero.mp hm]
    exact ⟨_, _, _, h⟩
  | succ n ih =>
    rcases Nat.le_succ_iff.mp hm with hle | rfl
    · obtain ⟨bs', p1, g1, a, hpre, _⟩ := userLoads_succ h
      exact ih hpre hle
    · exact ⟨_, _, _, h⟩

/-- What a run of loads is: `n` bytes from addresses below MAXVA, with
the page table the same off the pages it touched. -/
theorem userLoads_spec (hva : va < 2 ^ 64) (h : userLoads p g va n = .ok (some bs, p', g')) :
    bs.length = n ∧ (0 < n → va + n ≤ maxVa) ∧ OnlyTable p p'
      ∧ ∀ m, (∀ k, k < n → m ≠ (va + k) / pgSize) → p'.pagetable.entry m = p.pagetable.entry m := by
  induction n generalizing bs p' g' with
  | zero =>
    cases h
    exact ⟨rfl, fun h => absurd h (Nat.lt_irrefl 0), .refl p, fun _ _ => rfl⟩
  | succ n ih =>
    obtain ⟨bs1, p1, g1, a, hpre, hacc, rfl⟩ := userLoads_succ h
    obtain ⟨hlen, hlt, hon, hent⟩ := ih hpre
    have hu : u64 ((va : Int) + n) = va + n := by
      refine u64_of_lt (by omega) ?_
      rcases Nat.eq_zero_or_pos n with rfl | hn
      · exact hva
      · have := hlt hn
        unfold maxVa at this
        omega
    rw [hu] at hacc
    refine ⟨by simp [hlen], fun _ => (userAccess_some hacc).1,
      hon.trans (userAccess_frame _ hacc).1, fun m hm => ?_⟩
    rw [userAccess_entry hacc (hm n (by omega)), hent m fun k hk => hm k (by omega)]

/-- The loads of one page. The first one may fault; the others go over
the PTE it left. -/
theorem userLoads_page (hva : va < 2 ^ 64) (h1 : userLoads p g va d = .ok (some bs, p1, g1))
    (h2 : userLoads p g va (d + (n + 1)) = .ok (some bs', p2, g2))
    (hn : (va + d) % pgSize + n < pgSize) :
    ∃ e, p2.pagetable.entry ((va + d) / pgSize) = some e ∧ e.grants true = true
      ∧ bs' = bs ++ (List.range (n + 1)).map (fun i =>
          g2.phys.mem (e.pa + (va + d) % pgSize + i))
      ∧ (p1.pagetable.entry ((va + d) / pgSize) = some e ∧ p2 = p1 ∧ g2 = g1
        ∨ p1.pagetable.entry ((va + d) / pgSize) = none ∧ e.pa ≠ 0
          ∧ vmfault p1 g1 (va + d) true = .ok (e.pa, p2, g2)) := by
  induction n generalizing bs' p2 g2 with
  | zero =>
    obtain ⟨bs0, p0, g0, a, hpre, hacc, rfl⟩ := userLoads_succ h2
    have hmax := (userLoads_spec hva h2).2.1 (by omega)
    rw [h1] at hpre
    cases hpre
    rw [u64_of_lt (n := va + d) (by omega) (by unfold maxVa at hmax; omega)] at hacc
    obtain ⟨_, e, he, hgr, rfl, hcase⟩ := userAccess_some hacc
    exact ⟨e, he, hgr, rfl, hcase⟩
  | succ n ih =>
    obtain ⟨bs0, p0, g0, a, hpre, hacc, rfl⟩ := userLoads_succ (n := d + (n + 1)) h2
    have hmax := (userLoads_spec hva h2).2.1 (by omega)
    obtain ⟨e, he, hgr, rfl, hcase⟩ := ih hpre (by omega)
    have hpage : (va + (d + (n + 1))) / pgSize = (va + d) / pgSize := by
      unfold pgSize at *
      omega
    have hoff : (va + (d + (n + 1))) % pgSize = (va + d) % pgSize + (n + 1) := by
      unfold pgSize at *
      omega
    rw [u64_of_lt (n := va + (d + (n + 1))) (by omega) (by unfold maxVa at hmax; omega)] at hacc
    obtain ⟨_, e', he', _, rfl, hsame⟩ := userAccess_some hacc
    rw [hpage] at he' hsame
    rcases hsame with ⟨hent, rfl, rfl⟩ | ⟨hnone, _⟩
    · rw [he] at hent
      cases hent
      refine ⟨e, he, hgr, ?_, hcase⟩
      rw [List.range_succ (n := n + 1), List.map_append, List.append_assoc,
        List.map_singleton, hoff, Nat.add_assoc e.pa]
    · rw [he] at hnone
      cases hnone

-- == the fault of copyin

/-- The start of the page of `va` is not in a second mapping. -/
def OneMapping (p : Proc) (va : Nat) : Prop :=
  ∀ j, p.InMmap (pgRoundDown va) → vmaAt p (pgRoundDown va) = some j →
    p.InMmap va ∧ (vmaAt p va = some j ∨ vmaAt p va = none)

theorem oneMapping_of_aligned (h : va % pgSize = 0) : OneMapping p va := by
  intro j hin hj
  rw [pgRoundDown_of_aligned h] at hin hj
  exact ⟨hin, .inl hj⟩

/-- copyin finds page `n`: it is resident, or it is outside the mmap area,
or its start is in a mapping with PROT_WRITE. -/
def CopyinFinds (p : Proc) (n : Nat) : Prop :=
  match p.pagetable.entry n with
  | some e => e.pa ≠ 0
  | none => p.InMmap (n * pgSize) → ∃ j, vmaAt p (n * pgSize) = some j
      ∧ hasBit (p.vma j).prot protWrite = true

theorem CopyinFinds.congr (hon : OnlyTable p p') (he : p'.pagetable.entry n = p.pagetable.entry n) :
    CopyinFinds p' n ↔ CopyinFinds p n := by
  obtain ⟨pt, rfl⟩ := hon
  unfold CopyinFinds Proc.InMmap vmaAt
  rw [he]

/-- A load fault and copyin's fault on the same page. -/
theorem vmfault_copyin (hone : OneMapping p va)
    (h : vmfault p g va true = .ok (r, p', g')) (hr : r ≠ 0)
    (hnone : p.pagetable.entry (va / pgSize) = none) :
    (CopyinFinds p (va / pgSize) → vmfault p g (pgRoundDown va) false = .ok (r, p', g'))
    ∧ (¬ CopyinFinds p (va / pgSize) → vmfault p g (pgRoundDown va) false = .ok (0, p, g)) := by
  have hva := (vmfault_handled h hr).1
  have hle := pgRoundDown_le va
  have hwalk : walkValid p.pagetable (pgRoundDown va) = .ok none := by
    rw [walkValid_roundDown hva, walkValid_entry hva, hnone]
  have hround : pgRoundDown (pgRoundDown va) = pgRoundDown va :=
    pgRoundDown_of_aligned (pgRoundDown_mod va)
  have hfind : CopyinFinds p (va / pgSize) ↔ (p.InMmap (pgRoundDown va) →
      ∃ j, vmaAt p (pgRoundDown va) = some j ∧ hasBit (p.vma j).prot protWrite = true) := by
    unfold CopyinFinds
    rw [hnone]
    rfl
  rw [hfind]
  by_cases hin : p.InMmap (pgRoundDown va)
  · rw [vmfault_inMmap hin]
    simp only [lazyMmap, hround]
    cases hat : vmaAt p (pgRoundDown va) with
    | none =>
      refine ⟨fun hf => ?_, fun _ => rfl⟩
      obtain ⟨j, hj, _⟩ := hf hin
      cases hj
    | some j =>
      obtain ⟨hin', hj⟩ := hone j hin hat
      rw [vmfault_inMmap hin'] at h
      rcases hj with hj | hj
      · simp only [lazyMmap, hj, hwalk, ok_bind] at h
        simp only [hwalk, ok_bind]
        have hread : (p.vma j).allows true = true := by
          by_contra hno
          rw [if_neg hno] at h
          cases h
          exact hr rfl
        rw [if_pos hread] at h
        have hallow : (p.vma j).allows false = hasBit (p.vma j).prot protWrite := rfl
        refine ⟨fun hf => ?_, fun hf => ?_⟩
        · obtain ⟨i, hi, hw⟩ := hf hin
          cases hi
          rw [hallow, if_pos hw]
          exact h
        · rw [hallow, if_neg fun hw => hf fun _ => ⟨j, rfl, hw⟩]
          rfl
      · rw [lazyMmap_unmapped hj] at h
        cases h
        exact absurd rfl hr
  · -- outside the mmap area the kind of access plays no part
    refine ⟨fun _ => ?_, fun hf => absurd (fun h => absurd h hin) hf⟩
    have hin' : ¬ p.InMmap va := by
      intro hin'
      refine hin ⟨?_, hle.trans hin'.2⟩
      have hbase := hin'.1
      unfold pgRoundDown mmapBase pgSize at *
      omega
    unfold Proc.InMmap at hin hin'
    unfold vmfault at h ⊢
    rw [if_neg hin'] at h
    rw [if_neg hin]
    have hsz : ¬ p.sz ≤ va := by
      intro hsz
      rw [if_pos hsz] at h
      cases h
      exact hr rfl
    rw [if_neg hsz] at h
    rw [if_neg (by omega), hround]
    exact h

-- == one turn

theorem walkaddr_entry {pt : PageTable} (hva : va < maxVa) :
    walkaddr pt va = .ok ((pt.entry (va / pgSize)).elim 0 fun e =>
      if e.perm.u then e.pa else 0) := by
  rw [walkaddr, if_neg (Nat.not_le.mpr hva), walkValid_entry hva]
  cases pt.entry (va / pgSize) <;> rfl

/-- A fault on a resident page returns that page or nothing. -/
theorem vmfault_resident {e : Pte} (he : p.pagetable.entry (va / pgSize) = some e)
    (h : vmfault p g va read = .ok (r, p', g')) (hr : r ≠ 0) : r = e.pa := by
  obtain ⟨hva, hh⟩ := vmfault_handled h hr
  rcases hh.entries hva with ⟨_, _, he', rfl, _⟩ | ⟨_, hnone, _⟩
  · rw [he] at he'
    cases he'
    rfl
  · rw [he] at hnone
    cases hnone

/-- One turn of copyin against the loads of its page: in step if copyin
finds the page, and a return of -1 (or a panic) if not. -/
theorem copyinPage_loads (hva : va < 2 ^ 64) (h1 : userLoads p g va d = .ok (some bs, p1, g1))
    (h2 : userLoads p g va (d + (n + 1)) = .ok (some bs', p2, g2))
    (hn : n + 1 = min (pgSize - (va + d) % pgSize) (len - d)) (hone : OneMapping p1 (va + d)) :
    (CopyinFinds p1 ((va + d) / pgSize) →
      copyinPage va len k (bs, p1, g1) = .ok (.inl (bs', p2, g2)))
    ∧ (¬ CopyinFinds p1 ((va + d) / pgSize) → ∀ t,
      copyinPage va len k (bs, p1, g1) ≠ .ok (.inl t)) := by
  have hmax := (userLoads_spec hva h2).2.1 (by omega)
  have hlen := (userLoads_spec hva h1).1
  have hlt : va + d < maxVa := by omega
  have hu : u64 ((va : Int) + d) = va + d := u64_of_lt (by omega) (by unfold maxVa at hlt; omega)
  have hround : pgRoundDown (va + d) < maxVa := (pgRoundDown_le _).trans_lt hlt
  have hsub : va + d - pgRoundDown (va + d) = (va + d) % pgSize := by
    unfold pgRoundDown pgSize
    omega
  obtain ⟨e, he, hgr, rfl, hcase⟩ := userLoads_page hva h1 h2 (by unfold pgSize at *; omega)
  simp only [copyinPage, hlen, hu, walkaddr_entry hround, roundDown_div, ok_bind, hsub, ← hn]
  rcases hcase with ⟨hent, rfl, rfl⟩ | ⟨hnone, hpa, hf⟩
  · have huser : e.perm.u = true := by
      simp only [Pte.grants, Bool.and_eq_true] at hgr
      exact hgr.1.1
    simp only [hent, CopyinFinds, Option.elim_some, huser, if_true]
    refine ⟨fun hpa => ?_, fun hpa t h => ?_⟩
    · simp only [if_neg hpa, pure_eq, ok_bind]
    rw [not_not] at hpa
    simp only [hpa, if_true] at h
    obtain ⟨⟨r, p', g'⟩, hf, h⟩ := bind_ok h
    by_cases hr : r = 0
    · rw [hr] at h
      cases h
    · exact hr ((vmfault_resident (by rw [roundDown_div]; exact hent) hf hr).trans hpa)
  · obtain ⟨hyes, hno⟩ := vmfault_copyin hone hf hpa hnone
    simp only [hnone, Option.elim_none, if_true]
    refine ⟨fun hfind => ?_, fun hfind t h => ?_⟩
    · simp only [hyes hfind, ok_bind, if_neg hpa, pure_eq]
    · rw [hno hfind] at h
      cases h

-- == all turns

/-- Bytes copied before turn `k`. -/
def bytesBefore (va len k : Nat) : Nat := min len (k * pgSize - va % pgSize)

theorem bytesBefore_end (va len : Nat) : bytesBefore va len (copyPages va len) = len := by
  unfold bytesBefore copyPages
  split
  · omega
  · unfold pgSize
    omega

/-- Turn `k` copies the rest of page `k` of the buffer. -/
theorem bytesBefore_succ (hk : k < copyPages va len) :
    ∃ n, n + 1 = min (pgSize - (va + bytesBefore va len k) % pgSize) (len - bytesBefore va len k)
      ∧ bytesBefore va len (k + 1) = bytesBefore va len k + (n + 1)
      ∧ (va + bytesBefore va len k) / pgSize = va / pgSize + k
      ∧ (bytesBefore va len k = 0 ∨ (va + bytesBefore va len k) % pgSize = 0) := by
  unfold copyPages at hk
  split at hk
  · omega
  refine ⟨min (pgSize - (va + bytesBefore va len k) % pgSize) (len - bytesBefore va len k) - 1, ?_⟩
  unfold bytesBefore pgSize at *
  rcases Nat.eq_zero_or_pos k with rfl | hpos
  · omega
  · omega

/-- The pages of a buffer, counted from its first page. -/
theorem copyPages_iff {P : Nat → Prop} :
    (∀ k, k < len → P ((va + k) / pgSize)) ↔ ∀ j, j < copyPages va len → P (va / pgSize + j) := by
  constructor
  · intro h j hj
    obtain ⟨n, hn, _, hdiv, _⟩ := bytesBefore_succ hj
    rw [← hdiv]
    exact h _ (by omega)
  intro h k hk
  have hj := h ((va + k) / pgSize - va / pgSize) (by
    unfold copyPages pgSize
    split
    · omega
    · omega)
  have hle : va / pgSize ≤ (va + k) / pgSize := Nat.div_le_div_right (Nat.le_add_right va k)
  rw [Nat.add_sub_cancel' hle] at hj
  exact hj

/-- copyin delivers what user loads read exactly when it finds every page
of the buffer. The pages it does not find are those that are not resident
and whose start lies in the mmap area outside every mapping with
PROT_WRITE. -/
theorem copyin_agrees_iff {p p₁ : Proc} {g g₁ : Glob} (va : UInt64)
    {len : Nat} {bs : List UInt8} (hone : OneMapping p va.toNat)
    (h : userLoads p g va.toNat len = .ok (some bs, p₁, g₁)) :
    (∃ p' g', copyin p g va.toNat len = .ok (some bs, p', g'))
      ↔ ∀ k, k < len → CopyinFinds p ((va.toNat + k) / pgSize) := by
  have hva : va.toNat < 2 ^ 64 := va.toNat_lt
  generalize va.toNat = va at *
  rw [copyPages_iff]
  -- before turn `k` copyin is where the loads are after `bytesBefore` of them
  have hturn : ∀ k, k < copyPages va len → ∀ t : List UInt8 × Proc × Glob,
      userLoads p g va (bytesBefore va len k) = .ok (some t.1, t.2) →
      (CopyinFinds p (va / pgSize + k) → ∃ t' : List UInt8 × Proc × Glob,
        copyinPage va len k t = .ok (.inl t')
          ∧ userLoads p g va (bytesBefore va len (k + 1)) = .ok (some t'.1, t'.2))
      ∧ (¬ CopyinFinds p (va / pgSize + k) → ∀ t',
        copyinPage va len k t ≠ .ok (.inl t')) := by
    rintro k hk ⟨bs₁, p₁, g₁⟩ h₁
    obtain ⟨n, hn, hsucc, hdiv, hedge⟩ := bytesBefore_succ hk
    rw [hsucc]
    obtain ⟨bs₂, p₂, g₂, h₂⟩ := userLoads_prefix h
      (m := bytesBefore va len k + (n + 1)) (by omega)
    obtain ⟨_, _, hon, hent⟩ := userLoads_spec hva h₁
    have hsame : CopyinFinds p₁ (va / pgSize + k)
        ↔ CopyinFinds p (va / pgSize + k) := by
      refine CopyinFinds.congr hon (hent _ fun j hj => ?_)
      rcases hedge with hzero | hmod
      · omega
      · unfold pgSize at *
        omega
    have hone₁ : OneMapping p₁ (va + bytesBefore va len k) := by
      rcases hedge with hzero | hmod
      · rw [hzero] at h₁ ⊢
        cases h₁
        exact hone
      · exact oneMapping_of_aligned hmod
    obtain ⟨hyes, hno⟩ := copyinPage_loads hva h₁ h₂ hn hone₁
    rw [hdiv, hsame] at hyes hno
    exact ⟨fun hf => ⟨(bs₂, p₂, g₂), hyes hf, h₂⟩, hno⟩
  constructor
  · rintro ⟨p', g', hc⟩
    obtain ⟨o, hloop, hc⟩ := bind_ok hc
    have hend := forRet_inv
      (fun k t => userLoads p g va (bytesBefore va len k)
          = .ok (some t.1, t.2)
        ∧ ∀ j, j < k → CopyinFinds p (va / pgSize + j))
      (fun _ => True) ⟨by simp [bytesBefore, userLoads], fun j hj => by omega⟩
      (fun k hk t t' ⟨ht, hall⟩ hf => by
        obtain ⟨hyes, hno⟩ := hturn k hk t ht
        have hfind : CopyinFinds p (va / pgSize + k) := by
          by_contra hmiss
          exact hno hmiss t' hf
        obtain ⟨t₂, hf₂, hl₂⟩ := hyes hfind
        rw [hf] at hf₂
        cases hf₂
        refine ⟨hl₂, fun j hj => ?_⟩
        rcases Nat.lt_succ_iff_lt_or_eq.mp hj with hlt | rfl
        · exact hall j hlt
        · exact hfind)
      (fun _ _ _ _ _ _ => trivial) hloop
    rcases hend with ⟨s', _, _, hall⟩ | ⟨r, rfl, _⟩
    · exact hall
    · cases hc
  · intro hall
    obtain ⟨⟨bs', p', g'⟩, hloop, hend⟩ := forRet_total
      (fun k (t : List UInt8 × Proc × Glob) =>
        userLoads p g va (bytesBefore va len k) = .ok (some t.1, t.2))
      (s := ([], p, g)) (by simp [bytesBefore, userLoads])
      (fun k hk t ht => (hturn k hk t ht).1 (hall k hk))
    rw [bytesBefore_end, h] at hend
    cases hend
    exact ⟨p₁, g₁, by unfold copyin; rw [hloop]; rfl⟩

set_option maxRecDepth 10000

/-- Two bytes of an untouched page of a read-write mapping. -/
theorem copyin_agrees_boot : ∃ k p' g',
    runAs bootKernel 1 [.mmap 0 4096 3 1 0 0] = .ok k
      ∧ copyin (k.proc 1) k.glob 0x40000000 2 = .ok (some [2, 3], p', g') := by
  have hrun : ∃ k p₁ g₁, runAs bootKernel 1 [.mmap 0 4096 3 1 0 0] = .ok k
      ∧ userLoads (k.proc 1) k.glob (0x40000000 : UInt64).toNat 2
        = .ok (some [2, 3], p₁, g₁)
      ∧ (k.proc 1).pagetable.entry 0x40000 = none
      ∧ vmaAt (k.proc 1) (0x40000 * pgSize) = some 0
      ∧ ((k.proc 1).vma 0).prot = 3 :=
    ⟨_, _, _, rfl, rfl, rfl, rfl, rfl⟩
  obtain ⟨k, p₁, g₁, hk, hload, he, hat, hprot⟩ := hrun
  obtain ⟨p', g', hc⟩ := (copyin_agrees_iff 0x40000000
    (oneMapping_of_aligned (by decide)) hload).mpr fun j hj => by
      have hpage : ((0x40000000 : UInt64).toNat + j) / pgSize = 0x40000 := by
        have : (0x40000000 : UInt64).toNat = 0x40000000 := by decide
        unfold pgSize
        omega
      unfold CopyinFinds
      rw [hpage, he]
      exact fun _ => ⟨0, hat, by rw [hprot]; decide⟩
  exact ⟨k, p', g', hk, hc⟩

/-- An untouched page of a read-only mapping: user code reads it, and
copyin returns -1. -/
theorem copyin_refuses_readable : ∃ k, Runs (fun _ _ _ => True) bootKernel k
    ∧ ∃ p₁ g₁ p₂ g₂,
      userLoads (k.proc 1) k.glob 0x40000000 2 = .ok (some [2, 3], p₁, g₁)
      ∧ copyin (k.proc 1) k.glob 0x40000000 2 = .ok (none, p₂, g₂) :=
  have hr := Runs.step .refl 1 (.mmap 0 4096 1 2 0 0) (by decide) rfl trivial
    rfl
  ⟨_, hr, _, _, _, _, rfl, rfl⟩

end Xv6Labs.Model
