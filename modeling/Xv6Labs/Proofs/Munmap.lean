/-
The page table after sys_munmap, and what a process can still reach.

The page loop clears the entries of the range and of the page after it. An
address without entry and mapping cannot be reached again (`Layout.gone`);
for a range strictly inside a mapping the record stays, and the next access
brings the page back (`munmap_unmaps_iff`).
-/
import Xv6Labs.Proofs.Copyin
import Xv6Labs.Proofs.Tally

namespace Xv6Labs.Model

variable {v : Vma} {a hi i lo n : Nat} {p p' : Proc} {s s' : Proc × Glob} {g g' : Glob}

open Lib

-- == the page loop

theorem PageTurn.entry (h : PageTurn v a a s s') :
    a < maxVa ∧ ∀ m, s'.1.pagetable.entry m
      = if m = a / pgSize then none else s.1.pagetable.entry m := by
  rcases h with ⟨hnone, rfl⟩ | ⟨e, he, ⟨_, g, pt, ph, _, hu, rfl⟩ | ⟨_, pt, ph, hu, rfl⟩⟩
  · have hva := walkValid_lt hnone
    rw [walkValid_entry hva] at hnone
    refine ⟨hva, fun m => ?_⟩
    split
    · next hm =>
      rw [hm]
      exact Except.ok.inj hnone
    · rfl
  · have hva := walkValid_lt he
    exact ⟨hva, (uvmunmap_entry hva hu).2.1⟩
  · have hva := walkValid_lt he
    exact ⟨hva, (uvmunmap_entry hva hu).2.1⟩

/-- The entries of the pages the loop went over are gone; the others are
as they were. -/
theorem munmapPages_entry
    (h : forUpto (munmapPage v lo) n s = .ok s') :
    ∀ m, s'.1.pagetable.entry m
      = if lo / pgSize ≤ m ∧ m < lo / pgSize + n then none else s.1.pagetable.entry m := by
  refine forUpto_inv (fun k t => ∀ m, t.1.pagetable.entry m
    = if lo / pgSize ≤ m ∧ m < lo / pgSize + k then none else s.1.pagetable.entry m) ?_ ?_ h
  · intro m
    rw [if_neg (by omega)]
  intro k _ t t' hP hk m
  rw [(munmapPage_turn hk).entry.2, page_add]
  by_cases hm : m = lo / pgSize + k
  · rw [if_pos hm, if_pos (by omega)]
  · rw [if_neg hm, hP m]
    by_cases hin : lo / pgSize ≤ m ∧ m < lo / pgSize + k
    · rw [if_pos hin, if_pos (by omega)]
    · rw [if_neg hin, if_neg (by omega)]

theorem pagesThrough_pages (lo n : Nat) : pagesThrough lo (lo + n * pgSize) = n + 1 := by
  unfold pagesThrough pgSize
  rw [if_pos (by omega)]
  omega

/-- The mapping that holds a range is the one that sys_munmap finds. -/
theorem Layout.holding {up : Nat} (hl : Layout p)
    (hi : i < nvma) (hv : (p.vma i).valid = true) (hlo : (p.vma i).start ≤ lo)
    (hhi : up ≤ (p.vma i).stop) (hlt : lo < up) : vmaHolding p lo up = some i := by
  cases hj : vmaHolding p lo up with
  | none =>
    have hno := List.find?_eq_none.mp hj i (List.mem_range.mpr hi)
    rw [decide_eq_true_eq] at hno
    exact absurd ⟨hv, hlo, hhi⟩ hno
  | some j =>
    obtain ⟨hjn, hvj, hloj, hhij⟩ := vmaHolding_some hj
    by_contra hij
    have hapart := hl.disjoint j i hjn hi (fun h => hij (congrArg some h)) hvj hv
    omega

/-- The process after a sys_munmap of `n` pages of the mapping in slot `i`. -/
theorem sysMunmap_process {addr : Nat}
    (hl : Layout p) (hi : i < nvma) (hv : (p.vma i).valid = true)
    (hn : 0 < n) (hlo : (p.vma i).start ≤ addr) (hhi : addr + n * pgSize ≤ (p.vma i).stop)
    (h : sysMunmap p g addr (n * pgSize : Nat) = .ok (0, p', g')) :
    u64 (addr + (n * pgSize : Nat)) = addr + n * pgSize
      ∧ vmaHolding p addr (addr + n * pgSize) = some i ∧ p'.curVmaStart = p.curVmaStart
      ∧ p'.vma = (p.setVma i (shrink (p.vma i) addr (addr + n * pgSize))).vma
      ∧ ∀ m, p'.pagetable.entry m
        = if addr / pgSize ≤ m ∧ m ≤ addr / pgSize + n then none else p.pagetable.entry m := by
  have hcur := (hl.ok i hi hv).le_cur
  have htop := hl.cur_top
  have hu : u64 ((addr : Int) + (n * pgSize : Nat)) = addr + n * pgSize := by
    refine u64_of_lt (by omega) ?_
    unfold mmapTop at htop
    omega
  refine ⟨hu, ?_⟩
  rcases sysMunmap_cases h with
    ⟨_, _, hr⟩ | ⟨j, p1, g1, g2, _, hhold, _, hloop, _, rfl⟩
  · cases hr
  rw [hu] at hhold hloop ⊢
  cases (hl.holding hi hv hlo hhi (by unfold pgSize; omega)).symm.trans hhold
  obtain ⟨⟨pt, hp1⟩, _⟩ := munmapPages_frame hloop
  have hent := munmapPages_entry hloop
  subst hp1
  refine ⟨hhold, rfl, rfl, fun m => ?_⟩
  rw [pagesThrough_pages] at hent
  rw [show ((({ p with pagetable := pt } : Proc).setVma i
    (shrink (p.vma i) addr (addr + n * pgSize))).pagetable.entry m) = pt.entry m from rfl, hent m]
  by_cases hin : addr / pgSize ≤ m ∧ m < addr / pgSize + (n + 1)
  · rw [if_pos hin, if_pos (by omega)]
  · rw [if_neg hin, if_neg (by omega)]

-- == out of reach

/-- The process cannot reach address `a`: no PTE, no mapping, and every
access by user code or by the kernel on its behalf fails. -/
structure Gone (p : Proc) (a : Nat) : Prop where
  pte : walkValid p.pagetable a = .ok none
  vma : vmaAt p a = none
  access : ∀ g read, userAccess p g a read = .ok (none, p, g)
  copyin : ∀ g va len, va ≤ a → a < va + len → ∀ bs p' g', copyin p g va len ≠ .ok (some bs, p', g')
  copyout : ∀ g va src len, va ≤ a → a < va + len → ∀ p' g',
    copyout p g va src len ≠ .ok (true, p', g')

/-- The page a kernel copy works on: found, or faulted in. Where there is
no entry and no mapping it is neither. -/
theorem copyFetch {va pa r : Nat}
    (hwalk : walkaddr p.pagetable va = .ok pa)
    (h : (if pa = 0 then vmfault p g va false else pure (pa, p, g))
      = .ok (r, p', g')) (hr : r ≠ 0) :
    OnlyTable p p' ∧ (∀ m, m ≠ va / pgSize → p'.pagetable.entry m = p.pagetable.entry m)
      ∧ (p.InMmap va → vmaAt p va = none → p.pagetable.entry (va / pgSize) ≠ none) := by
  by_cases hpa : pa = 0
  · rw [if_pos hpa] at h
    obtain ⟨hva, hh⟩ := vmfault_handled h hr
    refine ⟨(vmfault_frame _ h).1, ?_, fun hin hnone => ?_⟩
    · rcases hh.entries hva with ⟨_, _, _, _, rfl, _⟩ | ⟨_, _, hnew, _⟩
      · exact fun _ _ => rfl
      · exact fun m hm => by rw [hnew, if_neg hm]
    · rw [vmfault_inMmap hin, lazyMmap_unmapped hnone] at h
      cases h
      exact absurd rfl hr
  · rw [if_neg hpa] at h
    cases h
    refine ⟨.refl p, fun _ _ => rfl, fun _ _ hent => hpa ?_⟩
    by_cases hva : va < maxVa
    · rw [walkaddr_entry hva, hent] at hwalk
      cases hwalk
      rfl
    · rw [walkaddr, if_pos (Nat.not_lt.mp hva)] at hwalk
      cases hwalk
      rfl

section

variable {p : Proc} {a : Nat}
variable {k len va : Nat}

theorem last_page_lt (hlt : a < va + len) (hle : va ≤ a) :
    a / pgSize < va / pgSize + copyPages va len := by
  unfold copyPages pgSize
  split <;> omega

/-- The address of turn `k`, no further than page `a / pgSize`. -/
theorem turn_addr (hk : k < copyPages va len)
    (ha : a < maxVa) (hpage : va / pgSize + k ≤ a / pgSize) :
    u64 ((va : Int) + bytesBefore va len k) = va + bytesBefore va len k := by
  obtain ⟨_, _, _, hdiv, _⟩ := bytesBefore_succ hk
  refine u64_of_lt (by omega) ?_
  unfold maxVa at ha
  unfold pgSize at *
  omega

/-- A page without entry and mapping stops a copy: the turn on it does not
go on, and the turns before it do not change that. -/
theorem copy_blocked {p1 p2 : Proc} {g1 g2 : Glob}
    {pa r : Nat} (hk : k < copyPages va len) (hin : p.InMmap (pgRoundDown a))
    (hnone : vmaAt p (pgRoundDown a) = none)
    (hpage : va / pgSize + k ≤ a / pgSize) (hon : OnlyTable p p1)
    (hent : p1.pagetable.entry (a / pgSize) = none)
    (hwalk : walkaddr p1.pagetable (pgRoundDown (va + bytesBefore va len k)) = .ok pa)
    (h : (if pa = 0 then vmfault p1 g1 (pgRoundDown (va + bytesBefore va len k)) false
      else pure (pa, p1, g1)) = .ok (r, p2, g2)) (hr : r ≠ 0) :
    OnlyTable p p2 ∧ p2.pagetable.entry (a / pgSize) = none
      ∧ va / pgSize + (k + 1) ≤ a / pgSize := by
  obtain ⟨_, _, _, hdiv, _⟩ := bytesBefore_succ hk
  obtain ⟨hon', hother, hhere⟩ := copyFetch hwalk h hr
  rw [roundDown_div, hdiv] at hother hhere
  have hne : a / pgSize ≠ va / pgSize + k := by
    intro heq
    have hround : pgRoundDown (va + bytesBefore va len k) = pgRoundDown a := by
      unfold pgRoundDown
      rw [hdiv, heq]
    obtain ⟨pt, rfl⟩ := hon
    rw [hround] at hhere
    exact hhere hin hnone (heq ▸ hent)
  exact ⟨hon.trans hon', (hother _ hne).trans hent, by omega⟩

/-- Bytes done after turn `k`. -/
theorem turn_done (hk : k < copyPages va len) :
    bytesBefore va len k + min (pgSize - (va + bytesBefore va len k
        - pgRoundDown (va + bytesBefore va len k)))
      (len - bytesBefore va len k) = bytesBefore va len (k + 1) := by
  obtain ⟨n, hn, hsucc, _, _⟩ := bytesBefore_succ hk
  have hsub : va + bytesBefore va len k - pgRoundDown (va + bytesBefore va len k)
      = (va + bytesBefore va len k) % pgSize := by
    unfold pgRoundDown pgSize
    omega
  rw [hsub, hsucc, hn]

/-- Where mappings are laid out, an address of the mmap area without an
entry and a mapping is out of reach. -/
theorem Layout.gone (hl : Layout p) (hin : p.InMmap a)
    (hent : p.pagetable.entry (a / pgSize) = none) (hnone : vmaAt p a = none) : Gone p a := by
  have ha : a < maxVa := by
    have := hin.2
    have := hl.cur_top
    unfold mmapTop at this
    unfold maxVa
    omega
  have hle := pgRoundDown_le a
  have hin0 : p.InMmap (pgRoundDown a) := by
    refine ⟨?_, hle.trans hin.2⟩
    have := hin.1
    unfold pgRoundDown mmapBase pgSize at *
    omega
  have hnone0 : vmaAt p (pgRoundDown a) = none := (vmaAt_page hl a).trans hnone
  refine ⟨?_, hnone, fun g read => ?_, fun g va len hlo hhi bs p' g' h => ?_,
    fun g va src len hlo hhi p' g' h => ?_⟩
  · rw [walkValid_entry ha, hent]
  · have hno : userPte p a read = none := by
      rw [userPte_entry ha, hent]
      rfl
    have hfault : vmfault p g a read = .ok (0, p, g) := by
      rw [vmfault_inMmap hin, lazyMmap_unmapped hnone]
    simp only [userAccess, hno, hfault, ok_bind, if_true, pure_eq]
  · -- turn by turn copyin stays before the page of `a`
    obtain ⟨o, hloop, h⟩ := bind_ok h
    have hend := forRet_inv
      (fun k (t : List UInt8 × Proc × Glob) =>
        t.1.length = bytesBefore va len k ∧ OnlyTable p t.2.1
          ∧ t.2.1.pagetable.entry (a / pgSize) = none ∧ va / pgSize + k ≤ a / pgSize)
      (fun _ => True) ⟨by simp [bytesBefore], .refl p, hent, Nat.div_le_div_right hlo⟩
      (by
        rintro k hk ⟨bs1, p1, g1⟩ t' ⟨hlen, hon, hent1, hpage⟩ hf
        simp only [copyinPage, hlen, turn_addr hk ha hpage] at hf
        obtain ⟨pa, hwalk, hf⟩ := bind_ok hf
        obtain ⟨⟨r, p2, g2⟩, hfetch, hf⟩ := bind_ok hf
        split at hf
        · cases hf
        · next hr =>
          cases hf
          obtain ⟨hon2, hent2, hpage2⟩ := copy_blocked hk hin0 hnone0 hpage
            hon hent1 hwalk hfetch hr
          refine ⟨?_, hon2, hent2, hpage2⟩
          simp only [List.length_append, List.length_map, List.length_range, hlen]
          exact turn_done hk)
      (fun _ _ _ _ _ _ => trivial) hloop
    rcases hend with ⟨t, _, _, _, _, hpage⟩ | ⟨r, rfl, _⟩
    · have := last_page_lt hhi hlo
      omega
    · cases h
  · obtain ⟨o, hloop, h⟩ := bind_ok h
    have hend := forRet_inv
      (fun k (t : Nat × Proc × Glob) =>
        t.1 = bytesBefore va len k ∧ OnlyTable p t.2.1 ∧ t.2.1.pagetable.entry (a / pgSize) = none
          ∧ va / pgSize + k ≤ a / pgSize)
      (fun _ => True) ⟨by simp [bytesBefore], .refl p, hent, Nat.div_le_div_right hlo⟩
      (by
        rintro k hk ⟨d, p1, g1⟩ t' ⟨hlen, hon, hent1, hpage⟩ hf
        subst hlen
        simp only [copyoutPage, turn_addr hk ha hpage] at hf
        split at hf
        · cases hf
        obtain ⟨pa, hwalk, hf⟩ := bind_ok hf
        obtain ⟨⟨r, p2, g2⟩, hfetch, hf⟩ := bind_ok hf
        split at hf
        · cases hf
        · next hr =>
          obtain ⟨o, _, hf⟩ := bind_ok hf
          cases o with
          | none => cases hf
          | some m =>
            dsimp only at hf
            split at hf
            · cases hf
              obtain ⟨hon2, hent2, hpage2⟩ := copy_blocked hk hin0 hnone0
                hpage hon hent1 hwalk hfetch hr
              exact ⟨turn_done hk, hon2, hent2, hpage2⟩
            · cases hf)
      (fun _ _ _ _ _ _ => trivial) hloop
    rcases hend with ⟨t, _, _, _, _, hpage⟩ | ⟨r, rfl, _⟩
    · have := last_page_lt hhi hlo
      omega
    · cases h

end

-- == the ranges

theorem shrink_inside (hlo : v.start ≠ lo) (hhi : v.stop ≠ hi) : shrink v lo hi = v := by
  unfold shrink
  rw [if_neg (fun h => hlo h.1), if_neg (fun h => hlo h.1), if_neg (fun h => hhi h.1)]

/-- What a cut at the start or at the end leaves does not reach into the
range. -/
theorem shrink_apart (hlo : v.start ≤ lo)
    (hhi : hi ≤ v.stop) (hedge : v.start = lo ∨ v.stop = hi) (ha : lo ≤ a)
    (ha' : a < hi) (hv : (shrink v lo hi).valid = true)
    (hs : (shrink v lo hi).start ≤ a) : (shrink v lo hi).stop ≤ a := by
  simp only [shrink] at hv hs ⊢
  split at hv
  · cases hv
  · next hwhole =>
    rw [if_neg hwhole] at hs ⊢
    split at hv
    · next hfront =>
      rw [if_pos hfront] at hs
      dsimp only at hs
      omega
    · next hfront =>
      rw [if_neg hfront] at hs ⊢
      split at hv
      · next hback =>
        rw [if_pos hback]
        exact ha
      · next hback =>
        exfalso
        rcases hedge with h | h <;> omega

/-- A page-aligned sys_munmap inside a mapping puts the range out of reach
exactly when the range starts at the start of the mapping or ends at its
end. -/
theorem munmap_unmaps_iff {p p' : Proc} {g g' : Glob} {addr n i : Nat}
    (hl : Layout p) (hi : i < nvma) (hv : (p.vma i).valid = true)
    (haddr : addr % pgSize = 0) (hn : 0 < n) (hlo : (p.vma i).start ≤ addr)
    (hhi : addr + n * pgSize ≤ (p.vma i).stop)
    (h : sysMunmap p g addr (n * pgSize : Nat) = .ok (0, p', g')) :
    (∀ a, addr ≤ a → a < addr + n * pgSize → Gone p' a)
      ↔ (p.vma i).start = addr ∨ (p.vma i).stop = addr + n * pgSize := by
  obtain ⟨hu, hhold, hcur, hvma, hent⟩ :=
    sysMunmap_process hl hi hv hn hlo hhi h
  have hok := hl.ok i hi hv
  have hmid : addr < addr + n * pgSize := by
    unfold pgSize
    omega
  constructor
  · intro hgone
    by_contra hno
    rw [not_or] at hno
    -- the record is as it was, and covers the range
    have hsame : p'.vma i = p.vma i := by
      rw [hvma, shrink_inside hno.1 hno.2]
      exact if_pos rfl
    have := vmaAt_none.mp (hgone addr (Nat.le_refl _) hmid).vma i hi
      (by rw [hsame]; exact hv) (by rw [hsame]; exact hlo)
    rw [hsame] at this
    omega
  intro hedge a ha ha'
  have hl' : Layout p' := by
    refine sysMunmap_layout hl (fun j hj => ?_) h
    rw [hu, hhold] at hj
    cases hj
    have hmod : (addr + n * pgSize) % pgSize = 0 := by
      unfold pgSize at *
      omega
    rw [hu]
    exact ⟨fun _ _ => ⟨hmid, hmod⟩, fun _ _ => ⟨hmid, haddr⟩⟩
  refine hl'.gone ⟨?_, ?_⟩ ?_ ?_
  · have := hok.base
    omega
  · rw [hcur]
    have := hok.le_cur
    omega
  · rw [hent, if_pos]
    unfold pgSize at *
    omega
  refine vmaAt_none.mpr fun j hj hvj hlj => ?_
  rw [hvma] at hvj hlj ⊢
  by_cases hji : j = i
  · subst hji
    simp only [Proc.setVma, if_true] at hvj hlj ⊢
    exact shrink_apart hlo hhi hedge ha ha' hvj hlj
  · simp only [Proc.setVma, if_neg hji] at hvj hlj ⊢
    have := hl.disjoint j i hj hi hji hvj hv
    omega

set_option maxRecDepth 10000

/-- The first page of a two-page mapping. -/
theorem munmap_unmaps_boot : ∃ k p' g',
    runAs bootKernel 1 [.mmap 0 8192 3 1 0 0, .fault 0x40000000 false] = .ok k
      ∧ sysMunmap (k.proc 1) k.glob 0x40000000 4096 = .ok (0, p', g')
      ∧ Gone p' 0x40000007 := by
  have hrun : ∃ k p' g', runAs bootKernel 1
        [.mmap 0 8192 3 1 0 0, .fault 0x40000000 false] = .ok k
      ∧ sysMunmap (k.proc 1) k.glob 0x40000000 (1 * pgSize : Nat)
        = .ok (0, p', g')
      ∧ decide (Layout (k.proc 1)) = true
      ∧ (k.proc 1).vma 0 = ⟨0x40000000, 0x40002000, true, 8192, 3, 1, 0,
          some 0, 0⟩ :=
    ⟨_, _, _, rfl, rfl, rfl, rfl⟩
  obtain ⟨k, p', g', hk, hm, hl, hv⟩ := hrun
  have hgone := (munmap_unmaps_iff (i := 0) (of_decide_eq_true hl)
    (by decide) (by rw [hv]) (by decide) Nat.one_pos (by rw [hv])
    (by rw [hv]; decide) hm).mpr (.inl (by rw [hv]))
  exact ⟨k, p', g', hk, hm, hgone 0x40000007 (by decide) (by decide)⟩

/-- The middle page of three: sys_munmap returns 0, and the page is read
again right after it. -/
theorem munmap_inside_keeps_mapping : ∃ k,
    Runs (fun _ _ _ => True) bootKernel k ∧ ∃ p' g' p₂ g₂,
      sysMunmap (k.proc 1) k.glob 0x40001000 4096 = .ok (0, p', g')
      ∧ vmaAt p' 0x40001000 = some 0
      ∧ userLoad p' g' 0x40001000 = .ok (some 2, p₂, g₂) :=
  have hr := Runs.step .refl 1 (.mmap 0 12288 3 1 0 0) (by decide) rfl trivial
    rfl
  ⟨_, hr, _, _, _, _, rfl, rfl, rfl⟩

end Xv6Labs.Model
