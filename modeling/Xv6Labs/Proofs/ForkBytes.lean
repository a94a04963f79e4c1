/-
What the child of a fork reads.

uvmcopy copies the mapped pages of [0, sz) and nothing of a mapping: the
child faults its private pages in from the file, with the offset 0
(`Vma.freshByte`). So the heap is always a snapshot, and a private mapping
is one exactly where the parent reads what such a fault would.
-/
import Xv6Labs.Proofs.Coherent
import Xv6Labs.Proofs.FirstLoad
import Xv6Labs.Proofs.FreePages

namespace Xv6Labs.Model

variable {pt : PageTable} {n : Nat}

open Lib

-- == copied pages

/-- After `k` turns of uvmcopy: each page below `k` that the old table maps
is mapped to a page of its own with the same flags and bytes, the others
are not, and above `k` nothing has changed. -/
structure Replicates (old new : PageTable) (ph₀ : Phys) (k : Nat)
    (pt : PageTable) (ph : Phys) : Prop where
  takes : ph₀.Takes ph
  above : ∀ n, k ≤ n → pt.entry n = new.entry n
  absent : ∀ n, n < k → old.entry n = none → pt.entry n = none
  copy : ∀ n e, n < k → old.entry n = some e →
    ∃ pa, pt.entry n = some ⟨pa, e.perm⟩ ∧ pa % pgSize = 0
      ∧ pa ∉ ph.freelist
      ∧ ∀ j, j < pgSize → ph.mem (pa + j) = ph₀.mem (e.pa + j)

section

variable {old new pt : PageTable} {ph₀ ph : Phys} {k N : Nat}

/-- More pages taken, and one entry more, above what was copied. -/
theorem Replicates.take {pt' : PageTable} {ph' : Phys}
    (h : Replicates old new ph₀ k pt ph) (hs : ph₀.Sound)
    (ht : ph.Takes ph') (he : ∀ n, n < k → pt'.entry n = pt.entry n) {n : Nat}
    {e : Pte} (hn : n < k) (hold : old.entry n = some e) :
    ∃ pa, pt'.entry n = some ⟨pa, e.perm⟩ ∧ pa % pgSize = 0 ∧ pa ∉ ph'.freelist
      ∧ ∀ j, j < pgSize → ph'.mem (pa + j) = ph₀.mem (e.pa + j) := by
  obtain ⟨pa, hpa, hmod, hnot, hbytes⟩ := h.copy n e hn hold
  obtain ⟨l, hl⟩ := ht.suffix
  refine ⟨pa, (he n hn).trans hpa, hmod, fun hin => hnot ?_, fun j hj => ?_⟩
  · rw [hl]
    exact List.mem_append_right l hin
  · exact (ht.page (h.takes.sound hs) hmod hnot hj).trans (hbytes j hj)

theorem copyPage_replicates {s t : PageTable × Phys} (hs : ph₀.Sound)
    (hold : ∀ n e, n < N → old.entry n = some e → e.pa % pgSize = 0 ∧ e.pa ∉ ph₀.freelist)
    (hnew : ∀ n, n < N → new.entry n = none) (hN : N * pgSize ≤ maxVa)
    (hk : k < N) (h : Replicates old new ph₀ k s.1 s.2) (hturn : copyPage old k s = .ok (.inl t)) :
    Replicates old new ph₀ (k + 1) t.1 t.2 := by
  have hva : k * pgSize < maxVa := by
    unfold pgSize at *
    omega
  have hdiv : k * pgSize / pgSize = k := Nat.mul_div_cancel k (by decide)
  obtain ⟨o, hwalk, hturn⟩ := bind_ok hturn
  rw [walkValid_entry hva, hdiv] at hwalk
  have ho := Except.ok.inj hwalk
  cases o with
  | none =>
    cases hturn
    refine ⟨h.takes, fun n hn => h.above n (by omega), fun n hn hnone => ?_, fun n e hn he => ?_⟩
    · rcases Nat.lt_succ_iff_lt_or_eq.mp hn with hlt | rfl
      · exact h.absent n hlt hnone
      · exact (h.above n (Nat.le_refl n)).trans (hnew n hk)
    · rcases Nat.lt_succ_iff_lt_or_eq.mp hn with hlt | rfl
      · exact h.copy n e hlt he
      · rw [ho] at he
        cases he
  | some e =>
    dsimp only at hturn
    split at hturn
    · cases hturn
    · next mem ph1 halloc =>
      obtain ⟨⟨ok, pt', ph'⟩, hmap, hturn⟩ := bind_ok hturn
      cases ok with
      | false =>
        obtain ⟨_, _, hturn⟩ := bind_ok hturn
        cases hturn
      | true =>
        cases hturn
        obtain ⟨hlist, htake⟩ := kalloc_some halloc
        have hmem : mem ∈ s.2.freelist := hlist ▸ List.mem_cons_self
        have hsound := h.takes.sound hs
        obtain ⟨hpmod, hpnot⟩ := hold k e hk ho
        -- the copy writes only the page that was taken
        have hcopied : s.2.Takes
            { ph1 with mem := memmove ph1.mem mem e.pa pgSize } :=
          htake.write hmem fun a ha => if_neg ha
        obtain ⟨_, _, htake', ⟨hf, _⟩ | ⟨_, _, hent⟩⟩ :=
          mappages_entry (lt_two_pow_of_maxVa hva) hmap
        · cases hf
        rw [hdiv] at hent
        have hall := hcopied.trans htake'
        have hmnot : mem ∉ ph1.freelist := hsound.taken fun x => (kalloc_count halloc x).symm
        refine ⟨h.takes.trans hall, fun n hn => ?_, fun n hn hnone => ?_, fun n e' hn he' => ?_⟩
        · rw [hent, if_neg (by omega)]
          exact h.above n (by omega)
        · rcases Nat.lt_succ_iff_lt_or_eq.mp hn with hlt | rfl
          · rw [hent, if_neg (by omega)]
            exact h.absent n hlt hnone
          · rw [ho] at hnone
            cases hnone
        rcases Nat.lt_succ_iff_lt_or_eq.mp hn with hlt | rfl
        · exact h.take hs hall (fun m hm => by
            rw [hent, if_neg (by omega)]) hlt he'
        rw [ho] at he'
        cases he'
        refine ⟨mem, by rw [hent, if_pos rfl], hsound.aligned mem hmem, fun hin => hmnot ?_,
          fun j hj => ?_⟩
        · obtain ⟨l, hl⟩ := htake'.suffix
          rw [show ph1.freelist = l ++ ph'.freelist from hl]
          exact List.mem_append_right l hin
        have hsrc : ph1.mem (e.pa + j) = ph₀.mem (e.pa + j) :=
          (h.takes.trans htake).page hs hpmod hpnot hj
        have hdst : memmove ph1.mem mem e.pa pgSize (mem + j) = ph1.mem (e.pa + j) := by
          unfold memmove
          rw [if_pos ⟨by omega, by omega⟩, Nat.add_sub_cancel_left]
        rw [htake'.page (hcopied.sound hsound) (hsound.aligned mem hmem) hmnot hj]
        exact hdst.trans hsrc

/-- A finished uvmcopy copied the pages of the range. -/
theorem uvmcopy_replicates {sz : Nat} (hs : ph₀.Sound)
    (hold : ∀ n e, n < pagesBelow 0 sz → old.entry n = some e →
      e.pa % pgSize = 0 ∧ e.pa ∉ ph₀.freelist)
    (hnew : ∀ n, n < pagesBelow 0 sz → new.entry n = none) (hsz : sz ≤ mmapBase)
    (h : uvmcopy old new ph₀ sz = .ok (true, pt, ph)) :
    Replicates old new ph₀ (pagesBelow 0 sz) pt ph := by
  have hN : pagesBelow 0 sz * pgSize ≤ maxVa := by
    unfold mmapBase at hsz
    unfold pagesBelow pgSize maxVa
    omega
  obtain ⟨o, ho, h⟩ := bind_ok h
  have hloop := forRet_inv (fun k t => Replicates old new ph₀ k t.1 t.2) (fun _ => True)
    ⟨.refl ph₀, fun _ _ => rfl, fun n hn => absurd hn (Nat.not_lt_zero n),
      fun n _ hn => absurd hn (Nat.not_lt_zero n)⟩
    (fun k hk t t' hr hf => copyPage_replicates hs hold hnew hN hk hr hf)
    (fun _ _ _ _ _ _ => trivial) ho
  rcases hloop with ⟨⟨pt1, ph1⟩, rfl, hr⟩ | ⟨⟨k, pt1, ph1⟩, rfl, _⟩
  · cases h
    exact hr
  · obtain ⟨_, _, h⟩ := bind_ok h
    cases h

end

-- == first loads

/-- Byte `j` of a page of a private mapping as lazy_mmap fills it. -/
def Vma.pageByte (g : Glob) (v : Vma) (va j : Nat) : UInt8 :=
  match g.vmaIp v with
  | some ip => (g.dinode ip).pageByte (v.fileOff va) j
  | none => 0

/-- The byte a first load of `va` through the mapping gives. -/
def Vma.freshByte (g : Glob) (v : Vma) (va : Nat) : UInt8 :=
  v.pageByte g (pgRoundDown va) (va % pgSize)

/-- lazy_mmap can fill a page: there is no file, or its inode can be
locked. -/
def Glob.Fillable (g : Glob) (v : Vma) : Prop :=
  v.file = none ∨ ∃ ip, g.vmaIp v = some ip ∧ g.Lockable ip

section

variable {p p' : Proc} {g g' : Glob} {v : Vma} {va mem s : Nat}
variable {b : UInt8}

theorem privatePage_total (va : Nat) (hv : g.Fillable v) (hmem : 0 < g.phys.freelist.length) :
    ∃ mem g', privatePage g v va = .ok (some mem, g')
      ∧ g'.phys.freelist.length + 1 = g.phys.freelist.length := by
  unfold privatePage
  rcases hv with hnone | ⟨ip, hip, hlock⟩
  · obtain ⟨mem, ph, halloc, hlen⟩ := kalloc_of_pos hmem
    rw [hnone]
    rw [halloc]
    exact ⟨mem, _, rfl, hlen⟩
  cases hf : v.file with
  | none =>
    rw [Glob.vmaIp, hf] at hip
    cases hip
  | some f =>
    rw [hip]
    exact fillPage_total _ hlock hmem

theorem privatePage_bytes (h : privatePage g v va = .ok (some mem, g')) :
    mem ∈ g.phys.freelist ∧ ∀ j, j < pgSize → g'.phys.mem (mem + j) = v.pageByte g va j := by
  simp only [privatePage] at h
  unfold Vma.pageByte
  split at h
  · next f hf =>
    obtain ⟨_, _, _, hpage⟩ := fillPage_spec h
    obtain ⟨hin, ip, hip, hbytes⟩ := hpage mem rfl
    rw [hip]
    exact ⟨hin, hbytes⟩
  · next hf =>
    have hip : g.vmaIp v = none := by
      rw [Glob.vmaIp, hf]
      rfl
    rw [hip]
    split at h
    · cases h
    · next ph halloc =>
      cases h
      refine ⟨(kalloc_some halloc).1 ▸ List.mem_cons_self, fun j hj => ?_⟩
      exact if_pos ⟨by omega, by omega⟩

theorem load_of_fault {r : Nat} (perm : Perm) (hva : va < maxVa)
    (hnone : p.pagetable.entry (va / pgSize) = none)
    (hf : vmfault p g va true = .ok (r, p', g')) (hr : r ≠ 0)
    (he : p'.pagetable.entry (va / pgSize) = some ⟨r, perm⟩) (hperm : perm.u = true ∧ perm.r = true)
    (hb : g'.phys.mem (r + va % pgSize) = b) : userLoad p g va = .ok (some b, p', g') := by
  have hno : userPte p va true = none := by
    rw [userPte_entry hva, hnone]
    rfl
  have hyes : userPte p' va true = some ⟨r, perm⟩ := by
    rw [userPte_entry hva, he, Option.filter_some]
    simp [Pte.grants, hperm.1, hperm.2]
  simp only [userLoad, userAccess, hno, hf, ok_bind, if_neg hr, hyes, pure_eq, hb]

theorem private_load (hin : p.InMmap va) (hva : va < maxVa)
    (hat : vmaAt p va = some s) (hs : (p.vma s).isShared = false)
    (hread : hasBit (p.vma s).prot protRead = true) (hnone : p.pagetable.entry (va / pgSize) = none)
    (hfill : g.Fillable (p.vma s)) (hmem : 3 ≤ g.phys.freelist.length) (hsound : g.phys.Sound) :
    ∃ p' g', userLoad p g va = .ok (some ((p.vma s).freshByte g va), p', g') := by
  have hround := (pgRoundDown_le va).trans_lt hva
  have hentry : p.pagetable.entry (pgRoundDown va / pgSize) = none := by
    rw [roundDown_div]
    exact hnone
  have hwalk : walkValid p.pagetable (pgRoundDown va) = .ok none := by
    rw [walkValid_entry hround, hentry]
  obtain ⟨mem, g1, hpage, hlen⟩ := privatePage_total (pgRoundDown va) hfill (by omega)
  obtain ⟨pt', ph', hmap⟩ := mappages_total mem (p.vma s).perm hround
    (pgRoundDown_mod va) hentry (show 2 ≤ g1.phys.freelist.length by omega)
  obtain ⟨hin', hbytes⟩ := privatePage_bytes hpage
  obtain ⟨_, htake, hcount⟩ := privatePage_spec hpage
  have hne : mem ≠ 0 := by
    rintro rfl
    exact hsound.nonzero hin'
  have hfault : vmfault p g va true
      = .ok (mem, { p with pagetable := pt' }, { g1 with phys := ph' }) := by
    rw [vmfault_inMmap hin]
    simp only [lazyMmap, hat, hwalk, ok_bind, Vma.allows, if_true, hread, hs,
      Bool.false_eq_true, if_false, lazyPrivate, hpage, hmap, pure_eq]
  obtain ⟨_, _, htake', ⟨hf, _⟩ | ⟨_, _, hent⟩⟩ := mappages_entry (lt_two_pow_of_maxVa hround) hmap
  · cases hf
  refine ⟨_, _, load_of_fault (p.vma s).perm hva hnone hfault hne ?_ ⟨rfl, hread⟩ ?_⟩
  · rw [hent, roundDown_div, if_pos rfl]
  · have hj : va % pgSize < pgSize := Nat.mod_lt _ (by decide)
    rw [Vma.freshByte, ← hbytes _ hj]
    exact htake'.page (htake.sound hsound) (hsound.aligned mem hin') (hsound.taken hcount) hj

/-- The first load of a page of the heap. -/
theorem heap_load (hout : ¬ p.InMmap va) (hva : va < maxVa) (hsz : va < p.sz)
    (hnone : p.pagetable.entry (va / pgSize) = none)
    (hmem : 3 ≤ g.phys.freelist.length) (hsound : g.phys.Sound) :
    ∃ p' g', userLoad p g va = .ok (some 0, p', g') := by
  obtain ⟨r, p', g', hfault, hne, hent, hzero⟩ := heapSupplied_of_room hout
    hva hsz hnone hmem hsound.nonzero
  exact ⟨p', g', load_of_fault heapPerm hva hnone hfault hne hent ⟨rfl, rfl⟩
    (hzero _ (Nat.mod_lt _ (by decide)))⟩

/-- A load that returned a byte: from a mapped page, or after a fault. -/
theorem userLoad_cases (h : userLoad p g va = .ok (some b, p', g')) :
    (∃ e, p.pagetable.entry (va / pgSize) = some e ∧ e.grants true = true
      ∧ va < maxVa ∧ g.phys.mem (e.pa + va % pgSize) = b)
    ∨ ∃ r e, vmfault p g va true = .ok (r, p', g') ∧ r ≠ 0
      ∧ p'.pagetable.entry (va / pgSize) = some e ∧ userPte p va true = none
      ∧ g'.phys.mem (e.pa + va % pgSize) = b := by
  obtain ⟨⟨o, p1, g1⟩, hacc, h⟩ := bind_ok h
  simp only [userAccess] at hacc
  split at hacc
  · next e he =>
    cases hacc
    cases h
    obtain ⟨hva, hent, hgr⟩ := userPte_some he
    exact .inl ⟨e, hent, hgr, hva, rfl⟩
  · next hno =>
    obtain ⟨⟨r, p2, g2⟩, hf, hacc⟩ := bind_ok hacc
    split at hacc
    · cases hacc
      cases h
    · next hr =>
      split at hacc
      · next e he =>
        cases hacc
        cases h
        exact .inr ⟨r, e, hf, hr, (userPte_some he).2.1, hno, rfl⟩
      · cases hacc
        cases h

/-- What a load of the heap gives: the byte of the mapped page, or 0. -/
theorem heap_load_byte (hout : ¬ p.InMmap va)
    (h : userLoad p g va = .ok (some b, p', g')) :
    va < maxVa ∧ ((∃ e, p.pagetable.entry (va / pgSize) = some e
        ∧ e.grants true = true ∧ g.phys.mem (e.pa + va % pgSize) = b)
      ∨ p.pagetable.entry (va / pgSize) = none ∧ b = 0) := by
  rcases userLoad_cases h with ⟨e, he, hgr, hva, hb⟩ | ⟨r, e, hf, hr, he, _, hb⟩
  · exact ⟨hva, .inl ⟨e, he, hgr, hb⟩⟩
  obtain ⟨hva, hh⟩ := vmfault_handled hf hr
  refine ⟨hva, .inr ?_⟩
  cases hh with
  | resident hin => exact absurd hin hout
  | mapped hin => exact absurd hin hout
  | heap _ _ hnone halloc hmap =>
    have hround := (pgRoundDown_le va).trans_lt hva
    obtain ⟨_, _, _, ⟨hf, _⟩ | ⟨_, _, hent⟩⟩ := mappages_entry (lt_two_pow_of_maxVa hround) hmap
    · cases hf
    rw [hent, roundDown_div, if_pos rfl] at he
    cases he
    exact ⟨hnone, hb.symm.trans (heapPage_zero hva hmap (Nat.mod_lt _ (by decide)))⟩

end

-- == kfork

/-- A process that may fork: its mappings are in order, above a heap that
ends below them, its heap pages are not on the free list, and its private
mappings can be read. -/
structure ForkStart (p : Proc) (g : Glob) : Prop where
  layout : Layout p
  small : p.sz ≤ mmapBase
  sound : g.phys.Sound
  pages : ∀ n e, n < pagesBelow 0 p.sz → p.pagetable.entry n = some e →
    e.pa % pgSize = 0 ∧ e.pa ∉ g.phys.freelist
  files : ∀ s, s < nvma → (p.vma s).valid = true → (p.vma s).isShared = false → g.Fillable (p.vma s)

theorem leaf_of_entry {e : Pte} (h : pt.entry n = some e) : pt.leaf n = some e := by
  unfold PageTable.entry at h
  split at h
  · exact h
  · cases h

theorem entry_of_leaf_none (h : pt.leaf n = none) : pt.entry n = none := by
  by_contra hne
  obtain ⟨e, he⟩ := Option.ne_none_iff_exists'.mp hne
  rw [leaf_of_entry he] at h
  cases h

/-- The processes of a tidy run may fork, if their heap is below the mmap
area and the files of their private mappings can be read. -/
theorem Tallied.forkStart {k : Kernel} (h : Tallied k) (hc : Coherent k)
    {i : Nat} (hi : i < nproc) (hl : (k.proc i).isLive = true) (hsz : (k.proc i).sz ≤ mmapBase)
    (hfiles : ∀ s, s < nvma → ((k.proc i).vma s).valid = true →
      ((k.proc i).vma s).isShared = false → k.glob.Fillable ((k.proc i).vma s)) :
    ForkStart (k.proc i) k.glob := by
  have hfree : ∀ x, k.glob.phys.freelist.count x + (k.proc i).uses x ≤ k.uses x := by
    intro x
    have hrow := k.uses_row hi hl x
    unfold Glob.uses at hrow
    omega
  refine ⟨h.layout hl, hsz, ⟨?_, fun r hr => ?_, h.zero_free⟩, fun n e hn he => ?_, hfiles⟩
  · refine List.nodup_iff_count_le_one.mpr fun x => ?_
    have hx := hfree x
    have hone := h.once x
    omega
  · have hpos := List.count_pos_iff.mpr hr
    have hr := hfree r
    exact hc.aligned r (by omega)
  have hlow : n * pgSize < mmapBase := by
    unfold pagesBelow mmapBase pgSize at *
    omega
  obtain ⟨hlt, huser⟩ := userPage_of_lt (hlow.trans_le (by decide))
  -- a heap page is one of the process's own, and so not on the free list
  have hown := ownPages_pos hlt huser (sharedAt_low (h.layout hl) hlow) (leaf_of_entry he)
  have huse : 0 < (k.proc i).uses e.pa := by
    unfold Proc.uses
    omega
  have hx := hfree e.pa
  refine ⟨hc.aligned e.pa (by omega), fun hin => ?_⟩
  have hpos := List.count_pos_iff.mpr hin
  have hone := h.once e.pa
  omega

/-- The child's address space and files, next to the parent's. -/
structure Forked (p : Proc) (g : Glob) (c : Proc) (g' : Glob) : Prop where
  sz : c.sz = p.sz
  cur : c.curVmaStart = p.curVmaStart
  maps : c.maps = p.maps.map fun v => { v with offset := 0 }
  sound : g'.phys.Sound
  absent : ∀ n, n < pagesBelow 0 p.sz → p.pagetable.entry n = none → c.pagetable.entry n = none
  copy : ∀ n e, n < pagesBelow 0 p.sz → p.pagetable.entry n = some e →
    ∃ pa, c.pagetable.entry n = some ⟨pa, e.perm⟩
      ∧ ∀ j, j < pgSize → g'.phys.mem (pa + j) = g.phys.mem (e.pa + j)
  empty : ∀ n, pagesBelow 0 p.sz ≤ n → n < tfPage → c.pagetable.entry n = none
  vmaIp : ∀ v, g'.vmaIp v = g.vmaIp v
  dinode : ∀ ip, g'.dinode ip = g.dinode ip
  lockable : ∀ ip, g.Lockable ip → g'.Lockable ip

section

variable {k k' : Kernel} {i j : Nat}
variable {p : Proc} {g g' : Glob}

/-- After the copy of the pages, kfork leaves memory and the files as they
are, up to reference counts. -/
theorem forkRest_memory {np np' : Proc} (h : forkRest p np g i = .ok (np', g')) :
    g'.phys = g.phys ∧ (∀ v, g'.vmaIp v = g.vmaIp v) ∧ (∀ ip, g'.dinode ip = g.dinode ip)
      ∧ ∀ ip, g.Lockable ip → g'.Lockable ip := by
  obtain ⟨c, g2, _, ⟨hphys, hdisk, hip, hit⟩, rfl⟩ := forkRest_inv
    (fun t => t.phys = g.phys ∧ t.disk = g.disk
      ∧ (∀ f, (t.ftable f).ip = (g.ftable f).ip) ∧ t.itable = g.itable)
    ⟨rfl, rfl, fun _ => rfl, rfl⟩
    (fun t t' f ⟨h1, h2, h3, h4⟩ hd => by
      obtain ⟨_, rfl⟩ := filedup_ok hd
      refine ⟨h1, h2, fun a => ?_, h4⟩
      simp only [Glob.setFile]
      split
      · next ha => rw [← h3 a, ha]
      · exact h3 a) h
  have hslot : ∀ a, ((idup g2 c).itable a).inum = (g.itable a).inum
      ∧ (g.itable a).ref ≤ ((idup g2 c).itable a).ref := by
    intro a
    rw [← hit]
    simp only [idup, Glob.setInode]
    split
    · next ha =>
      rw [ha]
      exact ⟨rfl, by dsimp only; omega⟩
    · exact ⟨rfl, Int.le_refl _⟩
  have hdin : ∀ ip, (idup g2 c).dinode ip = g.dinode ip := by
    intro ip
    unfold Glob.dinode
    rw [(hslot ip).1]
    exact congrFun hdisk _
  refine ⟨hphys, fun v => ?_, hdin, fun ip hl => ?_⟩
  · unfold Glob.vmaIp
    cases v.file with
    | none => rfl
    | some f => exact hip f
  · unfold Glob.Lockable
    rw [hdin]
    exact ⟨hl.1.trans (hslot ip).2, hl.2⟩

/-- The heap is below the trapframe. -/
theorem heapPages_lt {sz n : Nat} (hsz : sz ≤ mmapBase)
    (hn : n < pagesBelow 0 sz) : n < tfPage := by
  have htf : tfPage = 67108862 := by decide
  unfold mmapBase at hsz
  unfold pagesBelow pgSize at hn
  omega

theorem kfork_forked (hs : ForkStart (k.proc i) k.glob) (h : kfork k i = .ok (some j, k')) :
    Forked (k.proc i) k.glob (k'.proc j) k'.glob := by
  have hmaps := fork_maps h
  obtain ⟨_, _, tf, ph1, pt0, ph₀, pt, ph, ⟨np, g'⟩, halloc, htable, hcopy,
    hrest, rfl⟩ := kfork_some h
  obtain ⟨ofile, hnp⟩ := forkRest_frame (fun _ => rfl) hrest
  obtain ⟨hfresh, _, htake0, _⟩ := procPagetable_some htable
  obtain ⟨hphys, hvma, hdin, hlock⟩ := forkRest_memory hrest
  have htake := (kalloc_some halloc).2.trans htake0
  have hsound0 := htake.sound hs.sound
  have hnew : ∀ n, n < tfPage → pt0.entry n = none :=
    fun n hn => entry_of_leaf_none (hfresh.low n hn)
  have hpages : ∀ n e, n < pagesBelow 0 (k.proc i).sz → (k.proc i).pagetable.entry n = some e →
      e.pa % pgSize = 0 ∧ e.pa ∉ ph₀.freelist := by
    intro n e hn he
    obtain ⟨hmod, hnot⟩ := hs.pages n e hn he
    obtain ⟨l, hl⟩ := htake.suffix
    exact ⟨hmod, fun hin => hnot (hl ▸ List.mem_append_right l hin)⟩
  have hrep := uvmcopy_replicates hsound0 hpages
    (fun n hn => hnew n (heapPages_lt hs.small hn)) hs.small hcopy
  rw [Kernel.put_self] at hmaps ⊢
  rw [Kernel.put_glob]
  have hpt : np.pagetable = pt := by rw [hnp]; rfl
  have hsz : np.sz = (k.proc i).sz := by rw [hnp]
  have hcur : np.curVmaStart = (k.proc i).curVmaStart := by rw [hnp]
  refine ⟨hsz, hcur, hmaps, ?_, ?_, ?_, ?_, hvma, hdin, hlock⟩
  · rw [hphys]
    exact hrep.takes.sound hsound0
  · rw [hpt]
    exact hrep.absent
  · intro n e hn he
    obtain ⟨pa, hpa, _, _, hbytes⟩ := hrep.copy n e hn he
    rw [hpt, hphys]
    obtain ⟨hmod, hnot⟩ := hs.pages n e hn he
    exact ⟨pa, hpa, fun a ha =>
      (hbytes a ha).trans (htake.page hs.sound hmod hnot ha)⟩
  · intro n hn hlt
    rw [hpt, hrep.above n hn]
    exact hnew n hlt

/-- The child finds the parent's mapping, with offset 0. -/
theorem Forked.vmaAt {c : Proc} (h : Forked p g c g')
    {va s : Nat} (hat : vmaAt p va = some s) :
    ∃ s', vmaAt c va = some s' ∧ c.vma s' = { p.vma s with offset := 0 } := by
  have hp := vmaAt_maps p va
  have hc := vmaAt_maps c va
  rw [h.maps, List.find?_map] at hc
  have hfun : ((fun v : Vma => decide (v.start ≤ va ∧ va < v.stop))
      ∘ fun v : Vma => { v with offset := 0 })
      = fun v : Vma => decide (v.start ≤ va ∧ va < v.stop) := rfl
  rw [hfun, ← hp, hat] at hc
  obtain ⟨s', hs', heq⟩ := Option.map_eq_some_iff.mp hc
  exact ⟨s', hs', heq⟩

end

-- == the snapshot

/-- The process reads `b` at `va`, after a page fault if need be. -/
def Proc.Reads (p : Proc) (g : Glob) (va : Nat) (b : UInt8) : Prop :=
  ∃ p' g', userLoad p g va = .ok (some b, p', g')

/-- The address is in the readable private mapping of slot `s`. -/
def Proc.PrivateAt (p : Proc) (va s : Nat) : Prop :=
  vmaAt p va = some s ∧ (p.vma s).isShared = false ∧ hasBit (p.vma s).prot protRead = true

/-- In the heap and in the private mappings of `p`, `c` reads what `p`
reads. -/
def Snapshot (p : Proc) (g : Glob) (c : Proc) (g' : Glob) : Prop :=
  ∀ va b, (va < p.sz ∨ ∃ s, p.PrivateAt va s) → p.Reads g va b → c.Reads g' va b

section

variable {p c : Proc} {g g' : Glob} {va s : Nat} {b : UInt8}

theorem Proc.Reads.eq {b' : UInt8} (h : p.Reads g va b) (h' : p.Reads g va b') : b = b' := by
  obtain ⟨_, _, h⟩ := h
  obtain ⟨_, _, h'⟩ := h'
  rw [h] at h'
  cases h'
  rfl

theorem resident_load {e : Pte} (hva : va < maxVa) (he : p.pagetable.entry (va / pgSize) = some e)
    (hgr : e.grants true = true) : p.Reads g va (g.phys.mem (e.pa + va % pgSize)) := by
  have hyes : userPte p va true = some e := by
    rw [userPte_entry hva, he, Option.filter_some, if_pos hgr]
  refine ⟨p, g, ?_⟩
  simp only [userLoad, userAccess, hyes, ok_bind, pure_eq]

/-- Where private mappings lie. -/
theorem Proc.PrivateAt.inMmap (h : p.PrivateAt va s) (hl : Layout p) :
    s < nvma ∧ (p.vma s).valid = true ∧ p.InMmap va ∧ va < maxVa := by
  obtain ⟨hs, hv, hlo, hhi⟩ := vmaAt_some h.1
  have hok := hl.ok s hs hv
  have hbase := hok.base
  have hle := hok.le_cur
  have htop := hl.cur_top
  refine ⟨hs, hv, ⟨by omega, by omega⟩, ?_⟩
  unfold mmapTop at htop
  unfold maxVa
  omega

/-- The heap of the child is a snapshot. -/
theorem Forked.heap (h : Forked p g c g') (hs : ForkStart p g)
    (hmem : 3 ≤ g'.phys.freelist.length) (hsz : va < p.sz)
    (hr : p.Reads g va b) : c.Reads g' va b := by
  have hsmall := hs.small
  have hout : ∀ q : Proc, ¬ q.InMmap va := by
    rintro q ⟨hlo, _⟩
    omega
  have hn : va / pgSize < pagesBelow 0 p.sz := by
    unfold pagesBelow pgSize
    omega
  have hj : va % pgSize < pgSize := Nat.mod_lt _ (by decide)
  obtain ⟨_, _, hload⟩ := hr
  obtain ⟨hva, ⟨e, he, hgr, hb⟩ | ⟨hnone, rfl⟩⟩ := heap_load_byte (hout p) hload
  · obtain ⟨pa, hpa, hbytes⟩ := h.copy _ e hn he
    have hread := resident_load (g := g') hva hpa hgr
    rw [hbytes _ hj, hb] at hread
    exact hread
  · exact heap_load (hout c) hva (h.sz ▸ hsz) (h.absent _ hn hnone) hmem h.sound

/-- In a private mapping the child reads what a fault fills in. -/
theorem Forked.mapping (h : Forked p g c g') (hs : ForkStart p g)
    (hmem : 3 ≤ g'.phys.freelist.length) (hat : p.PrivateAt va s) :
    c.Reads g' va (({ p.vma s with offset := 0 } : Vma).freshByte g va) := by
  obtain ⟨hlt, hv, hin, hva⟩ := hat.inMmap hs.layout
  obtain ⟨hvma, hpriv, hread⟩ := hat
  obtain ⟨s', hat', hvma'⟩ := h.vmaAt hvma
  have hfresh : ({ p.vma s with offset := 0 } : Vma).freshByte g va
      = (c.vma s').freshByte g' va := by
    rw [hvma']
    unfold Vma.freshByte Vma.pageByte
    simp only [h.vmaIp, h.dinode]
  have hfill : g'.Fillable (c.vma s') := by
    rw [hvma']
    rcases hs.files s hlt hv hpriv with hnone | ⟨ip, hip, hl⟩
    · exact .inl hnone
    · exact .inr ⟨ip, (h.vmaIp _).trans hip, h.lockable ip hl⟩
  have hbase := hin.1
  have hcur := hin.2
  have hsmall := hs.small
  have htop := hs.layout.cur_top
  have hempty : c.pagetable.entry (va / pgSize) = none := by
    refine h.empty _ ?_ ?_
    · unfold pagesBelow mmapBase pgSize at *
      omega
    · rw [show tfPage = 67108862 by decide]
      unfold mmapTop at htop
      unfold pgSize
      omega
  rw [hfresh]
  exact private_load ⟨hbase, h.cur ▸ hcur⟩ hva hat' (by rw [hvma']; exact hpriv)
    (by rw [hvma']; exact hread) hempty hfill hmem h.sound

end

/-- A fork is a snapshot exactly when, in the parent's readable private
mappings, every byte the parent reads is the file's byte at the distance
of the address from the start of the mapping. -/
theorem fork_snapshots_iff {k k' : Kernel} {i j : Nat}
    (hs : ForkStart (k.proc i) k.glob) (h : kfork k i = .ok (some j, k'))
    (hmem : 3 ≤ k'.glob.phys.freelist.length) :
    Snapshot (k.proc i) k.glob (k'.proc j) k'.glob
      ↔ ∀ va s b, (k.proc i).PrivateAt va s → (k.proc i).Reads k.glob va b →
          b = ({ (k.proc i).vma s with offset := 0 } : Vma).freshByte
            k.glob va := by
  have hf := kfork_forked hs h
  constructor
  · intro hsnap va s b hat hr
    exact (hsnap va b (.inr ⟨s, hat⟩) hr).eq (hf.mapping hs hmem hat)
  intro hall va b hwhere hr
  rcases hwhere with hsz | ⟨s, hat⟩
  · exact hf.heap hs hmem hsz hr
  · rw [hall va s b hat hr]
    exact hf.mapping hs hmem hat

set_option maxRecDepth 10000

/-- A private mapping that was not touched yet. -/
theorem fork_snapshots_boot : ∃ k k', Runs Tidy bootKernel k
    ∧ kfork k 1 = .ok (some 2, k') ∧ (k.proc 1).PrivateAt 0x40000000 0
    ∧ Snapshot (k.proc 1) k.glob (k'.proc 2) k'.glob := by
  have hrun : ∃ k k', Runs Tidy bootKernel k
      ∧ kfork k 1 = .ok (some 2, k') ∧ (k.proc 1).PrivateAt 0x40000000 0
      ∧ (k.proc 1).isLive = true ∧ (k.proc 1).sz = 0
      ∧ decide (3 ≤ k.glob.phys.freelist.length) = true
      ∧ decide (3 ≤ k'.glob.phys.freelist.length) = true
      ∧ (∀ s, s < nvma → ((k.proc 1).vma s).valid = true → s = 0)
      ∧ ((k.proc 1).vma 0).offset = 0
      ∧ (k.proc 1).pagetable = bootTable 0x87010000
      ∧ k.glob.vmaIp ((k.proc 1).vma 0) = some 0
      ∧ (k.glob.itable 0).ref = 1 ∧ (k.glob.dinode 0).type = .file :=
    have hr := Runs.step .refl 1 (.mmap 0 8192 3 2 0 0) (by decide) rfl
      ⟨by decide, by decide⟩ rfl
    ⟨_, _, hr, rfl, ⟨rfl, rfl, rfl⟩, rfl, rfl, rfl, rfl, by decide, rfl, rfl,
      rfl, rfl, rfl⟩
  obtain ⟨k, k', hr, hfork, hpriv, hl, hsz, hmem, hmem', hval, hoff, hpt, hip,
    href, htype⟩ := hrun
  obtain ⟨htally, hcoh⟩ := coherent_of_runs boot_books boot_aligned hr
  have hlay := htally.layout hl
  have hfill : k.glob.Fillable ((k.proc 1).vma 0) :=
    .inr ⟨0, hip, by rw [href], by rw [htype]; decide⟩
  have hstart : ForkStart (k.proc 1) k.glob := by
    refine htally.forkStart hcoh (by decide) hl (by rw [hsz]; decide)
      fun s hs hvs _ => ?_
    rw [hval s hs hvs]
    exact hfill
  refine ⟨k, k', hr, hfork, hpriv, (fork_snapshots_iff hstart hfork
    (of_decide_eq_true hmem')).mpr fun va s b hat hr => ?_⟩
  obtain ⟨hlt, hvs, hin, hva⟩ := hat.inMmap hlay
  have hs0 := hval s hlt hvs
  subst hs0
  have hsame : ({ (k.proc 1).vma 0 with offset := 0 } : Vma)
      = (k.proc 1).vma 0 := by
    cases hv : (k.proc 1).vma 0
    rw [hv] at hoff
    cases hoff
    rfl
  have hnone : (k.proc 1).pagetable.entry (va / pgSize) = none := by
    refine entry_of_leaf_none ?_
    by_contra hne
    obtain ⟨e, he⟩ := Option.ne_none_iff_exists'.mp hne
    rw [hpt] at he
    have htop := hlay.cur_top
    have hcur := hin.2
    rw [show mmapTop = 0x80000000 by decide] at htop
    rcases bootTable_leaf he with htp | htf
    · rw [show trampPage = 67108863 by decide] at htp
      unfold pgSize at htp
      omega
    · rw [show tfPage = 67108862 by decide] at htf
      unfold pgSize at htf
      omega
  rw [hsame]
  exact hr.eq (private_load hin hva hat.1 hat.2.1 hat.2.2 hnone hfill
    (of_decide_eq_true hmem) hstart.sound)

/-- The parent stores a byte in a private page and forks. It reads its
byte, and the child the file's. -/
theorem fork_drops_private_store : ∃ k k' p₁ g₁ p₂ g₂,
    runAs bootKernel 1 [.mmap 0 4096 3 2 0 0, .store 0x40000000 99] = .ok k
      ∧ kfork k 1 = .ok (some 2, k')
      ∧ userLoad (k.proc 1) k.glob 0x40000000 = .ok (some 99, p₁, g₁)
      ∧ userLoad (k'.proc 2) k'.glob 0x40000000 = .ok (some 2, p₂, g₂) :=
  ⟨_, _, _, _, _, _, rfl, rfl, rfl, rfl⟩

end Xv6Labs.Model
