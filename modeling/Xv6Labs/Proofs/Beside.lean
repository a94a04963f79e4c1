/-
What sys_munmap leaves alone: if the page after the range is not mapped,
every other entry and every page behind it is as it was
(`munmap_spares_rest_iff`).
-/
import Xv6Labs.Proofs.Coherent
import Xv6Labs.Proofs.Munmap

namespace Xv6Labs.Model

open Lib Finset

variable {v : Vma} {ph ph' : Phys} {a lo : Nat} {s s' : Proc × Glob} {e : Pte}
variable {g g' : Glob} {n : Nat} {p : Proc}

-- == pages are freed

theorem sharedDecref_frees {t t' : SharedTab}
    {ip : Option Nat} {off : Nat}
    (h : sharedDecref t ph ip off = .ok (t', ph')) : ph.Frees ph' := by
  rcases sharedDecref_cases h with
    ⟨_, _, rfl⟩ | ⟨e, _, ⟨_, rfl, _⟩ | ⟨_, ⟨ph1, h1, h2⟩, _⟩⟩
  · exact .refl _
  · exact .refl _
  · exact (kfree_frees h1).trans (kfree_frees h2)

theorem uvmunmap_frees {pt pt' : PageTable} {va : Nat}
    {f : Bool} (hva : va < maxVa) (h : uvmunmap pt ph va 1 f = .ok (pt', ph')) : ph.Frees ph' := by
  rcases (uvmunmap_entry hva h).2.2 with ⟨rfl, _⟩ | ⟨e, _, _, hfree⟩
  · exact .refl _
  · exact kfree_frees hfree

theorem PageTurn.frees (h : PageTurn v a a s s') : s.2.phys.Frees s'.2.phys := by
  rcases h with ⟨_, rfl⟩ | ⟨e, he, ⟨_, g, pt, ph, hd, hu, rfl⟩ | ⟨_, pt, ph, hu, rfl⟩⟩
  · exact .refl _
  · obtain ⟨t, q, hdec, rfl⟩ := decref_glob hd
    exact (sharedDecref_frees hdec).trans (uvmunmap_frees (walkValid_lt he) hu)
  · exact uvmunmap_frees (walkValid_lt he) hu

theorem munmapPages_frees (h : forUpto (munmapPage v lo) n s = .ok s') : s.2.phys.Frees s'.2.phys :=
  forUpto_inv (fun _ t => s.2.phys.Frees t.2.phys) (.refl _)
    (fun _ _ _ _ hP hk => hP.trans (munmapPage_turn hk).frees) h

theorem fileclose_phys {f : Nat}
    (ht : (g.ftable f).type ≠ .pipe) (h : fileclose g f = .ok g') : g'.phys = g.phys := by
  cases fileclose_closed h with
  | more => rfl
  | @inode ip =>
    obtain ⟨disk, valid, heq⟩ := iput_slot
      (g.setFile f { g.ftable f with ref := 0, type := .none }) ip
    rw [heq]
    rfl
  | pipe _ htype => exact absurd htype ht
  | none => rfl

theorem closeWhole_phys {hi : Nat}
    (ht : ∀ f, v.file = some f → (g.ftable f).type ≠ .pipe)
    (h : closeWhole g v lo hi = .ok g') : g'.phys = g.phys := by
  rcases closeWhole_cases h with ⟨_, rfl⟩ | ⟨_, f, hf, hc⟩
  · rfl
  · exact fileclose_phys (ht f hf) hc

-- == a space of its own

/-- An address space in order: mappings and ledgers fit, no page of it is
used twice, a PTE of a shared mapping is to the page of its registry
entry, and the two pages on top are the trapframe and kernel text. -/
structure OwnSpace (p : Proc) (g : Glob) : Prop where
  layout : Layout p
  fits : Fits p g
  once : ∀ x, p.uses x + g.uses x ≤ 1
  aligned : ∀ x, 0 < p.uses x + g.uses x → x % pgSize = 0
  coherent : ∀ n e ip off, p.pagetable.leaf n = some e →
    p.sharedKey g n = some (ip, off) →
    ∃ s, g.shared.lookup ip off = some s ∧ s.pa = e.pa
  trapframe : ∀ e, p.pagetable.leaf tfPage = some e → e.pa = p.trapframe
  trampoline : ∀ e, p.pagetable.leaf trampPage = some e → e.pa < g.phys.kend ∧ e.pa % pgSize = 0

/-- The processes of a tidy run have such address spaces. -/
theorem Tallied.ownSpace {k : Kernel} (h : Tallied k) (hc : Coherent k)
    {i : Nat} (hi : i < nproc) (hl : (k.proc i).isLive = true)
    (htf : ∀ e, (k.proc i).pagetable.leaf tfPage = some e → e.pa = (k.proc i).trapframe)
    (htr : ∀ e, (k.proc i).pagetable.leaf trampPage = some e →
      e.pa < k.glob.phys.kend ∧ e.pa % pgSize = 0) :
    OwnSpace (k.proc i) k.glob := by
  have hle := k.uses_row hi hl
  exact ⟨h.layout hl, h.fits hi hl, fun x => (hle x).trans (h.once x),
    fun x hx => hc.aligned x (Nat.lt_of_lt_of_le hx (hle x)),
    hc.pages i hi, htf, htr⟩

/-- PTEs are to page-aligned addresses. -/
theorem OwnSpace.pte_aligned (h : OwnSpace p g)
    (he : p.pagetable.leaf n = some e) : e.pa % pgSize = 0 := by
  by_cases htr : n = trampPage
  · subst htr
    exact (h.trampoline e he).2
  apply h.aligned
  unfold Proc.uses Glob.uses
  by_cases htf : n = tfPage
  · subst htf
    rw [h.trapframe e he, points_some, if_pos rfl]
    omega
  cases hat : p.sharedAt n with
  | none =>
    have hn : n < 2 ^ 26 := h.fits.table.leaf_lt (by rw [he]; rfl)
    have := ownPages_pos hn ⟨htf, htr⟩ hat he
    omega
  | some s =>
    obtain ⟨s0, hs0, hpa⟩ := h.coherent n e (g.ftable s.1).ip s.2 he
      (by rw [Proc.sharedKey, hat]; rfl)
    have := (pages_pos_of_lookup hs0).1
    rw [hpa] at this
    omega

/-- Unmapping frees no page of an entry that stays. -/
theorem OwnSpace.stays {p' : Proc} (h : OwnSpace p g)
    (hun : Unmapped p g p' g') (htf : p'.trapframe = p.trapframe)
    (he : p'.pagetable.leaf n = some e) (hn : n ≠ trampPage) : e.pa ∉ g'.phys.freelist := by
  have hold : p.pagetable.leaf n = some e := by
    rcases hun.leaf n with heq | hnone
    · rw [← heq, he]
    · rw [hnone] at he
      cases he
  have hlt : n < 2 ^ 26 := by
    refine hun.moves.table.leaf_lt ?_
    rw [he]
    rfl
  intro hfree
  have hcount := List.count_pos_iff.mpr hfree
  have hle := h.once e.pa
  rw [← hun.moves.uses e.pa] at hle
  unfold Proc.uses Glob.uses at hle
  by_cases hn' : n = tfPage
  · -- the trapframe is a page of the process
    subst hn'
    have hpt : points (some p'.trapframe) e.pa = 1 := by
      rw [htf, h.trapframe e hold, points_some, if_pos rfl]
    omega
  cases hat : p.sharedAt n with
  | none =>
    have hpos := ownPages_pos hlt ⟨hn', hn⟩ (by rw [hun.sharedAt]; exact hat) he
    omega
  | some s =>
    -- the key still has a PTE, so its entry is still there
    have hkey : p.sharedKey g n = some ((g.ftable s.1).ip, s.2) := by
      rw [Proc.sharedKey, hat]
      rfl
    obtain ⟨s0, hs0, hpa⟩ := h.coherent n e _ _ hold hkey
    have hkey' : p'.keyAt g' n = some ((g.ftable s.1).ip, s.2) := by
      rw [Proc.keyAt, he, sharedKey_congr hun.vma hun.files]
      exact hkey
    have hpos := sharedPtes_pos hlt hkey'
    have hrefs := hun.moves.refs (g.ftable s.1).ip s.2
    have hfit := h.fits.le (g.ftable s.1).ip s.2
    obtain ⟨s1, hs1, _⟩ := lookup_of_refs (show 0 < g'.shared.refs (g.ftable s.1).ip s.2 by omega)
    have hpages := (pages_pos_of_lookup hs1).1
    rcases hun.drops.entries _ _ _ hs0 with ⟨s2, hs2, heq⟩ | ⟨hno, _⟩
    · rw [hs1] at hs2
      cases hs2
      rw [heq, hpa] at hpages
      omega
    · rw [hs1] at hno
      cases hno

section

variable {p p' : Proc} {g g' : Glob} {addr n i : Nat}

/-- A page-aligned sys_munmap inside a mapping, with nothing mapped on the
page right after the range: the entry and the contents of every page
outside the range stay. -/
theorem OwnSpace.munmap_spares (h : OwnSpace p g) (hi : i < nvma) (hv : (p.vma i).valid = true)
    (hfile : ∀ f, (p.vma i).file = some f → (g.ftable f).type ≠ .pipe)
    (haddr : addr % pgSize = 0) (hn : 0 < n) (hlo : (p.vma i).start ≤ addr)
    (hhi : addr + n * pgSize ≤ (p.vma i).stop)
    (hm : sysMunmap p g addr (n * pgSize : Nat) = .ok (0, p', g'))
    (hnone : p.pagetable.entry (addr / pgSize + n) = none) (ha : a < addr ∨ addr + n * pgSize ≤ a) :
    p'.pagetable.entry (a / pgSize) = p.pagetable.entry (a / pgSize)
      ∧ ∀ e, p.pagetable.entry (a / pgSize) = some e →
        g'.phys.mem (e.pa + a % pgSize) = g.phys.mem (e.pa + a % pgSize) := by
  obtain ⟨hu, hhold, _, _, hent⟩ := sysMunmap_process h.layout hi hv hn hlo hhi hm
  have hout : p'.pagetable.entry (a / pgSize) = p.pagetable.entry (a / pgSize) := by
    rw [hent]
    by_cases hlast : a / pgSize = addr / pgSize + n
    · rw [hlast, hnone]
      split <;> rfl
    · rw [if_neg]
      unfold pgSize at *
      omega
  refine ⟨hout, fun e he => ?_⟩
  rcases sysMunmap_cases hm with
    ⟨_, _, hr⟩ | ⟨j, p₁, g₁, g₂, _, hj, hwb, hloop, hclose, hp'⟩
  · cases hr
  rw [hu] at hj hloop hclose
  rw [hhold] at hj
  cases hj
  have hfs := (writeBack_covers (fun _ => Int.le_refl _) hwb).2
  have hspace : OwnSpace p g₁ := by
    have huses : g₁.uses = g.uses := by
      funext x
      unfold Glob.uses
      rw [hfs.phys, hfs.shared]
    refine ⟨h.layout, ⟨h.fits.table, hfs.shared ▸ h.fits.shared,
      fun ip off => ?_⟩, fun x => ?_, fun x hx => ?_,
      fun m e ip off hm hk => ?_, h.trapframe, hfs.phys ▸ h.trampoline⟩
    · rw [sharedPtes_files hfs.ftable, hfs.shared]
      exact h.fits.le ip off
    · rw [huses]
      exact h.once x
    · rw [huses] at hx
      exact h.aligned x hx
    · rw [hfs.shared]
      exact h.coherent m e ip off hm (by rw [← hk, sharedKey_congr rfl hfs.ftable])
  have hleaf := h.fits.table.entry_eq
  have hun := (munmapPages_unmapped h.layout hspace.fits hi hv hlo hhi
    haddr (fun hstop hsome => by
      rw [← hstop, page_add, ← hleaf, hnone] at hsome
      cases hsome) hloop).1
  obtain ⟨⟨pt, hp₁⟩, hq⟩ := munmapPages_frame hloop
  dsimp only at hp₁
  have htf : p₁.trapframe = p.trapframe := by rw [hp₁]
  have hstay : p₁.pagetable.leaf (a / pgSize) = some e := by
    rw [← hun.moves.table.entry_eq, ← he, ← hout, hp']
    rfl
  have hphys : g'.phys = g₂.phys := by
    refine closeWhole_phys (fun f hf => ?_) hclose
    rw [hq.ftable, hfs.ftable]
    exact hfile f hf
  have hfrees := munmapPages_frees hloop
  have hmod := h.pte_aligned (by rw [← hleaf]; exact he)
  have hj : a % pgSize < pgSize := Nat.mod_lt _ (by decide)
  rw [hphys, ← hfs.phys]
  by_cases htramp : a / pgSize = trampPage
  · refine hfrees.kernel hmod (hspace.trampoline e ?_).1 hj
    rw [← htramp, ← hleaf]
    exact he
  · exact hfrees.page hmod (hspace.stays hun htf hstay htramp) hj

end

/-- A page-aligned sys_munmap inside a mapping leaves the entry and the
contents of every page outside the range exactly when nothing is mapped on
the page right after the range. -/
theorem munmap_spares_rest_iff {p p' : Proc} {g g' : Glob} {addr n i : Nat}
    (h : OwnSpace p g) (hi : i < nvma) (hv : (p.vma i).valid = true)
    (hfile : ∀ f, (p.vma i).file = some f → (g.ftable f).type ≠ .pipe)
    (haddr : addr % pgSize = 0) (hn : 0 < n) (hlo : (p.vma i).start ≤ addr)
    (hhi : addr + n * pgSize ≤ (p.vma i).stop)
    (hm : sysMunmap p g addr (n * pgSize : Nat) = .ok (0, p', g')) :
    (∀ a, a < addr ∨ addr + n * pgSize ≤ a →
      p'.pagetable.entry (a / pgSize) = p.pagetable.entry (a / pgSize)
      ∧ ∀ e, p.pagetable.entry (a / pgSize) = some e →
        g'.phys.mem (e.pa + a % pgSize) = g.phys.mem (e.pa + a % pgSize))
    ↔ p.pagetable.entry (addr / pgSize + n) = none := by
  constructor
  · intro hrest
    obtain ⟨_, _, _, _, hent⟩ := sysMunmap_process h.layout hi hv hn hlo hhi hm
    have hpte := (hrest (addr + n * pgSize) (.inr (Nat.le_refl _))).1
    rw [page_add, hent, if_pos (by omega)] at hpte
    exact hpte.symm
  · intro hnone a ha
    exact h.munmap_spares hi hv hfile haddr hn hlo hhi hm hnone ha

set_option maxRecDepth 10000

/-- The first page of a shared mapping goes, and the page after it is not
mapped: the byte on the page after that is the same. -/
theorem munmap_spares_rest_boot : ∃ k p' g', Runs Tidy bootKernel k
    ∧ sysMunmap (k.proc 1) k.glob 0x40000000 4096 = .ok (0, p', g')
    ∧ p'.pagetable.entry (0x40002007 / pgSize)
      = (k.proc 1).pagetable.entry (0x40002007 / pgSize) := by
  have hrun : ∃ k p' g', Runs Tidy bootKernel k
      ∧ sysMunmap (k.proc 1) k.glob 0x40000000 (1 * pgSize : Nat)
        = .ok (0, p', g')
      ∧ (k.proc 1).isLive = true
      ∧ (k.proc 1).vma 0
        = ⟨0x40000000, 0x40003000, true, 12288, 3, 1, 0, some 0, 0⟩
      ∧ (k.glob.ftable 0).type = .inode
      ∧ ((k.proc 1).pagetable.leaf tfPage).map Pte.pa
        = some (k.proc 1).trapframe
      ∧ ((k.proc 1).pagetable.leaf trampPage).map Pte.pa = some 0x80006000
      ∧ k.glob.phys.kend = 0x80030000
      ∧ (k.proc 1).pagetable.entry (0x40000000 / pgSize + 1) = none :=
    have hr := ((Runs.step .refl 1 (.mmap 0 12288 3 1 0 0) (by decide) rfl
      ⟨by decide, by decide⟩ rfl).step 1 (.fault 0x40000000 true) (by decide)
      rfl trivial rfl).step 1 (.fault 0x40002000 true) (by decide) rfl trivial
      rfl
    ⟨_, _, _, hr, rfl, rfl, rfl, rfl, rfl, rfl, rfl, rfl⟩
  obtain ⟨k, p', g', hr, hm, hl, hv, htype, htf, htr, hkend, hnone⟩ := hrun
  obtain ⟨htally, hcoh⟩ := coherent_of_runs boot_books boot_aligned hr
  have hspace : OwnSpace (k.proc 1) k.glob := by
    refine htally.ownSpace hcoh (by decide) hl (fun e he => ?_) fun e he => ?_
    · rw [he] at htf
      exact Option.some.inj htf
    · rw [he] at htr
      rw [hkend, Option.some.inj htr]
      decide
  have hrest := (munmap_spares_rest_iff hspace (i := 0) (by decide)
    (by rw [hv]) (fun f hf => by
      rw [hv] at hf
      cases hf
      rw [htype]
      decide) (by decide) Nat.one_pos (by rw [hv]) (by rw [hv]; decide) hm).mpr
    hnone
  exact ⟨k, p', g', hr, hm, (hrest 0x40002007 (.inr (by decide))).1⟩

/-- A shared page, and a private mapping right after it with a byte stored
in its first page: unmapping the shared page takes the private one away,
and the byte with it. -/
theorem munmap_takes_next_page : ∃ k,
    Runs (fun _ _ _ => True) bootKernel k ∧ ∃ p' g' p₁ g₁ p₂ g₂,
      sysMunmap (k.proc 1) k.glob 0x40000000 4096 = .ok (0, p', g')
      ∧ ((k.proc 1).pagetable.entry (0x40001000 / pgSize)).isSome = true
      ∧ p'.pagetable.entry (0x40001000 / pgSize) = none
      ∧ userLoad (k.proc 1) k.glob 0x40001000 = .ok (some 99, p₁, g₁)
      ∧ userLoad p' g' 0x40001000 = .ok (some 2, p₂, g₂) :=
  have hr := ((Runs.step .refl 1 (.mmap 0 4096 3 1 0 0) (by decide) rfl trivial
    rfl).step 1 (.mmap 0 4096 3 2 0 0) (by decide) rfl trivial rfl).step 1
    (.store 0x40001000 99) (by decide) rfl trivial rfl
  ⟨_, hr, _, _, _, _, _, _, rfl, rfl, rfl, rfl, rfl⟩

end Xv6Labs.Model
