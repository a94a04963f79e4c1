/-
The free list over whole runs, and the heap fault that draws on it.

A page on the free list was there at the start or is a page of RAM
(`Phys.Keeps`). sbrk may grow a process past MMAPBASE and MAXVA, where a
fault cannot supply the heap (`heap_fault_supplies_iff`).
-/
import Xv6Labs.Proofs.Handled

namespace Xv6Labs.Model

open Lib

variable {p : Proc} {g : Glob} {k : Kernel} {f i n : Nat}
  {path : Option (List UInt8)}

variable {ph : Phys} {fd len : Int} {addr r : Nat} {pt : PageTable}
  {perm : Perm}

/-- The call keeps the free list honest. -/
def Frugal (g : Glob) {α : Type} (r : α × Proc × Glob) : Prop := g.phys.Keeps r.2.2.phys

-- == files

theorem iput_phys (g : Glob) (i : Nat) : (iput g i).phys = g.phys := by
  obtain ⟨disk, valid, heq⟩ := iput_slot g i
  rw [heq]
  rfl

theorem iput_keeps (g : Glob) (i : Nat) : g.phys.Keeps (iput g i).phys := iput_phys g i ▸ .refl _

theorem filedup_keeps : Ensures (filedup g f) fun g' => g.phys.Keeps g'.phys :=
  .branch .error (.ok (.refl _))

theorem fileclose_keeps : Ensures (fileclose g f) fun g' => g.phys.Keeps g'.phys := by
  have hput : ∀ fl ip, g.phys.Keeps (iput (g.setFile f fl) ip).phys :=
    fun fl ip => iput_keeps (g.setFile f fl) ip
  refine .branch .error (.branch (.ok (.refl _)) ?_)
  split
  · exact .branch (kfree_keeps.bind fun _ h => .ok h) (.ok (.refl _))
  · exact .ok (hput _ _)
  · exact .ok (hput _ _)
  · exact .error
  · exact .error
  · exact .ok (.refl _)

theorem filealloc_phys {g' : Glob} (h : filealloc g = some (f, g')) : g'.phys = g.phys := by
  obtain ⟨_, _, rfl⟩ := filealloc_some h
  rfl

theorem pipealloc_keeps : Ensures (pipealloc g) fun r => g.phys.Keeps r.2.phys := by
  unfold pipealloc
  split
  · exact .ok (.refl _)
  · next f0 g1 h1 =>
    rw [← filealloc_phys h1]
    split
    · exact fileclose_keeps.bind fun _ h => .ok h
    · next f1 g2 h2 =>
      rw [← filealloc_phys h2]
      split
      · next ha =>
        exact fileclose_keeps.bind fun _ h3 => fileclose_keeps.bind
          fun _ h4 => .ok ((kalloc_keeps ha).trans (h3.trans h4))
      · next ha => exact .ok (kalloc_keeps ha)

theorem sysOpen_keeps {omode : UInt32} {room : Nat} :
    Ensures (sysOpen p g path omode room) (Frugal g) := by
  have hopen : ∀ {path : List UInt8} {room : Nat} {o : Option Nat}
      {g1 : Glob}, openInode g p.cwd path omode room = .ok (o, g1) →
      g.phys.Keeps g1.phys := fun h =>
    ((files_tracks p.cwd g).openInode (e := []) ⟨rfl, .refl _⟩ _ h).2
  rintro ⟨r, p', g'⟩ h
  cases sysOpen_opened h with
  | refused => exact .refl _
  | missing ho => exact hopen ho
  | unopened ho => exact (hopen ho).trans (iput_keeps _ _)
  | full ho ha hc =>
    rw [Frugal, iput_phys]
    exact (filealloc_phys ha ▸ hopen ho).trans (fileclose_keeps _ hc)
  | opened ho ha _ hg =>
    have hg2 := filealloc_phys ha ▸ hopen ho
    rcases hg with rfl | rfl
    · exact hg2
    · exact hg2

theorem sysClose_keeps : Ensures (sysClose p g fd) (Frugal g) := by
  unfold sysClose
  split
  · exact .ok (.refl _)
  · exact fileclose_keeps.bind fun _ h => .ok h

theorem sysDup_keeps : Ensures (sysDup p g fd) (Frugal g) := by
  unfold sysDup
  split
  · exact .ok (.refl _)
  · split
    · exact .ok (.refl _)
    · exact filedup_keeps.bind fun _ h => .ok h

theorem sysPipe_keeps {fdarray : Nat} : Ensures (sysPipe p g fdarray) (Frugal g) := by
  rintro ⟨r, p', g'⟩ h
  cases sysPipe_piped h with
  | refused ha => exact pipealloc_keeps _ ha
  | undone ha hq hr hw =>
    exact ((pipealloc_keeps _ ha).trans hq.keeps).trans
      ((fileclose_keeps _ hr).trans (fileclose_keeps _ hw))
  | made ha _ _ hq => exact (pipealloc_keeps _ ha).trans hq.keeps

-- == mappings

theorem sysMunmap_keeps : Ensures (sysMunmap p g addr len) (Frugal g) := by
  rintro ⟨r, p', g'⟩ h
  rcases sysMunmap_cases h with
    ⟨_, rfl, _⟩ | ⟨i, p1, g1, g2, _, _, hw, hu, hc, _⟩
  · exact .refl _
  have h1 := (writeBack_covers (fun _ => Int.le_refl _) hw).2.phys
  have h2 := (munmapPages_frame hu).2.keeps
  rw [h1] at h2
  rcases closeWhole_cases hc with ⟨_, rfl⟩ | ⟨_, f, _, hc⟩
  · exact h2
  · exact h2.trans (fileclose_keeps _ hc)

theorem sysMmap_keeps {offset : Nat}
    {prot flags : UInt32} : Ensures (sysMmap p g addr len prot flags fd offset) (Frugal g) := by
  rintro ⟨r, p', g'⟩ h
  rcases sysMmap_cases h with ⟨_, rfl, _⟩ | ⟨o, i, _, _, _, _, _, _, hd, _⟩
  · exact .refl _
  cases o with
  | none =>
    cases hd
    exact .refl _
  | some f => exact filedup_keeps _ hd

-- == processes

theorem allocproc_keeps : Ensures (allocproc k) fun r => k.glob.phys.Keeps r.2.glob.phys := by
  unfold allocproc
  split
  · exact .ok (.refl _)
  dsimp only
  split
  · next ha =>
    exact freeproc_keeps.bind fun _ h => .ok ((kalloc_keeps ha).trans h)
  · next ha =>
    refine procPagetable_keeps.bind ?_
    rintro ⟨o, ph⟩ h1
    have h1 := (kalloc_keeps ha).trans h1
    cases o with
    | none => exact freeproc_keeps.bind fun _ h => .ok (h1.trans h)
    | some pt => exact .ok h1

/-- What kfork frees are pages that kfree takes. -/
theorem kfork_keeps : Ensures (kfork k i) fun r => k.glob.phys.Keeps r.2.glob.phys := by
  refine allocproc_keeps.bind ?_
  rintro ⟨o, k1⟩ h1
  cases o with
  | none => exact .ok h1
  | some j =>
    refine uvmcopy_keeps.bind ?_
    rintro ⟨ok, pt, ph⟩ h2
    have h2 := h1.trans h2
    refine .branch ?_ (freeproc_keeps.bind fun _ h => .ok (h2.trans h))
    refine Ensures.bind ?_ fun _ h => .ok h
    rintro ⟨np, g3⟩ h
    obtain ⟨c, g4, _, hg, rfl⟩ := forkRest_inv (fun g => k.glob.phys.Keeps g.phys) h2
      (fun _ _ _ hP hd => hP.trans (filedup_keeps _ hd)) h
    exact hg

theorem kexit_keeps {status : Int} :
    Ensures (kexit k i status) fun k' => k.glob.phys.Keeps k'.glob.phys := by
  intro k' h
  obtain ⟨_, ⟨p', g'⟩, hs, rfl⟩ := kexit_ok h
  obtain ⟨⟨p1, g1⟩, h1, hs⟩ := bind_ok hs
  have hfd := exitFds_inv (fun g => k.glob.phys.Keeps g.phys) (.refl _)
    (fun _ _ _ hP hc => hP.trans (fileclose_keeps _ hc)) h1
  dsimp only at hs
  split at hs
  · cases hs
  · next c _ =>
    obtain ⟨⟨p2, g2⟩, h2, hs⟩ := bind_ok hs
    cases hs
    exact (hfd.trans (iput_keeps _ c)).trans (exitVmas_frame h2).2.keeps

theorem kwait_keeps : Ensures (kwait k i addr) fun r => k.glob.phys.Keeps r.2.glob.phys := by
  rintro ⟨o, k'⟩ h
  rcases kwait_cases h with
    rfl | ⟨j, p1, g1, _, hout, rfl | ⟨q, ph, hf, rfl⟩⟩
  · exact .refl _
  · exact hout.frame.2.keeps
  · exact hout.frame.2.keeps.trans (freeproc_keeps _ hf)

-- == runs

/-- The same of every step. -/
theorem step_keeps {op : Op} : Ensures (step k i op) fun k' => k.glob.phys.Keeps k'.glob.phys := by
  intro k' hs
  cases step_did hs with
  | mmap h => exact sysMmap_keeps _ h
  | munmap h => exact sysMunmap_keeps _ h
  | fault h => exact (vmfault_frame _ h).2.keeps
  | store h => exact (userStore_frame _ h).2.keeps
  | sbrk h =>
    obtain ⟨_, ph, hk, rfl⟩ := sysSbrk_frame _ h
    exact hk
  | fork h => exact kfork_keeps _ h
  | exec h => exact (kexec_frame _ h).2.2
  | exit h => exact kexit_keeps _ h
  | wait h => exact kwait_keeps _ h
  | openFile h => exact sysOpen_keeps _ h
  | close h => exact sysClose_keeps _ h
  | dup h => exact sysDup_keeps _ h
  | pipe h => exact sysPipe_keeps _ h
  | unlink h =>
    exact ((files_tracks _ k.glob).sysUnlink (e := []) rfl ⟨rfl, .refl _⟩ _ h).2.2

theorem Runs.keeps {C : Kernel → Nat → Op → Prop} {k0 : Kernel}
    (hr : Runs C k0 k) : k0.glob.phys.Keeps k.glob.phys :=
  hr.inv (fun k => k0.glob.phys.Keeps k.glob.phys) (.refl _)
    fun _ _ _ _ _ _ _ hP h => hP.trans (step_keeps _ h)

-- == the heap fault

/-- Bytes that were zero are zero. -/
def Phys.Clears (ph ph' : Phys) : Prop := ∀ a, ph.mem a = 0 → ph'.mem a = 0

theorem kalloc_zero_clears {ph' : Phys}
    (h : kalloc ph = (some r, ph')) : ph.Clears (ph'.zero r) := by
  intro a ha
  simp only [Phys.zero, memset]
  split
  · rfl
  · next hoff =>
    simp only [kalloc] at h
    split at h
    · cases h
    · cases h
      exact (memset_of_not_onPage hoff).trans ha

/-- A walk that allocates fills its new tables with zeros. -/
theorem walkAlloc_clears : Ensures (walkAlloc pt ph va) fun r => ph.Clears r.2.2 :=
  walkAlloc_phys (fun _ _ ha => ha) (fun h h' a ha => h' a (h a ha)) kalloc_zero_clears

theorem mappages_clears {pa : Nat} (hva : va < 2 ^ 64) (hmod : va % pgSize = 0) :
    Ensures (mappages pt ph va pgSize pa perm) fun r => ph.Clears r.2.2 := by
  rw [mappages_one hva hmod]
  refine walkAlloc_clears.bind ?_
  rintro ⟨o, pt1, ph1⟩ h
  cases o with
  | none => exact .ok h
  | some m => exact .branch .error (.ok h)

/-- A page of the heap that is taken and mapped is zero. -/
theorem heapPage_zero {pt' : PageTable} {ph0 : Phys}
    {ok : Bool} (hva : va < maxVa)
    (hmap : mappages pt (ph0.zero r) (pgRoundDown va) pgSize r perm
      = .ok (ok, pt', ph)) {j : Nat} (hj : j < pgSize) :
    ph.mem (r + j) = 0 := by
  have hround := (pgRoundDown_le va).trans_lt hva
  refine mappages_clears (lt_two_pow_of_maxVa hround) (pgRoundDown_mod va) _ hmap _ ?_
  exact if_pos ⟨by omega, by omega⟩

/-- A fault at `va` gives the process a zeroed page of its own there. -/
def HeapSupplied (p : Proc) (g : Glob) (va : Nat) (read : Bool) : Prop :=
  ∃ r p' g', vmfault p g va read = .ok (r, p', g') ∧ r ≠ 0
    ∧ p'.pagetable.entry (va / pgSize) = some ⟨r, heapPerm⟩
    ∧ ∀ j, j < pgSize → g'.phys.mem (r + j) = 0

variable {va : Nat} {read : Bool}

theorem heapSupplied_of_room (hout : ¬ p.InMmap va) (hva : va < maxVa)
    (hsz : va < p.sz) (hnone : p.pagetable.entry (va / pgSize) = none)
    (hmem : 3 ≤ g.phys.freelist.length) (hfree : 0 ∉ g.phys.freelist) :
    HeapSupplied p g va read := by
  have hround := (pgRoundDown_le va).trans_lt hva
  have hentry : p.pagetable.entry (pgRoundDown va / pgSize) = none := by
    rw [roundDown_div]
    exact hnone
  obtain ⟨mem, ph, halloc, hlen⟩ := kalloc_of_pos (show 0 < g.phys.freelist.length by omega)
  obtain ⟨pt', ph', hmap⟩ := mappages_total mem heapPerm hround
    (pgRoundDown_mod va) hentry (show 2 ≤ (ph.zero mem).freelist.length by
      show 2 ≤ ph.freelist.length
      omega)
  refine ⟨mem, { p with pagetable := pt' }, { g with phys := ph' }, ?_, ?_,
    ?_, fun _ hj => heapPage_zero hva hmap hj⟩
  · have hmap' := hmap
    unfold heapPerm at hmap'
    have hout' : ¬ (mmapBase ≤ va ∧ va ≤ p.curVmaStart) := hout
    simp only [vmfault, if_neg hout', if_neg (Nat.not_le.mpr hsz), ismapped,
      walkValid_entry hround, hentry, ok_bind, pure_eq, Option.isSome_none,
      Bool.false_eq_true, if_false, halloc, hmap', if_true]
  · rintro rfl
    exact hfree ((kalloc_some halloc).1 ▸ List.mem_cons_self)
  · obtain ⟨_, _, _, ⟨hf, _⟩ | ⟨_, _, hent⟩⟩ := mappages_entry (lt_two_pow_of_maxVa hround) hmap
    · cases hf
    · rw [hent, roundDown_div, if_pos rfl]

/-- In every state that a kernel with a sane free list reaches, a fault
on an untouched heap address outside the mappings supplies a page exactly
if vmfault does not take the address for one of the mapping area and walk
does not panic on it. -/
theorem heap_fault_supplies_iff {k₀ : Kernel}
    (hkend : 0 < k₀.glob.phys.kend)
    (hpages : ∀ r ∈ k₀.glob.phys.freelist, k₀.glob.phys.isPage r)
    (hr : Runs (fun _ _ _ => True) k₀ k) (hsz : va < (k.proc i).sz)
    (hnone : (k.proc i).pagetable.entry (va / pgSize) = none)
    (hvma : vmaAt (k.proc i) va = none)
    (hmem : 4 ≤ k.glob.phys.freelist.length) :
    HeapSupplied (k.proc i) k.glob va read
      ↔ ¬ (k.proc i).InMmap va ∧ va < maxVa := by
  refine ⟨fun ⟨r, p', g', hf, hr0, _⟩ => ?_, fun ⟨hout, hva⟩ => ?_⟩
  · refine ⟨fun hin => ?_, (vmfault_handled hf hr0).1⟩
    rw [vmfault_inMmap hin, lazyMmap_unmapped hvma] at hf
    cases hf
    exact hr0 rfl
  refine heapSupplied_of_room hout hva hsz hnone (by omega) fun h0 => ?_
  have hpage : k₀.glob.phys.isPage 0 :=
    (hr.keeps.free 0 h0).elim (hpages 0) id
  have := hpage.2.1
  omega

set_option maxRecDepth 10000

/-- A page of a heap that sbrklazy made, below MMAPBASE. -/
theorem heap_fault_supplies_boot : ∃ k,
    Runs (fun _ _ _ => True) bootKernel k
      ∧ HeapSupplied (k.proc 1) k.glob 4096 true := by
  have hr := Runs.step (C := fun _ _ _ => True) (.refl (a := bootKernel)) 1
    (.sbrk 8192 false) (by decide) rfl trivial rfl
  exact ⟨_, hr, (heap_fault_supplies_iff (by decide) (by decide) hr
    (by decide) rfl rfl (by decide)).mpr ⟨by decide, by decide⟩⟩

/-- A process that has never called mmap grows its heap past MMAPBASE by
sbrklazy. The page at MMAPBASE is in the heap and in no mapping, and 40
pages are free, but the fault on it returns 0. -/
theorem heap_fault_refused : ∃ k, Runs (fun _ _ _ => True) bootKernel k
    ∧ mmapBase < (k.proc 1).sz
    ∧ (k.proc 1).pagetable.entry (mmapBase / pgSize) = none
    ∧ vmaAt (k.proc 1) mmapBase = none
    ∧ 4 ≤ k.glob.phys.freelist.length
    ∧ (∀ read, ∃ p' g',
      vmfault (k.proc 1) k.glob mmapBase read = .ok (0, p', g')) := by
  have hr := Runs.step (C := fun _ _ _ => True) (.refl (a := bootKernel)) 1
    (.sbrk 0x40001000 false) (by decide) rfl trivial rfl
  exact ⟨_, hr, by decide, rfl, rfl, by decide, fun _ => ⟨_, _, rfl⟩⟩

end Xv6Labs.Model
