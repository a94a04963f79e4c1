/-
The layout of a process's mappings.

`Layout p`: the bump pointer is a page boundary in the mmap area, every
valid mapping is a nonempty page-aligned range below it that knows its own
length, and no two overlap. It fails for the negative lengths that sys_mmap
takes, and for the unaligned ranges that sys_munmap takes.
-/
import Xv6Labs.Proofs.FileRefs
import Xv6Labs.Proofs.Words

namespace Xv6Labs.Model

open Lib

variable {v : Vma} {p p' : Proc} {i : Nat} {len : Int} {g : Glob} {k : Kernel}
variable {addr cur r : Nat} {g' : Glob} {k' : Kernel} {op : Op}

-- == the invariant

/-- A mapping as sys_mmap means it to be. -/
structure VmaOk (cur : Nat) (v : Vma) : Prop where
  base : mmapBase ≤ v.start
  lt : v.start < v.stop
  le_cur : v.stop ≤ cur
  start_mod : v.start % pgSize = 0
  stop_mod : v.stop % pgSize = 0
  len : v.len = (v.stop : Int) - v.start

/-- The mappings of a process, as a whole. -/
structure Layout (p : Proc) : Prop where
  cur_base : mmapBase ≤ p.curVmaStart
  cur_top : p.curVmaStart < mmapTop
  cur_mod : p.curVmaStart % pgSize = 0
  ok : ∀ i, i < nvma → (p.vma i).valid = true → VmaOk p.curVmaStart (p.vma i)
  disjoint : ∀ i j, i < nvma → j < nvma → i ≠ j →
    (p.vma i).valid = true → (p.vma j).valid = true →
    (p.vma i).stop ≤ (p.vma j).start ∨ (p.vma j).stop ≤ (p.vma i).start

instance (cur : Nat) (v : Vma) : Decidable (VmaOk cur v) :=
  decidable_of_iff (mmapBase ≤ v.start ∧ v.start < v.stop ∧ v.stop ≤ cur
      ∧ v.start % pgSize = 0 ∧ v.stop % pgSize = 0
      ∧ v.len = (v.stop : Int) - v.start)
    ⟨fun ⟨hb, hlt, hc, hs, he, hl⟩ => ⟨hb, hlt, hc, hs, he, hl⟩,
      fun ⟨hb, hlt, hc, hs, he, hl⟩ => ⟨hb, hlt, hc, hs, he, hl⟩⟩

instance (p : Proc) : Decidable (Layout p) :=
  decidable_of_iff (mmapBase ≤ p.curVmaStart ∧ p.curVmaStart < mmapTop
      ∧ p.curVmaStart % pgSize = 0
      ∧ (∀ i, i < nvma → (p.vma i).valid = true → VmaOk p.curVmaStart (p.vma i))
      ∧ ∀ i, i < nvma → ∀ j, j < nvma →
        i ≠ j ∧ (p.vma i).valid = true ∧ (p.vma j).valid = true →
        (p.vma i).stop ≤ (p.vma j).start ∨ (p.vma j).stop ≤ (p.vma i).start)
    ⟨fun ⟨hb, ht, hm, hok, hd⟩ => ⟨hb, ht, hm, hok,
        fun i j hi hj hij hvi hvj => hd i hi j hj ⟨hij, hvi, hvj⟩⟩,
      fun ⟨hb, ht, hm, hok, hd⟩ => ⟨hb, ht, hm, hok,
        fun i hi j hj ⟨hij, hvi, hvj⟩ => hd i j hi hj hij hvi hvj⟩⟩

theorem VmaOk.mono {cur' : Nat} (h : VmaOk cur v) (hle : cur ≤ cur') : VmaOk cur' v :=
  { h with le_cur := h.le_cur.trans hle }

theorem Layout.congr (h : Layout p) (hv : p'.vma = p.vma)
    (hc : p'.curVmaStart = p.curVmaStart) : Layout p' := by
  refine ⟨hc ▸ h.cur_base, hc ▸ h.cur_top, hc ▸ h.cur_mod, ?_, ?_⟩
  · rw [hc, hv]
    exact h.ok
  · rw [hv]
    exact h.disjoint

/-- A process without mappings. -/
theorem layout_empty (hbase : mmapBase ≤ p.curVmaStart)
    (htop : p.curVmaStart < mmapTop) (hmod : p.curVmaStart % pgSize = 0)
    (hv : ∀ i, i < nvma → (p.vma i).valid = false) : Layout p := by
  refine ⟨hbase, htop, hmod, ?_, ?_⟩
  · intro i hi h
    rw [hv i hi] at h
    cases h
  · intro i j hi _ _ h
    rw [hv i hi] at h
    cases h

/-- A process as allocproc makes it. -/
theorem layout_fresh (hc : p.curVmaStart = mmapBase)
    (hv : ∀ i, i < nvma → (p.vma i).valid = false) : Layout p :=
  layout_empty (by omega) (by rw [hc]; decide) (by rw [hc]; decide) hv

/-- Slot `i` gets a mapping beside the others, or none, and the bump
pointer moves up. -/
theorem Layout.update {c : Nat} (h : Layout p) (hle : p.curVmaStart ≤ c) (htop : c < mmapTop)
    (hmod : c % pgSize = 0) (hok : v.valid = true → VmaOk c v)
    (hd : v.valid = true → ∀ a, a < nvma → a ≠ i → (p.vma a).valid = true →
      (p.vma a).stop ≤ v.start ∨ v.stop ≤ (p.vma a).start) :
    Layout { p.setVma i v with curVmaStart := c } := by
  refine ⟨h.cur_base.trans hle, htop, hmod, ?_, ?_⟩
  · intro a ha hva
    simp only [Proc.setVma] at hva ⊢
    split at hva
    · next hai =>
      simp only [if_pos hai]
      exact hok hva
    · next hai =>
      simp only [if_neg hai]
      exact (h.ok a ha hva).mono hle
  intro a b ha hb hab hva hvb
  simp only [Proc.setVma] at hva hvb ⊢
  split at hva <;> split at hvb
  · next hai hbi => exact absurd (hai.trans hbi.symm) hab
  · next hai hbi =>
    simp only [if_pos hai, if_neg hbi]
    exact (hd hva b hb hbi hvb).symm
  · next hai hbi =>
    simp only [if_pos hbi, if_neg hai]
    exact hd hvb a ha hai hva
  · next hai hbi =>
    simp only [if_neg hai, if_neg hbi]
    exact h.disjoint a b ha hb hab hva hvb

/-- A mapping may be replaced by a part of it, or dropped. -/
theorem Layout.setVma (h : Layout p) (hi : i < nvma) (hvi : (p.vma i).valid = true)
    (hv : v.valid = true → VmaOk p.curVmaStart v
      ∧ (p.vma i).start ≤ v.start ∧ v.stop ≤ (p.vma i).stop) :
    Layout (p.setVma i v) := by
  refine h.update (Nat.le_refl _) h.cur_top h.cur_mod (fun hval => (hv hval).1) ?_
  -- the new range lies in the old one, so the old order still holds
  intro hval a ha hai hva
  have hsub := hv hval
  have := h.disjoint a i ha hi hai hva hvi
  omega

-- == sys_mmap

/-- What a sys_mmap must be for the layout to survive it: the length is
not negative, or the call is refused. -/
def MmapFits (p : Proc) (len : Int) (offset : Nat) : Prop :=
  0 ≤ len ∨ offset % pgSize ≠ 0 ∨ mmapTop ≤ mmapEnd p len ∨ freeSlot p = none

theorem mmapEnd_eq (hcur : p.curVmaStart < mmapTop) (hpos : 0 ≤ len) (hlen : len < 2 ^ 31) :
    mmapEnd p len = (p.curVmaStart + len.toNat + 4095) / 4096 * 4096 := by
  unfold mmapTop at hcur
  have hsum : u64 (p.curVmaStart + len) = p.curVmaStart + len.toNat :=
    u64_of_lt (by omega) (by omega)
  unfold mmapEnd
  rw [hsum, pgRoundUp_eq (by omega)]

theorem mmapEnd_of_pos (hcur : p.curVmaStart < mmapTop) (hpos : 0 < len) (hlen : len < 2 ^ 31) :
    p.curVmaStart < mmapEnd p len ∧ mmapEnd p len % pgSize = 0 := by
  rw [mmapEnd_eq hcur hpos.le hlen]
  unfold pgSize
  omega

theorem newVma_ok (h : Layout p) (prot flags : UInt32) (fd : Int)
    (f : Option Nat) (hlt : p.curVmaStart < mmapEnd p len)
    (hmod : mmapEnd p len % pgSize = 0) (htop : mmapEnd p len < mmapTop) :
    VmaOk (mmapEnd p len) (newVma p len prot flags fd f) := by
  refine ⟨h.cur_base, hlt, Nat.le_refl _, h.cur_mod, hmod, ?_⟩
  have := h.cur_base
  unfold mmapBase mmapTop at *
  exact i32_of_lt (by omega) (by omega)

theorem sysMmap_layout {offset : Nat} {fd : Int}
    {prot flags : UInt32} (h : Layout p) (hlen : len < 2 ^ 31) (hfits : MmapFits p len offset)
    (hs : sysMmap p g addr len prot flags fd offset = .ok (r, p', g')) : Layout p' := by
  rcases sysMmap_cases hs with
    ⟨rfl, _⟩ | ⟨f, i, h0, hoff, _, _, htop, hfree, _, _, rfl⟩
  · exact h
  have hpos : 0 < len := by
    rcases hfits with hge | hne | hge | hnone
    · omega
    · exact absurd hoff hne
    · omega
    · rw [hnone] at hfree
      cases hfree
  obtain ⟨hlt, hmod⟩ := mmapEnd_of_pos h.cur_top hpos hlen
  have hnew := newVma_ok h prot flags fd f hlt hmod htop
  -- the old mappings end at or before the start of the new one
  exact h.update hlt.le htop hmod (fun _ => hnew) fun _ a ha _ hva => .inl (h.ok a ha hva).le_cur

-- == sys_munmap

/-- A cut at the front or at the back of a mapping is at a page boundary,
and its two ends stand in order. -/
def Vma.CutOk (v : Vma) (lo hi : Nat) : Prop :=
  (v.start = lo → hi < v.stop → lo < hi ∧ hi % pgSize = 0)
    ∧ (v.stop = hi → v.start < lo → lo < hi ∧ lo % pgSize = 0)

instance (v : Vma) (lo hi : Nat) : Decidable (v.CutOk lo hi) := inferInstanceAs (Decidable (_ ∧ _))

/-- What a sys_munmap must be for the layout to survive it: it cuts the
mapping it finds, if any, at page boundaries. -/
def MunmapCuts (p : Proc) (addr : Nat) (len : Int) : Prop :=
  ∀ i, vmaHolding p addr (u64 (addr + len)) = some i → (p.vma i).CutOk addr (u64 (addr + len))

/-- Only the range of a mapping is cut. -/
theorem shrink_same (v : Vma) (lo hi : Nat) :
    (shrink v lo hi).flags = v.flags ∧ (shrink v lo hi).file = v.file
      ∧ (shrink v lo hi).prot = v.prot := by
  unfold shrink
  split
  · exact ⟨rfl, rfl, rfl⟩
  · split
    · exact ⟨rfl, rfl, rfl⟩
    · split <;> exact ⟨rfl, rfl, rfl⟩

theorem shrink_ok {lo hi : Nat} (h : VmaOk cur v) (hcur : cur < mmapTop)
    (hcut : v.CutOk lo hi) (hv : (shrink v lo hi).valid = true) :
    VmaOk cur (shrink v lo hi) ∧ v.start ≤ (shrink v lo hi).start
      ∧ (shrink v lo hi).stop ≤ v.stop := by
  obtain ⟨hbase, hlt, hle, hsm, hem, hl⟩ := h
  obtain ⟨hfront, hback⟩ := hcut
  unfold mmapTop at hcur
  simp only [shrink] at hv ⊢
  split
  · next hwhole =>
    rw [if_pos hwhole] at hv
    cases hv
  split
  · next hf =>
    obtain ⟨hord, hmod⟩ := hfront hf.1 hf.2
    refine ⟨⟨?_, hf.2, hle, hmod, hem, ?_⟩, ?_, Nat.le_refl _⟩
    · dsimp only
      omega
    · exact i32_of_lt (by omega) (by omega)
    · dsimp only
      omega
  · split
    · next hb =>
      obtain ⟨hord, hmod⟩ := hback hb.1 hb.2
      refine ⟨⟨hbase, hb.2, ?_, hsm, hmod, ?_⟩, Nat.le_refl _, ?_⟩
      · dsimp only
        omega
      · exact i32_of_lt (by omega) (by omega)
      · dsimp only
        omega
    · exact ⟨⟨hbase, hlt, hle, hsm, hem, hl⟩, Nat.le_refl _, Nat.le_refl _⟩

theorem sysMunmap_layout (h : Layout p) (hcuts : MunmapCuts p addr len)
    (hs : sysMunmap p g addr len = .ok (r, p', g')) : Layout p' := by
  rcases sysMunmap_cases hs with
    ⟨rfl, _⟩ | ⟨i, p1, _, _, _, hhold, _, hloop, _, rfl⟩
  · exact h
  obtain ⟨⟨pt, hp1⟩, _⟩ := munmapPages_frame hloop
  subst hp1
  obtain ⟨hi, hv, _, _⟩ := vmaHolding_some hhold
  have h' : Layout { p with pagetable := pt } := h.congr rfl rfl
  refine h'.setVma hi hv fun hvalid => ?_
  exact shrink_ok (h.ok i hi hv) h.cur_top (hcuts i hhold) hvalid

-- == the rest

theorem copied_layout {np : Proc} (h : Layout p) (hnew : ∀ j, (np.vma j).valid = false)
    (hc : np.curVmaStart = p.curVmaStart) : Layout (copied p np nvma) := by
  -- a valid slot of the child is the copy of a valid slot of the parent
  have hslot : ∀ j, ((copied p np nvma).vma j).valid = true →
      ∃ s, (validSlots p nvma)[j]? = some s ∧ s < nvma ∧ (p.vma s).valid = true
        ∧ (copied p np nvma).vma j = (p.vma s).copyTo (np.vma j) := by
    intro j hj
    rw [copied_valid hnew, decide_eq_true_eq] at hj
    have hmem := mem_validSlots.mp (List.getElem_mem hj)
    refine ⟨_, List.getElem?_eq_getElem hj, hmem.1, hmem.2, ?_⟩
    simp only [copied, List.getElem?_eq_getElem hj]
  refine ⟨?_, ?_, ?_, ?_, ?_⟩
  · exact hc ▸ h.cur_base
  · exact hc ▸ h.cur_top
  · exact hc ▸ h.cur_mod
  · intro j _ hj
    obtain ⟨s, _, hs, hvs, heq⟩ := hslot j hj
    obtain ⟨h1, h2, h3, h4, h5, h6⟩ := h.ok s hs hvs
    rw [heq]
    exact ⟨h1, h2, hc ▸ h3, h4, h5, h6⟩
  · intro a b _ _ hab ha hb
    obtain ⟨s, hsa, hs, hvs, hseq⟩ := hslot a ha
    obtain ⟨t, htb, ht, hvt, hteq⟩ := hslot b hb
    have hst : s ≠ t := by
      rintro rfl
      exact hab ((List.getElem?_inj (List.getElem?_eq_some_iff.mp hsa).1
        (validSlots_nodup p nvma)).mp (hsa.trans htb.symm))
    rw [hseq, hteq]
    exact h.disjoint s t hs ht hst hvs hvt

/-- Every process in the table that is in use has its layout. -/
def LaidOut (k : Kernel) : Prop := ∀ i, (k.proc i).state ≠ .unused → Layout (k.proc i)

/-- The mappings of process `j` after the call `op` of process `i`. -/
inductive Remapped (k : Kernel) (i j : Nat) : Op → Proc → Prop where
  | kept {op : Op} {p : Proc} (hv : p.vma = (k.proc j).vma)
      (hc : p.curVmaStart = (k.proc j).curVmaStart)
      (hu : p.state ≠ .unused → (k.proc j).state ≠ .unused) :
      Remapped k i j op p
  | free {op : Op} {p : Proc} (h : p.state = .unused) : Remapped k i j op p
  | mmap {addr offset : UInt64} {len fd : Int32} {prot flags : UInt32}
      {r : Nat} {p : Proc} {g : Glob} (hj : j = i)
      (h : sysMmap (k.proc i) k.glob addr.toNat len.toInt prot flags fd.toInt
        offset.toNat = .ok (r, p, g)) :
      Remapped k i j (.mmap addr len prot flags fd offset) p
  | munmap {addr : UInt64} {len : Int32} {r : Nat} {p : Proc} {g : Glob}
      (hj : j = i)
      (h : sysMunmap (k.proc i) k.glob addr.toNat len.toInt = .ok (r, p, g)) :
      Remapped k i j (.munmap addr len) p
  | forked {p np : Proc} (hnew : ∀ s, (np.vma s).valid = false)
      (hoff : ∀ s, (np.vma s).offset = 0)
      (hc : p.curVmaStart = (k.proc i).curVmaStart)
      (hv : p.vma = (copied (k.proc i) np nvma).vma) : Remapped k i j .fork p
  | dropped {status : Int32} {p : Proc}
      (hc : p.curVmaStart = (k.proc i).curVmaStart)
      (hv : ∀ s, s < nvma → (p.vma s).valid = false) :
      Remapped k i j (.exit status) p

theorem step_remapped (j : Nat)
    (hl : (k.proc i).isLive = true) (hstep : step k i op = .ok k') :
    Remapped k i j op (k'.proc j) := by
  have hput : ∀ {op : Op} (s : Proc × Glob), (j = i → Remapped k i j op s.1) →
      Remapped k i j op ((k.put i s).proc j) := by
    intro op s hself
    by_cases hj : j = i
    · subst hj
      rw [Kernel.put_self]
      exact hself rfl
    · rw [Kernel.put_of_ne k _ hj]
      exact .kept rfl rfl id
  -- a call that leaves the mappings of its process alone
  have hsame : ∀ {op : Op} (p : Proc) (g : Glob), p.vma = (k.proc i).vma →
      p.curVmaStart = (k.proc i).curVmaStart → Remapped k i j op ((k.put i (p, g)).proc j) := by
    intro op p g hv hc
    refine hput (p, g) fun hj => ?_
    subst hj
    exact .kept hv hc fun _ => used_of_live hl
  have htable : ∀ {op : Op} p g, OnlyTable (k.proc i) p →
      Remapped k i j op ((k.put i (p, g)).proc j) := by
    rintro op _ g ⟨pt, rfl⟩
    exact hsame _ g rfl rfl
  have hfds : ∀ {op : Op} p g, OnlyFds (k.proc i) p →
      Remapped k i j op ((k.put i (p, g)).proc j) := by
    rintro op _ g ⟨pt, o, rfl⟩
    exact hsame _ g rfl rfl
  cases step_did hstep with
  | mmap hs => exact hput _ fun hj => .mmap hj hs
  | munmap hs => exact hput _ fun hj => .munmap hj hs
  | @fork o _ hs =>
    cases o with
    | some c =>
      obtain ⟨_, _, tf, _, _, _, pt, ph, ⟨np, g⟩, _, _, _, hrest, rfl⟩ := kfork_some hs
      have hnew : ∀ s, (((k.proc c).allocated k.nextpid tf pt).vma s).valid = false := fun _ => rfl
      obtain ⟨ofile, rfl⟩ := forkRest_frame hnew hrest
      by_cases hj : j = c
      · rw [hj, Kernel.put_self]
        exact .forked hnew (fun _ => rfl) rfl rfl
      · rw [Kernel.put_of_ne _ _ hj]
        exact .kept rfl rfl id
    | none =>
      rcases kfork_none hs with rfl | ⟨c, _, _, tf, pt, ph, rfl⟩
      · exact .kept rfl rfl id
      by_cases hj : j = c
      · rw [hj, Kernel.put_self]
        exact .free rfl
      · rw [Kernel.put_of_ne _ _ hj]
        exact .kept rfl rfl id
  | exit hs =>
    obtain ⟨_, ⟨p, g⟩, hself, rfl⟩ := kexit_ok hs
    obtain ⟨pt, rfl⟩ := exitSelf_frame hself
    obtain ⟨parent, heq⟩ := reparent_proc k i j
    by_cases hj : j = i
    · subst hj
      rw [Kernel.put_self, heq]
      exact .dropped rfl fun s hs => by simp only [Proc.dropMaps, if_pos hs]
    · rw [Kernel.put_of_ne _ _ hj, heq]
      exact .kept rfl rfl id
  | wait hs =>
    rcases kwait_cases hs with rfl | ⟨c, p, g, _, hout, hk'⟩
    · exact .kept rfl rfl id
    have hpt := hout.frame.1
    rcases hk' with rfl | ⟨q, ph, hfree, rfl⟩
    · exact htable p g hpt
    by_cases hj : j = c
    · rw [hj, Kernel.put_self]
      exact .free (by rw [freeproc_freed hfree]; rfl)
    · rw [Kernel.put_of_ne _ _ hj]
      exact htable p g hpt
  | fault hs => exact htable _ _ (vmfault_frame _ hs).1
  | store hs => exact htable _ _ (userStore_frame _ hs).1
  | sbrk hs =>
    obtain ⟨⟨pt, sz, rfl⟩, _⟩ := sysSbrk_frame _ hs
    exact hsame _ _ rfl rfl
  | exec hs =>
    obtain ⟨⟨regs, name, pt, sz, rfl⟩, _⟩ := kexec_frame _ hs
    exact hsame _ _ rfl rfl
  | openFile hs => exact hfds _ _ (sysOpen_balanced hs).1
  | close hs => exact hfds _ _ (sysClose_balanced hs).1
  | dup hs => exact hfds _ _ (sysDup_balanced hs).1
  | pipe hs => exact hfds _ _ (sysPipe_balanced hs).1
  | unlink hs =>
    obtain ⟨rfl, _⟩ := sysUnlink_covers (fun _ => Int.le_refl _) hs
    exact hsame _ _ rfl rfl

theorem LaidOut.put_table (h : LaidOut k)
    (hu : (k.proc i).state ≠ .unused) (hp : OnlyTable (k.proc i) p) : LaidOut (k.put i (p, g)) := by
  intro j hj
  by_cases hji : j = i
  · subst hji
    obtain ⟨pt, rfl⟩ := hp
    rw [Kernel.put_self]
    exact (h j hu).congr rfl rfl
  · rw [Kernel.put_of_ne k _ hji] at hj ⊢
    exact h j hj

/-- The condition on a step: sys_mmap fits, sys_munmap cuts at page
boundaries; nothing is asked of any other call. -/
def KeepsLayout (k : Kernel) (i : Nat) : Op → Prop
  | .mmap _ len _ _ _ offset => MmapFits (k.proc i) len.toInt offset.toNat
  | .munmap addr len => MunmapCuts (k.proc i) addr.toNat len.toInt
  | _ => True

theorem int32_lt (n : Int32) : n.toInt < 2 ^ 31 := by
  have := Int32.toInt_lt n
  omega

theorem step_layout (h : LaidOut k)
    (hl : (k.proc i).isLive = true) (hc : KeepsLayout k i op)
    (hstep : step k i op = .ok k') : LaidOut k' := by
  intro j hj
  have hp := h i (used_of_live hl)
  cases step_remapped j hl hstep with
  | kept hv hc hu => exact (h j (hu hj)).congr hv hc
  | free hst => exact absurd hst hj
  | mmap _ hs => exact sysMmap_layout hp (int32_lt _) hc hs
  | munmap _ hs => exact sysMunmap_layout hp hc hs
  | @forked _ np hnew _ hc hv =>
    have hcopy : Layout (copied (k.proc i)
        { np with curVmaStart := (k.proc i).curVmaStart } nvma) :=
      copied_layout hp hnew rfl
    exact hcopy.congr hv hc
  | dropped hc hv =>
    exact layout_empty (hc ▸ hp.cur_base) (hc ▸ hp.cur_top) (hc ▸ hp.cur_mod) hv

-- == over runs

/-- Every process in use is as allocproc made it: no mapping, and the
bump pointer at the start of the area. -/
def FreshMaps (k : Kernel) : Prop :=
  ∀ i, (k.proc i).state ≠ .unused → (k.proc i).curVmaStart = mmapBase
    ∧ ∀ j, j < nvma → ((k.proc i).vma j).valid = false

/-- From fresh processes, every run whose sys_mmaps fit and whose
sys_munmaps cut at page boundaries keeps the layout of every process. -/
theorem layout_of_runs {k₀ k : Kernel} (h0 : FreshMaps k₀)
    (hr : Runs KeepsLayout k₀ k) {i : Nat}
    (hi : (k.proc i).state ≠ .unused) : Layout (k.proc i) := by
  have hstart : LaidOut k₀ := fun j hj => layout_fresh (h0 j hj).1 (h0 j hj).2
  exact hr.inv LaidOut hstart
    (fun _ _ _ _ _ hl hc h hs => step_layout h hl hc hs) i hi

theorem boot_fresh : FreshMaps bootKernel := by
  intro i hi
  match i with
  | 0 => exact ⟨rfl, fun _ _ => rfl⟩
  | 1 => exact ⟨rfl, fun _ _ => rfl⟩
  | i + 2 => exact absurd rfl hi

set_option maxRecDepth 10000

/-- Three pages are mapped, the last one is unmapped and the process
forks: parent and child are laid out. -/
theorem layout_of_runs_boot :
    ∃ k, Runs KeepsLayout bootKernel k
      ∧ ((k.proc 2).vma 0).stop = 0x40002000
      ∧ Layout (k.proc 1) ∧ Layout (k.proc 2) :=
  have hr := (((Runs.step .refl 1 (.mmap 0 12288 3 2 0 0) (by decide) rfl
    (.inl (by decide)) rfl).step 1 (.munmap 0x40002000 4096) (by decide) rfl
    (fun i hi => Option.some.inj hi ▸ by decide) rfl).step 1 .fork (by decide) rfl trivial
    rfl)
  ⟨_, hr, rfl, layout_of_runs boot_fresh hr (by decide),
    layout_of_runs boot_fresh hr (by decide)⟩

/-- A length of -1 makes a valid mapping that is empty, and one of -4096
a valid mapping that ends before it starts. -/
theorem mmap_negative_len :
    (∃ k, runAs bootKernel 1 [.mmap 0 (-1) 3 2 0 0] = .ok k
      ∧ ((k.proc 1).vma 0).valid = true
      ∧ ((k.proc 1).vma 0).start = ((k.proc 1).vma 0).stop)
    ∧ ∃ k, runAs bootKernel 1 [.mmap 0 4096 3 2 0 0, .mmap 0 (-4096) 3 2 0 0]
        = .ok k
      ∧ ((k.proc 1).vma 1).valid = true
      ∧ ((k.proc 1).vma 1).stop < ((k.proc 1).vma 1).start :=
  ⟨⟨_, rfl, rfl, rfl⟩, _, rfl, rfl, by decide⟩

end Xv6Labs.Model
