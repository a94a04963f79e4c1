/-
What kfork gives the child: after turn `n` of the copy loop the child's
slots are the parent's valid slots below `n`, in order, with every offset
replaced by the 0 that allocproc left (`forkVma_loop`, `fork_maps`).
-/
import Mathlib.Data.Multiset.Basic
import Xv6Labs.Model.Boot
import Xv6Labs.Proofs.Frames

namespace Xv6Labs.Model

open Lib

variable {i j n : Nat} {np np' p : Proc} {k k' : Kernel} {g g' : Glob}

-- == allocproc, inverted

@[simp] theorem Kernel.put_put (k : Kernel) (i : Nat) (s t : Proc × Glob) :
    (k.put i s).put i t = k.put i t := by
  simp only [Kernel.put, Kernel.setProc, Kernel.mk.injEq, true_and, and_true]
  funext j
  split <;> rfl

@[simp] theorem Kernel.put_glob (k : Kernel) (i : Nat) (s : Proc × Glob) :
    (k.put i s).glob = s.2 := rfl

@[simp] theorem Kernel.put_self (k : Kernel) (i : Nat) (s : Proc × Glob) :
    (k.put i s).proc i = s.1 := by
  simp [Kernel.put, Kernel.setProc]

theorem Kernel.put_of_ne (k : Kernel) (s : Proc × Glob) (h : j ≠ i) :
    (k.put i s).proc j = k.proc j := by
  simp [Kernel.put, Kernel.setProc, h]

theorem Kernel.put_same (k : Kernel) (i : Nat) : k.put i (k.proc i, k.glob) = k := by
  have hproc : (fun j => if j = i then k.proc i else k.proc j) = k.proc := by
    funext j
    split
    · next hj => rw [hj]
    · rfl
  show Kernel.mk k.glob (fun j => if j = i then k.proc i else k.proc j) k.nextpid k.initproc = k
  rw [hproc]

/-- The kernel with the next pid handed out. -/
def Kernel.tick (k : Kernel) : Kernel := { k with nextpid := k.nextpid + 1 }

/-- What freeproc leaves in the slot. -/
def Proc.freed (p : Proc) : Proc :=
  { p with
    trapframe := 0, pagetable := .empty 0, sz := 0, pid := 0, parent := none,
    name := [], killed := false, xstate := 0, state := .unused }

theorem freeproc_freed {p' : Proc} {ph ph' : Phys}
    (h : freeproc p ph = .ok (p', ph')) : p' = p.freed := by
  obtain ⟨ph1, _, h⟩ := bind_ok h
  obtain ⟨ph2, _, h⟩ := bind_ok h
  cases h
  rfl

/-- The process allocproc returns. -/
def Proc.allocated (p : Proc) (pid tf : Nat) (pt : PageTable) : Proc :=
  { p.fresh pid with trapframe := tf, pagetable := pt }

theorem allocproc_some (h : allocproc k = .ok (some j, k')) :
    j < nproc ∧ (k.proc j).state = .unused ∧ ∃ tf ph1 pt ph,
      kalloc k.glob.phys = (some tf, ph1) ∧ procPagetable ph1 tf = .ok (some pt, ph)
        ∧ k' = k.tick.put j ((k.proc j).allocated k.nextpid tf pt,
            { k.glob with phys := ph }) := by
  simp only [allocproc] at h
  split at h
  · cases h
  · next j' hfind =>
    have hfree := List.find?_range_eq_some.mp hfind
    rw [List.mem_range] at hfree
    split at h
    · obtain ⟨⟨q, ph⟩, _, h⟩ := bind_ok h
      cases h
    · next tf ph1 halloc =>
      obtain ⟨⟨o, ph⟩, hpt, h⟩ := bind_ok h
      cases o with
      | none =>
        obtain ⟨⟨q, ph'⟩, _, h⟩ := bind_ok h
        cases h
      | some pt =>
        cases h
        exact ⟨hfree.2.1, of_decide_eq_true hfree.1, tf, ph1, pt, ph, halloc, hpt, rfl⟩

/-- A slot that allocproc, or kfork after it, gave up again. -/
def GivenUp (k : Kernel) (j : Nat) (k' : Kernel) : Prop :=
  j < nproc ∧ (k.proc j).state = .unused ∧ ∃ tf pt ph,
    k' = k.tick.put j (((k.proc j).allocated k.nextpid tf pt).freed,
      { k.glob with phys := ph })

theorem allocproc_none (h : allocproc k = .ok (none, k')) : k' = k ∨ ∃ j, GivenUp k j k' := by
  simp only [allocproc] at h
  split at h
  · cases h
    exact .inl rfl
  · next j hfind =>
    have hfree := List.find?_range_eq_some.mp hfind
    rw [List.mem_range] at hfree
    refine .inr ⟨j, hfree.2.1, of_decide_eq_true hfree.1, ?_⟩
    split at h
    · obtain ⟨⟨q, ph⟩, hq, h⟩ := bind_ok h
      cases h
      rw [freeproc_freed hq]
      exact ⟨0, (k.proc j).pagetable, ph, rfl⟩
    · next tf ph1 _ =>
      obtain ⟨⟨o, ph⟩, _, h⟩ := bind_ok h
      cases o with
      | none =>
        obtain ⟨⟨q, ph'⟩, hq, h⟩ := bind_ok h
        cases h
        rw [freeproc_freed hq]
        exact ⟨tf, .empty 0, ph', rfl⟩
      | some pt => cases h

-- == kfork, inverted

/-- A fork that succeeds: the child took a free slot, its table is a copy
of the parent's below `sz`, and forkRest did the rest. -/
theorem kfork_some (h : kfork k i = .ok (some j, k')) :
    j < nproc ∧ (k.proc j).state = .unused ∧ ∃ tf ph1 pt0 ph0 pt ph s,
      kalloc k.glob.phys = (some tf, ph1) ∧ procPagetable ph1 tf = .ok (some pt0, ph0)
        ∧ uvmcopy (k.proc i).pagetable pt0 ph0 (k.proc i).sz = .ok (true, pt, ph)
        ∧ forkRest (k.proc i) ((k.proc j).allocated k.nextpid tf pt)
            { k.glob with phys := ph } i = .ok s
        ∧ k' = k.tick.put j s := by
  obtain ⟨⟨o, k1⟩, h1, h⟩ := bind_ok h
  cases o with
  | none => cases h
  | some j' =>
    obtain ⟨⟨ok, pt, ph⟩, hcopy, h⟩ := bind_ok h
    cases ok with
    | false =>
      obtain ⟨⟨q, ph'⟩, _, h⟩ := bind_ok h
      cases h
    | true =>
      obtain ⟨s, hrest, h⟩ := bind_ok h
      cases h
      obtain ⟨hj, hst, tf, ph1, pt0, ph0, ha, hp, rfl⟩ := allocproc_some h1
      simp only [Kernel.put_self, Kernel.put_glob] at hcopy hrest
      refine ⟨hj, hst, tf, ph1, pt0, ph0, pt, ph, s, ha, hp, hcopy, ?_, ?_⟩
      · exact hrest
      · exact Kernel.put_put ..

/-- A fork that returns -1 leaves at most a slot that is free again. -/
theorem kfork_none (h : kfork k i = .ok (none, k')) : k' = k ∨ ∃ j, GivenUp k j k' := by
  obtain ⟨⟨o, k1⟩, h1, h⟩ := bind_ok h
  cases o with
  | none =>
    cases h
    exact allocproc_none h1
  | some j =>
    obtain ⟨⟨ok, pt, ph⟩, _, h⟩ := bind_ok h
    cases ok with
    | true =>
      obtain ⟨s, _, h⟩ := bind_ok h
      cases h
    | false =>
      obtain ⟨⟨q, ph'⟩, hq, h⟩ := bind_ok h
      cases h
      obtain ⟨hj, hst, tf, _, _, _, _, _, rfl⟩ := allocproc_some h1
      rw [Kernel.put_self] at hq
      refine .inr ⟨j, hj, hst, tf, pt, ph', ?_⟩
      rw [freeproc_freed hq]
      exact Kernel.put_put ..

-- == the mapping loop

/-- The valid mapping slots below `n`, in order. -/
def validSlots (p : Proc) (n : Nat) : List Nat := (List.range n).filter fun i => (p.vma i).valid

theorem validSlots_succ (p : Proc) (n : Nat) :
    validSlots p (n + 1) = if (p.vma n).valid then validSlots p n ++ [n] else validSlots p n := by
  simp only [validSlots, List.range_succ, List.filter_append]
  cases h : (p.vma n).valid <;> simp [h]

theorem validSlots_length_le (p : Proc) (n : Nat) : (validSlots p n).length ≤ n := by
  simpa [validSlots] using List.length_filter_le (fun i => (p.vma i).valid) (List.range n)

theorem mem_validSlots : i ∈ validSlots p n ↔ i < n ∧ (p.vma i).valid = true := by
  simp [validSlots]

theorem validSlots_nodup (p : Proc) (n : Nat) : (validSlots p n).Nodup := List.nodup_range.filter _

/-- The child after `n` turns of the copy loop: its slots are the
parent's valid slots below `n`, packed to the left. -/
def copied (p np : Proc) (n : Nat) : Proc :=
  { np with vma := fun j =>
      match (validSlots p n)[j]? with
      | some i => (p.vma i).copyTo (np.vma j)
      | none => np.vma j }

theorem copied_valid (hnew : ∀ j, (np.vma j).valid = false) (n j : Nat) :
    ((copied p np n).vma j).valid = decide (j < (validSlots p n).length) := by
  simp only [copied]
  split
  · next i hi =>
    have := (List.getElem?_eq_some_iff.mp hi).1
    simp [Vma.copyTo, this]
  · next hnone =>
    rw [List.getElem?_eq_none_iff] at hnone
    simp [hnew, hnone]

/-- The first free slot is the one after those already filled. -/
theorem copied_freeSlot (hnew : ∀ j, (np.vma j).valid = false) (hn : n < nvma) :
    freeSlot (copied p np n) = some (validSlots p n).length := by
  have hlen := validSlots_length_le p n
  unfold freeSlot
  rw [List.find?_range_eq_some, List.mem_range]
  refine ⟨by simp [copied_valid hnew], by omega, ?_⟩
  intro j hj
  simp [copied_valid hnew, hj]

theorem copied_succ (hv : (p.vma n).valid = true) :
    (copied p np n).setVma (validSlots p n).length
        ((p.vma n).copyTo (np.vma (validSlots p n).length))
      = copied p np (n + 1) := by
  simp only [copied, Proc.setVma, validSlots_succ, hv, if_true]
  congr 1
  funext j
  rcases Nat.lt_trichotomy j (validSlots p n).length with hlt | rfl | hgt
  · rw [if_neg (by omega), List.getElem?_append_left hlt]
  · simp
  · rw [if_neg (by omega), List.getElem?_eq_none (by omega), List.getElem?_eq_none (by simp; omega)]

/-- The copy loop packs the parent's mappings into the child's slots. -/
theorem forkVma_loop (hn : n ≤ nvma) (hnew : ∀ j, (np.vma j).valid = false)
    (h : forUpto (forkVma p) n (np, g) = .ok (np', g')) : np' = copied p np n := by
  refine forUpto_inv (fun m t => t.1 = copied p np m) ?_ ?_ h
  · simp [copied, validSlots]
  rintro m hm ⟨t, gt⟩ ⟨t', gt'⟩ rfl hf
  simp only [forkVma] at hf
  split at hf
  · next hv =>
    rw [copied_freeSlot hnew (by omega)] at hf
    obtain ⟨g1, _, hf⟩ := bind_ok hf
    cases hf
    have hslot : (copied p np m).vma (validSlots p m).length = np.vma (validSlots p m).length := by
      simp [copied]
    rw [hslot]
    exact copied_succ hv
  · next hv =>
    cases hf
    simp only [copied, validSlots_succ, hv, Bool.false_eq_true, if_false]

theorem forkFd_loop_frame (h : forUpto (forkFd p) n (np, g) = .ok (np', g')) :
    ∃ ofile, np' = { np with ofile } := by
  refine forUpto_inv (fun _ t => ∃ ofile, t.1 = { np with ofile }) ⟨np.ofile, rfl⟩ ?_ h
  rintro fd _ ⟨t, gt⟩ ⟨t', gt'⟩ ⟨ofile, rfl⟩ hf
  simp only [forkFd] at hf
  split at hf
  · cases hf
    exact ⟨ofile, rfl⟩
  · obtain ⟨g1, _, hf⟩ := bind_ok hf
    cases hf
    exact ⟨_, rfl⟩

/-- The child forkRest leaves, up to its descriptors. -/
theorem forkRest_frame (hnew : ∀ j, (np.vma j).valid = false)
    (h : forkRest p np g i = .ok (np', g')) :
    ∃ ofile, np' = { np with
      sz := p.sz, curVmaStart := p.curVmaStart,
      vma := (copied p np nvma).vma, regs := { p.regs with a0 := 0 }, ofile,
      cwd := p.cwd, name := p.name, parent := some i, state := .runnable } := by
  obtain ⟨⟨np1, g1⟩, h1, h⟩ := bind_ok h
  obtain ⟨⟨np2, g2⟩, h2, h⟩ := bind_ok h
  have hmaps := forkVma_loop (Nat.le_refl _) (by exact hnew) h1
  obtain ⟨ofile, hfd⟩ := forkFd_loop_frame h2
  dsimp only at h hmaps hfd
  split at h
  · cases h
  · next c hc =>
    cases h
    refine ⟨ofile, ?_⟩
    rw [hfd, hmaps, hc]
    rfl

/-- To the shared state forkRest does filedups, and then one idup. -/
theorem forkRest_inv (P : Glob → Prop) (h0 : P g)
    (hdup : ∀ t t' f, P t → filedup t f = .ok t' → P t') (h : forkRest p np g i = .ok (np', g')) :
    ∃ c g2, p.cwd = some c ∧ P g2 ∧ g' = idup g2 c := by
  obtain ⟨⟨np1, g1⟩, h1, h⟩ := bind_ok h
  obtain ⟨⟨np2, g2⟩, h2, h⟩ := bind_ok h
  have hmaps : P g1 := by
    refine forUpto_inv (fun _ t => P t.2) h0 ?_ h1
    intro s _ t t' hP hf
    simp only [forkVma] at hf
    split at hf
    · split at hf
      · cases hf
        exact hP
      obtain ⟨g3, hd, hf⟩ := bind_ok hf
      cases hf
      cases hfile : (p.vma s).file with
      | none =>
        rw [hfile] at hd
        cases hd
        exact hP
      | some f =>
        rw [hfile] at hd
        exact hdup _ _ f hP hd
    · cases hf
      exact hP
  have hfds : P g2 := by
    refine forUpto_inv (fun _ t => P t.2) hmaps ?_ h2
    intro fd _ t t' hP hf
    simp only [forkFd] at hf
    split at hf
    · cases hf
      exact hP
    · next f _ =>
      obtain ⟨g3, hd, hf⟩ := bind_ok hf
      cases hf
      exact hdup _ _ f hP hd
  dsimp only at h
  split at h
  · cases h
  · next c hc =>
    cases h
    exact ⟨c, g2, hc, hfds, rfl⟩

-- == mappings, read as a list

/-- The valid mappings of a process, in slot order. -/
def Proc.maps (p : Proc) : List Vma := (validSlots p nvma).map p.vma

/-- The mapping that serves an address is the first in the list. -/
theorem vmaAt_maps (p : Proc) (va : Nat) :
    (vmaAt p va).map p.vma = p.maps.find? fun v => decide (v.start ≤ va ∧ va < v.stop) := by
  unfold vmaAt Proc.maps validSlots
  rw [List.find?_map, List.find?_filter]
  congr 2
  funext i
  simp

theorem maps_of_packed {m : Nat} (hm : m ≤ nvma) (hv : ∀ j, (p.vma j).valid = decide (j < m)) :
    p.maps = (List.range m).map p.vma := by
  have hslots : validSlots p nvma = List.range m := by
    obtain ⟨d, hd⟩ := Nat.exists_eq_add_of_le hm
    simp only [validSlots, hd, List.range_add, List.filter_append, hv]
    have h1 : (List.range m).filter (fun i => decide (i < m)) = List.range m :=
      List.filter_eq_self.mpr fun i hi => by simpa using hi
    have h2 : ((List.range d).map (m + ·)).filter (fun i => decide (i < m)) = [] :=
      List.filter_eq_nil_iff.mpr fun i hi => by
        obtain ⟨a, _, rfl⟩ := List.mem_map.mp hi
        simp
    rw [h1, h2, List.append_nil]
  rw [Proc.maps, hslots]

/-- The child's mappings are the parent's, each with the offset that its
new slot had before. -/
theorem copied_maps {z : Nat} (hnew : ∀ j, (np.vma j).valid = false)
    (hz : ∀ j, (np.vma j).offset = z) :
    (copied p np nvma).maps = p.maps.map fun v => { v with offset := z } := by
  rw [maps_of_packed (validSlots_length_le p nvma) (copied_valid hnew nvma)]
  refine List.ext_getElem (by simp [Proc.maps]) ?_
  intro j h1 h2
  have hj : j < (validSlots p nvma).length := by simpa using h1
  have hv := (mem_validSlots.mp (List.getElem_mem hj)).2
  simp [Proc.maps, copied, hj, Vma.copyTo, hz, hv]

/-- A successful fork: the child's mappings are the parent's with offset
0. -/
theorem fork_maps (h : kfork k i = .ok (some j, k')) :
    (k'.proc j).maps = (k.proc i).maps.map fun v => { v with offset := 0 } := by
  obtain ⟨_, _, tf, _, _, _, pt, ph, ⟨np, g⟩, _, _, _, hrest, rfl⟩ := kfork_some h
  have hnew : ∀ s, (((k.proc j).allocated k.nextpid tf pt).vma s).valid = false := fun _ => rfl
  obtain ⟨ofile, rfl⟩ := forkRest_frame hnew hrest
  rw [Kernel.put_self]
  exact copied_maps hnew (fun _ => rfl)

-- == fork and mappings

/-- The six fields of a mapping that decide what its pages are. -/
def Vma.view (v : Vma) : Nat × Nat × UInt32 × UInt32 × Option Nat × Nat :=
  (v.start, v.stop, v.prot, v.flags, v.file, v.offset)

/-- The mappings of a process, without their slots. -/
def Proc.views (p : Proc) : Multiset (Nat × Nat × UInt32 × UInt32 × Option Nat × Nat) :=
  Multiset.ofList (p.maps.map Vma.view)

/-- What an address stands for: the file of its mapping and the position
in it. -/
def Proc.translate (p : Proc) (va : Nat) : Option (Option Nat × Nat) :=
  (vmaAt p va).map fun i => ((p.vma i).file, (p.vma i).fileOff va)

/-- `translate` reads the first mapping of the list that covers `va`. -/
theorem translate_maps (p : Proc) (va : Nat) :
    p.translate va =
      (p.maps.find? fun v => decide (v.start ≤ va ∧ va < v.stop)).map
        fun v => (v.file, v.fileOff va) := by
  rw [← vmaAt_maps, Option.map_map]
  rfl

/-- The child has the parent's mappings, as multisets of views and by
every address, exactly when no mapping of the parent starts inside its
file: kfork leaves `offset` behind. -/
theorem fork_preserves_mappings_iff {k k' : Kernel} {i j : Nat}
    (h : kfork k i = .ok (some j, k')) :
    ((k'.proc j).views = (k.proc i).views
      ∧ ∀ va, (k'.proc j).translate va = (k.proc i).translate va)
    ↔ ∀ v ∈ (k.proc i).maps, v.offset = 0 := by
  constructor
  · rintro ⟨heq, _⟩ v hv
    -- the parent's view of `v` is one of the child's, and those have 0
    have hmem : v.view ∈ (k.proc i).views :=
      Multiset.mem_coe.mpr (List.mem_map_of_mem hv)
    rw [← heq, Proc.views, Multiset.mem_coe, List.mem_map, fork_maps h]
      at hmem
    obtain ⟨w, hw, hview⟩ := hmem
    obtain ⟨u, _, rfl⟩ := List.mem_map.mp hw
    simp only [Vma.view, Prod.mk.injEq] at hview
    exact hview.2.2.2.2.2.symm
  · intro hzero
    have hsame : (k'.proc j).maps = (k.proc i).maps := by
      rw [fork_maps h]
      calc (k.proc i).maps.map (fun v => { v with offset := 0 })
          = (k.proc i).maps.map id :=
            List.map_congr_left fun v hv => by rw [← hzero v hv]; rfl
        _ = (k.proc i).maps := List.map_id _
    refine ⟨by rw [Proc.views, hsame, Proc.views], fun va => ?_⟩
    rw [translate_maps, translate_maps, hsame]

set_option maxRecDepth 10000

/-- A mapping that was never cut at the front survives the fork. -/
theorem fork_preserves_mappings_boot :
    ∃ k k', runAs bootKernel 1 [.mmap 0 8192 3 1 0 0] = .ok k
      ∧ kfork k 1 = .ok (some 2, k')
      ∧ (k'.proc 2).views = (k.proc 1).views
      ∧ ∀ va, (k'.proc 2).translate va = (k.proc 1).translate va :=
  ⟨_, _, rfl, rfl, (fork_preserves_mappings_iff rfl).mpr (by decide)⟩

/-- Two pages of a file are mapped, the first is unmapped, and the
process forks: the address of the second page is file position 4096 for
the parent and 0 for the child. -/
theorem fork_loses_offset :
    ∃ k k', runAs bootKernel 1
        [.mmap 0 8192 3 1 0 0, .munmap 0x40000000 4096] = .ok k
      ∧ kfork k 1 = .ok (some 2, k')
      ∧ (k'.proc 2).views ≠ (k.proc 1).views
      ∧ (k.proc 1).translate 0x40001000 = some (some 0, 4096)
      ∧ (k'.proc 2).translate 0x40001000 = some (some 0, 0) :=
  ⟨_, _, rfl, rfl,
    fun h => absurd (List.singleton_perm_singleton.mp (Multiset.coe_eq_coe.mp h))
      (by decide), rfl, rfl⟩

end Xv6Labs.Model
