/-
Where the mappings of a state come from: one that was there before, the
remainder of one that sys_munmap cut, a copy of one of the parent's, or the
one sys_mmap just made (`step_origin`). A cut keeps the positions of the
addresses that are left (`munmaps_keep_positions`).
-/
import Xv6Labs.Lib.Overlay
import Xv6Labs.Proofs.Layout

namespace Xv6Labs.Model

open Lib

/-- A valid mapping of process `j` after the call `op` of process `i` in
state `k`. -/
inductive Origin (k : Kernel) (i j : Nat) : Op → Vma → Prop where
  | kept {op : Op} {s : Nat} (hu : (k.proc j).state ≠ .unused)
      (hs : s < nvma) (hv : ((k.proc j).vma s).valid = true) :
      Origin k i j op ((k.proc j).vma s)
  | cut {addr : UInt64} {len : Int32} {s : Nat}
      (hhold : vmaHolding (k.proc i) addr.toNat (u64 (addr.toNat + len.toInt)) = some s) :
      Origin k i j (.munmap addr len) (shrink ((k.proc i).vma s) addr.toNat
        (u64 (addr.toNat + len.toInt)))
  | forked {s : Nat} {slot : Vma} (hs : s < nvma)
      (hv : ((k.proc i).vma s).valid = true) (hoff : slot.offset = 0) :
      Origin k i j .fork (((k.proc i).vma s).copyTo slot)
  | made {addr offset : UInt64} {len fd : Int32} {prot flags : UInt32}
      {f : Option Nat} (hlen : len.toInt ≠ 0)
      (hoff : offset.toNat % pgSize = 0)
      (hf : ofileAt (k.proc i) fd.toInt = .ok f)
      (hmode : mmapMode k.glob f prot flags = .ok true) :
      Origin k i j (.mmap addr len prot flags fd offset)
        (newVma (k.proc i) len.toInt prot flags fd.toInt f)

theorem step_origin {k k' : Kernel} {i j s : Nat} {op : Op}
    (hl : (k.proc i).isLive = true) (hstep : step k i op = .ok k')
    (hused : (k'.proc j).state ≠ .unused) (hs : s < nvma) (hv : ((k'.proc j).vma s).valid = true) :
    Origin k i j op ((k'.proc j).vma s) := by
  have hui : (k.proc i).state ≠ .unused := used_of_live hl
  have horigin := step_remapped j hl hstep
  generalize k'.proc j = p at horigin hused hv ⊢
  cases horigin with
  | kept heq _ hu =>
    rw [heq] at hv ⊢
    exact .kept (hu hused) hs hv
  | free hst => exact absurd hst hused
  | mmap hj h =>
    subst hj
    rcases sysMmap_cases h with
      ⟨rfl, _⟩ | ⟨f, a, hlen, hoff, hf, hmode, _, _, _, _, rfl⟩
    · exact .kept hui hs hv
    simp only [Proc.setVma] at hv ⊢
    split at hv
    · next hsa =>
      rw [if_pos hsa]
      exact .made hlen hoff hf hmode
    · next hsa =>
      rw [if_neg hsa]
      exact .kept hui hs hv
  | munmap hj h =>
    subst hj
    rcases sysMunmap_cases h with
      ⟨rfl, _⟩ | ⟨a, p1, _, _, _, hhold, _, hloop, _, rfl⟩
    · exact .kept hui hs hv
    obtain ⟨⟨pt, hp1⟩, _⟩ := munmapPages_frame hloop
    subst hp1
    simp only [Proc.setVma] at hv ⊢
    split at hv
    · next hsa =>
      rw [if_pos hsa]
      exact .cut hhold
    · next hsa =>
      rw [if_neg hsa]
      exact .kept hui hs hv
  | forked hnew hoff _ heq =>
    rw [heq] at hv ⊢
    rw [copied_valid hnew, decide_eq_true_eq] at hv
    have hmem := mem_validSlots.mp (List.getElem_mem hv)
    simp only [copied, List.getElem?_eq_getElem hv]
    exact .forked hmem.1 hmem.2 (hoff s)
  | dropped _ hno =>
    -- nothing is mapped in a zombie
    rw [hno s hs] at hv
    cases hv

-- == file positions

/-- The address is in the valid mapping. -/
def Vma.Has (v : Vma) (va : Nat) : Prop := v.valid = true ∧ v.start ≤ va ∧ va < v.stop

/-- No address is in two mappings. -/
def Proc.VmasApart (p : Proc) : Prop :=
  ∀ i j va, i < nvma → j < nvma → (p.vma i).Has va → (p.vma j).Has va → i = j

/-- The two mappings show the same file there, at the same position and
with the same rights. -/
structure Vma.SameAt (v v' : Vma) (va : Nat) : Prop where
  file : v'.file = v.file
  prot : v'.prot = v.prot
  flags : v'.flags = v.flags
  off : v'.fileOff va = v.fileOff va

/-- A sys_munmap of the process that returned: the length is positive, and
the range does not wrap. The shared state may be any. -/
def MunmapStep (p p' : Proc) : Prop :=
  ∃ (addr : UInt64) (len : Int32) (g g' : Glob) (r : Nat),
    0 < len.toInt ∧ addr.toNat + len.toInt < 2 ^ 64
      ∧ sysMunmap p g addr.toNat len.toInt = .ok (r, p', g')

theorem Layout.vmasApart {p : Proc} (h : Layout p) : p.VmasApart := by
  rintro i j va hi hj ⟨hvi, hsi, hei⟩ ⟨hvj, hsj, hej⟩
  by_contra hij
  have := h.disjoint i j hi hj hij hvi hvj
  omega

/-- What a cut leaves of a mapping is where it was in the file. -/
theorem shrink_sameAt {v : Vma} {lo hi va : Nat} (hlt : lo < hi) (h : (shrink v lo hi).Has va) :
    v.Has va ∧ v.SameAt (shrink v lo hi) va := by
  obtain ⟨hflags, hfile, hprot⟩ := shrink_same v lo hi
  suffices hpos : v.Has va ∧ (shrink v lo hi).fileOff va = v.fileOff va from
    ⟨hpos.1, hfile, hprot, hflags, hpos.2⟩
  revert h
  unfold shrink
  split
  · exact fun h => absurd h.1 nofun
  split
  · next hfront =>
    -- start and offset move by the same amount, modulo 2^64
    rintro ⟨hv, hs, he⟩
    dsimp only at hs he
    refine ⟨⟨hv, by omega, he⟩, ?_⟩
    simp only [Vma.fileOff, u64, hfront.1]
    congr 1
    omega
  · split
    · next hback =>
      rintro ⟨hv, hs, he⟩
      dsimp only at hs he
      exact ⟨⟨hv, hs, by omega⟩, rfl⟩
    · exact fun h => ⟨h, rfl⟩

theorem MunmapStep.sameAt {p p' : Proc} (h : MunmapStep p p') {s va : Nat}
    (hs : (p'.vma s).Has va) : (p.vma s).Has va ∧ (p.vma s).SameAt (p'.vma s) va := by
  obtain ⟨addr, len, g, g', r, hpos, hwrap, hm⟩ := h
  have hhi : u64 (addr.toNat + len.toInt) = addr.toNat + len.toInt.toNat := by
    unfold u64
    omega
  rcases sysMunmap_cases hm with
    ⟨rfl, _⟩ | ⟨a, p1, _, _, _, _, _, hloop, _, rfl⟩
  · exact ⟨hs, rfl, rfl, rfl, rfl⟩
  obtain ⟨⟨pt, hp1⟩, _⟩ := munmapPages_frame hloop
  subst hp1
  simp only [Proc.setVma] at hs ⊢
  split at hs
  · next hsa =>
    subst hsa
    rw [if_pos rfl]
    exact shrink_sameAt (by omega) hs
  · next hsa =>
    rw [if_neg hsa]
    exact ⟨hs, rfl, rfl, rfl, rfl⟩

/-- Whatever a process unmaps, in whatever order: an address that is still
mapped is in one mapping, was in one, and shows the same position of the
same file with the same rights. -/
theorem munmaps_keep_positions {p p' : Proc} (hp : p.VmasApart)
    (hr : Reaches MunmapStep p p') :
    p'.VmasApart ∧ ∀ j va, j < nvma → (p'.vma j).Has va →
      ∃ i, i < nvma ∧ (p.vma i).Has va
        ∧ (∀ i', i' < nvma → (p.vma i').Has va → i' = i)
        ∧ (p.vma i).SameAt (p'.vma j) va := by
  have hslot : ∀ s va, (p'.vma s).Has va →
      (p.vma s).Has va ∧ (p.vma s).SameAt (p'.vma s) va := by
    refine hr.inv (P := fun q => ∀ s va, (q.vma s).Has va →
      (p.vma s).Has va ∧ (p.vma s).SameAt (q.vma s) va)
      (fun s va h => ⟨h, rfl, rfl, rfl, rfl⟩) ?_
    intro q q' ih hstep s va h
    obtain ⟨hhas, hsame⟩ := hstep.sameAt h
    obtain ⟨hhas₀, hsame₀⟩ := ih s va hhas
    exact ⟨hhas₀, hsame.file.trans hsame₀.file, hsame.prot.trans hsame₀.prot,
      hsame.flags.trans hsame₀.flags, hsame.off.trans hsame₀.off⟩
  refine ⟨fun i j va hi hj h h' => ?_, fun j va hj h => ?_⟩
  · exact hp i j va hi hj (hslot i va h).1 (hslot j va h').1
  · obtain ⟨hhas, hsame⟩ := hslot j va h
    exact ⟨j, hj, hhas, fun i' hi' h' => hp i' j va hi' hj h' hhas, hsame⟩

set_option maxRecDepth 10000 in
/-- The first page of three is unmapped, and then the last. -/
theorem munmaps_keep_positions_middle : ∃ p p' i,
    Reaches MunmapStep p p' ∧ (p'.vma 0).start = 0x40001000
      ∧ (p.vma i).SameAt (p'.vma 0) 0x40001007
      ∧ (p'.vma 0).fileOff 0x40001007 = 0x1007 := by
  have hrun : ∃ k p₁ g₁ p₂ g₂,
      runAs bootKernel 1 [.mmap 0 12288 3 1 0 0] = .ok k
        ∧ sysMunmap (k.proc 1) k.glob 0x40000000 4096 = .ok (0, p₁, g₁)
        ∧ sysMunmap p₁ g₁ 0x40002000 4096 = .ok (0, p₂, g₂)
        ∧ decide (Layout (k.proc 1)) = true
        ∧ p₂.vma 0 = ⟨0x40001000, 0x40002000, true, 4096, 3, 1, 0, some 0,
            4096⟩ :=
    ⟨_, _, _, _, _, rfl, rfl, rfl, rfl, rfl⟩
  obtain ⟨k, p₁, g₁, p₂, g₂, -, h₁, h₂, hl, hv⟩ := hrun
  have hr : Reaches MunmapStep (k.proc 1) p₂ :=
    ((Reaches.refl _).step ⟨0x40000000, 4096, _, _, _, by decide, by decide,
      h₁⟩).step ⟨0x40002000, 4096, _, _, _, by decide, by decide, h₂⟩
  obtain ⟨i, -, -, -, hsame⟩ := (munmaps_keep_positions
    (of_decide_eq_true hl).vmasApart hr).2 0 0x40001007 (by decide)
    (by rw [hv]; exact ⟨rfl, by decide, by decide⟩)
  exact ⟨k.proc 1, p₂, i, hr, by rw [hv], hsame, by rw [hv]; decide⟩

end Xv6Labs.Model
