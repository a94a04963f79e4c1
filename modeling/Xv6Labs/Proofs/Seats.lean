/-
Changing the mappings under the mapped pages: sys_mmap adds a mapping where
no page is mapped yet, sys_munmap cuts away only what it has unmapped, and
kexit drops mappings whose shared pages are gone.
-/
import Xv6Labs.Proofs.Unmap

namespace Xv6Labs.Model

open Lib Finset

variable {p : Proc} {hi lo n : Nat} {v : Vma}

-- == where pages are

/-- Every mapped page is below the size, on top, or in a mapping. -/
def Proc.Placed (p : Proc) : Prop :=
  ∀ n, (p.pagetable.leaf n).isSome = true →
    p.HeapPage n ∨ (n = trampPage ∨ n = tfPage) ∨ (vmaAt p (n * pgSize)).isSome = true

/-- What a live process looks like to the ledgers. -/
structure Proc.Seated (p : Proc) : Prop where
  table : p.pagetable.Wf
  placed : p.Placed
  small : p.sz ≤ mmapBase

theorem vmaAt_out (hl : Layout p) {va : Nat}
    (h : va < mmapBase ∨ mmapTop ≤ va) : vmaAt p va = none := by
  refine vmaAt_none.mpr fun i hi hv hle => ?_
  have hok := hl.ok i hi hv
  have h1 := hok.base
  have h2 := hok.le_cur
  have h3 := hl.cur_top
  omega

theorem heapPage_lt (hsz : p.sz ≤ mmapBase) (h : p.HeapPage n) : n * pgSize < mmapBase := by
  unfold Proc.HeapPage at h
  have hle : p.sz + 4095 < 2 ^ 64 := by
    unfold mmapBase at hsz
    omega
  rw [pgRoundUp_eq hle] at h
  unfold mmapBase pgSize at *
  omega

theorem topPage_ge (h : n = trampPage ∨ n = tfPage) : mmapTop ≤ n * pgSize := by
  rcases h with rfl | rfl <;> decide

/-- Pages that no mapping held before and none holds now, and pages whose
mapping is what it was, keep their column. -/
theorem columns_of_sharedAt {p' : Proc} (hpt : p'.pagetable = p.pagetable)
    (h : ∀ n, (p.pagetable.leaf n).isSome = true → p'.sharedAt n = p.sharedAt n) :
    p'.ownPages = p.ownPages ∧ ∀ g, p'.sharedPtes g = p.sharedPtes g := by
  constructor
  · funext x
    refine sum_same fun n _ => ?_
    unfold Proc.ownLeaf
    rw [hpt]
    cases hl : p.pagetable.leaf n with
    | some e => rw [h n (by rw [hl]; rfl)]
    | none =>
      have hbare : p.pagetable.bare.leaf n = none := by
        rw [bare_leaf, hl]
        exact ite_self _
      rw [hbare, ite_self, ite_self]
  · intro g
    funext ip off
    refine sum_same fun n _ => ?_
    unfold Proc.keyAt Proc.sharedKey
    rw [hpt]
    by_cases hl : (p.pagetable.leaf n).isSome = true
    · rw [if_pos hl, if_pos hl, h n hl]
    · rw [if_neg hl, if_neg hl]

-- == sys_mmap

/-- A new mapping above the bump pointer has no page mapped in it. -/
theorem newVma_sharedAt {j c : Nat} (hl : Layout p)
    (hl' : Layout { p.setVma j v with curVmaStart := c })
    (hj : (p.vma j).valid = false) (hsz : p.sz ≤ mmapBase) (hplaced : p.Placed)
    (hn : (p.pagetable.leaf n).isSome = true) :
    vmaAt { p.setVma j v with curVmaStart := c } (n * pgSize) = vmaAt p (n * pgSize)
      ∧ ({ p.setVma j v with curVmaStart := c } : Proc).sharedAt n = p.sharedAt n := by
  have hout : n * pgSize < mmapBase ∨ mmapTop ≤ n * pgSize →
      vmaAt { p.setVma j v with curVmaStart := c } (n * pgSize) = vmaAt p (n * pgSize)
        ∧ ({ p.setVma j v with curVmaStart := c } : Proc).sharedAt n = p.sharedAt n := by
    intro h
    have h1 := vmaAt_out hl h
    have h2 := vmaAt_out hl' h
    rw [h1, h2, sharedAt_none_of_vmaAt h1, sharedAt_none_of_vmaAt h2]
    exact ⟨rfl, rfl⟩
  rcases hplaced n hn with hheap | htop | hvma
  · exact hout (.inl (heapPage_lt hsz hheap))
  · exact hout (.inr (topPage_ge htop))
  obtain ⟨s, hs⟩ := Option.isSome_iff_exists.mp hvma
  obtain ⟨hlt, hv, hlo, hhi⟩ := vmaAt_some hs
  have hne : s ≠ j := by
    rintro rfl
    rw [hj] at hv
    cases hv
  have hsame : ({ p.setVma j v with curVmaStart := c } : Proc).vma s = p.vma s := if_neg hne
  have hs' : vmaAt { p.setVma j v with curVmaStart := c } (n * pgSize) = some s :=
    vmaAt_eq hl' hlt (hsame ▸ hv) (hsame ▸ hlo) (hsame ▸ hhi)
  rw [sharedAt_of_vmaAt hs', sharedAt_of_vmaAt hs, hs', hs, hsame]
  exact ⟨rfl, rfl⟩

-- == sys_munmap

/-- A cut does not move the rest of the mapping in its file. -/
theorem shrink_fileOff (v : Vma) (lo hi a : Nat) : (shrink v lo hi).fileOff a = v.fileOff a := by
  simp only [shrink]
  split
  · rfl
  split
  · next hf =>
    simp only [Vma.fileOff]
    refine u64_congr ?_
    unfold u64
    omega
  · split <;> rfl

/-- The mapping that is left holds every address it held outside the
range. -/
theorem shrink_holds {a : Nat} (hv : v.valid = true) (hlo : v.start ≤ a)
    (hhi : a < v.stop) (hout : a < lo ∨ hi ≤ a) :
    (shrink v lo hi).valid = true ∧ (shrink v lo hi).start ≤ a ∧ a < (shrink v lo hi).stop := by
  simp only [shrink]
  split
  · omega
  split
  · exact ⟨hv, by dsimp only; omega, hhi⟩
  · split
    · exact ⟨hv, hlo, by dsimp only; omega⟩
    · exact ⟨hv, hlo, hhi⟩

theorem shrink_sub (hle : lo ≤ hi) (hv : (shrink v lo hi).valid = true) :
    v.valid = true ∧ v.start ≤ (shrink v lo hi).start ∧ (shrink v lo hi).stop ≤ v.stop := by
  simp only [shrink] at hv ⊢
  split
  · next hw =>
    rw [if_pos hw] at hv
    cases hv
  · next hw =>
    rw [if_neg hw] at hv
    split
    · next hf =>
      rw [if_pos hf] at hv
      exact ⟨hv, by dsimp only; omega, Nat.le_refl _⟩
    · next hf =>
      rw [if_neg hf] at hv
      split
      · next hb =>
        rw [if_pos hb] at hv
        exact ⟨hv, Nat.le_refl _, by dsimp only; omega⟩
      · next hb =>
        rw [if_neg hb] at hv
        exact ⟨hv, Nat.le_refl _, Nat.le_refl _⟩

/-- Outside the range that was cut away, addresses stand for what they
stood for. -/
theorem shrink_sharedAt {i : Nat} (hi' : i < nvma) (hv : (p.vma i).valid = true)
    (hl' : Layout (p.setVma i (shrink (p.vma i) lo hi))) (hle : lo ≤ hi)
    (hout : n * pgSize < lo ∨ hi ≤ n * pgSize) :
    vmaAt (p.setVma i (shrink (p.vma i) lo hi)) (n * pgSize) = vmaAt p (n * pgSize)
      ∧ (p.setVma i (shrink (p.vma i) lo hi)).sharedAt n = p.sharedAt n := by
  have hself : (p.setVma i (shrink (p.vma i) lo hi)).vma i
      = shrink (p.vma i) lo hi := if_pos (Eq.refl i)
  have hother : ∀ s, s ≠ i → (p.setVma i (shrink (p.vma i) lo hi)).vma s = p.vma s :=
    fun s hs => if_neg hs
  cases hat : vmaAt p (n * pgSize) with
  | none =>
    have hnone : vmaAt (p.setVma i (shrink (p.vma i) lo hi)) (n * pgSize) = none := by
      rw [vmaAt_none] at hat ⊢
      intro s hs hvs hle'
      by_cases hsi : s = i
      · subst hsi
        rw [hself] at hvs hle' ⊢
        obtain ⟨_, h1, h2⟩ := shrink_sub hle hvs
        have := hat s hs hv (by omega)
        omega
      · rw [hother s hsi] at hvs hle' ⊢
        exact hat s hs hvs hle'
    rw [hnone, sharedAt_none_of_vmaAt hnone, sharedAt_none_of_vmaAt hat]
    exact ⟨rfl, rfl⟩
  | some s =>
    obtain ⟨hs, hvs, hlo', hhi'⟩ := vmaAt_some hat
    by_cases hsi : s = i
    · subst hsi
      obtain ⟨h1, h2, h3⟩ := shrink_holds hv hlo' hhi' hout
      have hat' : vmaAt (p.setVma s (shrink (p.vma s) lo hi)) (n * pgSize) = some s := by
        refine vmaAt_eq hl' hs ?_ ?_ ?_ <;> rw [hself]
        · exact h1
        · exact h2
        · exact h3
      obtain ⟨hflags, hfile, _⟩ := shrink_same (p.vma s) lo hi
      rw [sharedAt_of_vmaAt hat', sharedAt_of_vmaAt hat, hself, hflags, hfile, shrink_fileOff]
      exact ⟨hat', rfl⟩
    · have hat' : vmaAt (p.setVma i (shrink (p.vma i) lo hi)) (n * pgSize) = some s := by
        refine vmaAt_eq hl' hs ?_ ?_ ?_ <;> rw [hother s hsi]
        · exact hvs
        · exact hlo'
        · exact hhi'
      rw [sharedAt_of_vmaAt hat', sharedAt_of_vmaAt hat, hother s hsi]
      exact ⟨hat', rfl⟩

-- == kexit

/-- A process whose shared pages are gone may drop its mappings. -/
theorem dropMaps_columns {p' : Proc} {pt : PageTable}
    (hgone : SharedGone p nvma pt) (hpt : p'.pagetable = pt)
    (hv : ∀ s, s < nvma → (p'.vma s).valid = false) :
    p'.ownPages = ({ p with pagetable := pt } : Proc).ownPages
      ∧ ∀ g, p'.sharedPtes g = ({ p with pagetable := pt } : Proc).sharedPtes g := by
  refine columns_of_sharedAt hpt fun n hn => ?_
  rw [(columns_of_no_maps hv).1 n]
  cases hat : vmaAt { p with pagetable := pt } (n * pgSize) with
  | none => exact (sharedAt_none_of_vmaAt hat).symm
  | some s =>
    obtain ⟨hs, hvs, hlo, hhi⟩ := vmaAt_some hat
    cases hshared : (p.vma s).isShared with
    | true =>
      have hnone := hgone s hs hvs hshared n hlo hhi
      rw [hnone] at hn
      cases hn
    | false => exact (sharedAt_none_of_private hat hshared).symm

end Xv6Labs.Model
