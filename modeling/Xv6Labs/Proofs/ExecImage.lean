/-
kexec and the image it replaces: it does nothing about the mappings. With
one, the call panics in freewalk, because a page of it was resident, or
hands the new program a mapping of the old one.
-/
import Xv6Labs.Proofs.Tally
import Xv6Labs.Proofs.Trades

namespace Xv6Labs.Model

open Lib

/-- The old image is gone: its pages are on the free list, and no mapping
of it is left for a fault of the new program to find. -/
structure Replaced (p : Proc) (g : Glob) (p' : Proc) (g' : Glob) : Prop where
  pages : ∀ x, g'.phys.freelist.count x = g.phys.freelist.count x
    + p.pagetable.tables x + p.ownPages x
  maps : ∀ i, i < nvma → (p'.vma i).valid = false

theorem execCommit_cases {p p' : Proc} {g g' : Glob} {path : List UInt8}
    {img : Image} (h : execCommit p g path img = .ok (p', g')) :
    p'.vma = p.vma ∧ ∃ ph, procFreepagetable p.pagetable g.phys p.sz = .ok ph
      ∧ g' = { g with phys := ph } := by
  obtain ⟨ph, hph, h⟩ := bind_ok h
  cases h
  exact ⟨rfl, ph, hph, rfl⟩

/-- A kexec that reaches its commit point replaces the image exactly when
the process has no mapping and nothing above its size. -/
theorem kexec_replaces_iff {p : Proc} {g g₁ : Glob} {path : List UInt8}
    {argv : List (List UInt8)} {img : Image}
    (hb : execBuild p g path argv = .ok (some img, g₁))
    (hv : p.pagetable.Valid g₁.phys) :
    (∃ p' g', kexec p g path argv = .ok (img.argc, p', g')
      ∧ Replaced p g₁ p' g')
    ↔ (∀ i, i < nvma → (p.vma i).valid = false)
      ∧ pgRoundUp p.sz ≤ maxVa ∧ p.pagetable.Below p.sz := by
  have hexec : kexec p g path argv = (do
      let s ← execCommit p g₁ path img
      .ok ((img.argc : Int), s.1, s.2)) := by
    simp only [kexec, hb, ok_bind]
    rfl
  rw [hexec]
  constructor
  · rintro ⟨p', g', h, hr⟩
    obtain ⟨⟨p₁, g₂⟩, h₁, h⟩ := bind_ok h
    cases h
    obtain ⟨hvma, ph, hph, rfl⟩ := execCommit_cases h₁
    refine ⟨fun i hi => ?_, (procFreepagetable_iff hv).mp ⟨ph, hph⟩⟩
    exact hvma ▸ hr.maps i hi
  · rintro ⟨hmaps, hfree⟩
    obtain ⟨ph, hph⟩ := (procFreepagetable_iff hv).mpr hfree
    have hcommit : ∃ p', execCommit p g₁ path img
        = .ok (p', { g₁ with phys := ph }) ∧ p'.vma = p.vma := by
      simp only [execCommit, hph, ok_bind]
      exact ⟨_, rfl, rfl⟩
    obtain ⟨p', hp', hvma⟩ := hcommit
    refine ⟨p', _, by rw [hp', ok_bind], ?_, fun i hi => hvma ▸ hmaps i hi⟩
    intro x
    rw [(columns_of_no_maps hmaps).2.1]
    exact (procFreepagetable_ledger hv.wf hph).2 x

set_option maxRecDepth 10000

/-- With a page of heap and no mappings the shell replaces itself. -/
theorem kexec_replaces_boot :
    ∃ k img g₁, runAs bootKernel 1 [.sbrk 4096 true] = .ok k
      ∧ (k.proc 1).sz = 4096
      ∧ ((k.proc 1).pagetable.leaf 0).isSome = true
      ∧ execBuild (k.proc 1) k.glob [47, 115, 104] [[115, 104]]
          = .ok (some img, g₁)
      ∧ ∃ p' g', kexec (k.proc 1) k.glob [47, 115, 104] [[115, 104]]
            = .ok (img.argc, p', g')
        ∧ Replaced (k.proc 1) g₁ p' g' := by
  have hvalid : (bootKernel.proc 1).pagetable.Valid bootGlob.phys :=
    bootTable_valid (by decide) (by decide) (by decide)
  have hgrow : uvmalloc (bootKernel.proc 1).pagetable bootGlob.phys 0 4096
      ⟨false, true, false, false⟩ = .ok (4096, _, _) := rfl
  obtain ⟨ht, hz | ⟨_, _, hbelow, _⟩⟩ := uvmalloc_trades hvalid.wf
    (bootTable_below _ _) (by decide) (.inl (by decide)) hgrow
  · exact absurd hz.1 (by decide)
  refine ⟨_, _, _, rfl, rfl, rfl, rfl, (kexec_replaces_iff rfl ?_).mpr
    ⟨fun _ _ => rfl, by decide, hbelow⟩⟩
  exact (ht.valid hvalid (by decide) rfl).congr rfl

/-- One page of a private mapping is touched, and the process calls exec:
the new image is complete, and freeing the old one panics on the page.
Untouched, the mapping is still valid in the new program. -/
theorem kexec_keeps_mappings :
    (∃ k img g₁, runAs bootKernel 1
        [.mmap 0 4096 3 2 0 0, .fault 0x40000000 true] = .ok k
      ∧ execBuild (k.proc 1) k.glob [47, 115, 104] [[115, 104]]
          = .ok (some img, g₁)
      ∧ kexec (k.proc 1) k.glob [47, 115, 104] [[115, 104]]
          = .error .freewalk)
    ∧ ∃ k p' g', runAs bootKernel 1 [.mmap 0 4096 3 2 0 0] = .ok k
      ∧ kexec (k.proc 1) k.glob [47, 115, 104] [[115, 104]] = .ok (1, p', g')
      ∧ (p'.vma 0).valid = true :=
  ⟨⟨_, _, _, rfl, rfl, rfl⟩, _, _, _, rfl, rfl, rfl⟩

end Xv6Labs.Model
