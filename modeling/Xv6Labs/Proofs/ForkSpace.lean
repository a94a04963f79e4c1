/-
The address space of a fork: proc_pagetable, uvmcopy and freeproc. One
conservation law for each says that no page is lost or doubled on any path.
-/
import Xv6Labs.Proofs.Spaces
import Xv6Labs.Proofs.Fork

namespace Xv6Labs.Model

open Lib Finset

variable {ph ph' : Phys} {pt : PageTable} {tf : Nat}
variable {new old : PageTable} {ph0 : Phys} {p p' : Proc} {k k' : Kernel}

-- == proc_pagetable

theorem empty_tables (r x : Nat) : (PageTable.empty r).tables x = points (some r) x := by
  simp [PageTable.tables, PageTable.empty]

theorem uvmcreate_some (h : uvmcreate ph = (some pt, ph')) :
    pt = .empty pt.root ∧ pt.root ∈ ph.freelist ∧ ph.Takes ph'
      ∧ ∀ x, ph'.freelist.count x + pt.tables x = ph.freelist.count x := by
  simp only [uvmcreate] at h
  split at h
  · cases h
  · next r ph1 halloc =>
    cases h
    refine ⟨rfl, (kalloc_some halloc).1 ▸ List.mem_cons_self, kalloc_zero_takes halloc, fun x => ?_⟩
    have := kalloc_count halloc x
    rw [empty_tables]
    exact this.symm

/-- The entries of a new address space. -/
structure FreshTable (pt : PageTable) (tf : Nat) : Prop where
  wf : pt.Wf
  top : ∀ n, (pt.leaf n).isSome = true → n = trampPage ∨ n = tfPage
  frame : ∃ e, pt.leaf tfPage = some e ∧ e.pa = tf

theorem FreshTable.low (h : FreshTable pt tf) (n : Nat) (hn : n < tfPage) : pt.leaf n = none := by
  have htf : tfPage < trampPage := by decide
  by_contra hne
  have := h.top n (Option.isSome_iff_ne_none.mpr hne)
  omega

/-- A new address space has no user page. -/
theorem FreshTable.pages (h : FreshTable pt tf) (x : Nat) : pt.pages x = 0 := by
  refine sum_zero fun n _ => ?_
  have hnone : pt.bare.leaf n = none := by
    rw [bare_leaf]
    by_cases hn : n = tfPage ∨ n = trampPage
    · exact if_pos hn
    · rw [if_neg hn]
      by_contra hne
      exact hn (h.top n (Option.isSome_iff_ne_none.mpr hne)).symm
  rw [hnone, ptePoints_none]

theorem procPagetable_some (h : procPagetable ph tf = .ok (some pt, ph')) :
    FreshTable pt tf ∧ pt.root ∈ ph.freelist ∧ ph.Takes ph'
      ∧ ∀ x, ph'.freelist.count x + pt.tables x = ph.freelist.count x := by
  simp only [procPagetable] at h
  split at h
  · cases h
  · next pt0 ph0 hcreate =>
    obtain ⟨hempty, hroot, htake0, hc0⟩ := uvmcreate_some hcreate
    have hw0 : pt0.Wf := hempty ▸ wf_empty _
    obtain ⟨⟨ok1, pt1, ph1⟩, h1, h⟩ := bind_ok h
    obtain ⟨_, _, q1, hg1, hw1, hres1⟩ := mappages_one_spec hw0 (by decide) h1
    rcases hres1 with ⟨rfl, rfl⟩ | ⟨rfl, _, rfl⟩
    · obtain ⟨ph2, _, h⟩ := bind_ok h
      cases h
    simp only [if_true] at h
    obtain ⟨⟨ok2, pt2, ph2⟩, h2, h⟩ := bind_ok h
    obtain ⟨_, _, q2, hg2, hw2, hres2⟩ := mappages_one_spec hw1 (by decide) h2
    rcases hres2 with ⟨rfl, rfl⟩ | ⟨rfl, _, rfl⟩
    · obtain ⟨⟨pt3, ph3⟩, _, h⟩ := bind_ok h
      obtain ⟨ph4, _, h⟩ := bind_ok h
      cases h
    cases h
    refine ⟨⟨hw2, fun n hn => ?_, ?_⟩, ?_, htake0.trans (hg1.takes.trans hg2.takes), fun x => ?_⟩
    · -- the table was empty before the two entries
      rw [setLeaf_leaf, hg2.leaf, setLeaf_leaf, hg1.leaf, hempty] at hn
      split at hn
      · next heq => exact .inr heq
      · split at hn
        · next heq => exact .inl heq
        · cases hn
    · rw [setLeaf_leaf]
      exact ⟨_, rfl, rfl⟩
    · have hr : (q2.setLeaf (trapframe / pgSize)
          (some ⟨tf, { r := true, w := true, x := false, u := false }⟩)).root
          = pt0.root := hg2.root.trans hg1.root
      rw [hr]
      exact hroot
    · have hl1 := hg1.ledger x
      have hl2 := hg2.ledger x
      have hc := hc0 x
      rw [setLeaf_tables] at hl2 ⊢
      dsimp only
      omega

theorem uvmfree_empty (hw : pt.Wf) (h : uvmfree pt ph 0 = .ok ph') (x : Nat) :
    ph'.freelist.count x = ph.freelist.count x + pt.tables x := by
  obtain ⟨_, _, _, hc⟩ := uvmfree_ok hw h
  have hz : pgRoundUp 0 / pgSize = 0 := by decide
  rw [hc x, hz, sum_range_zero, Nat.add_zero]

theorem procPagetable_none (h : procPagetable ph tf = .ok (none, ph'))
    (x : Nat) : ph'.freelist.count x = ph.freelist.count x := by
  simp only [procPagetable] at h
  split at h
  · next ph0 hcreate =>
    cases h
    simp only [uvmcreate] at hcreate
    split at hcreate
    · next halloc =>
      cases hcreate
      rw [(kalloc_none halloc).1]
    · cases hcreate
  · next pt0 ph0 hcreate =>
    obtain ⟨hempty, _, _, hc0⟩ := uvmcreate_some hcreate
    have hw0 : pt0.Wf := hempty ▸ wf_empty _
    have hc := hc0 x
    obtain ⟨⟨ok1, pt1, ph1⟩, h1, h⟩ := bind_ok h
    obtain ⟨_, _, q1, hg1, hw1, hres1⟩ := mappages_one_spec hw0 (by decide) h1
    have hl1 := hg1.ledger x
    rcases hres1 with ⟨rfl, rfl⟩ | ⟨rfl, _, rfl⟩
    · obtain ⟨ph2, hfree, h⟩ := bind_ok h
      cases h
      have := uvmfree_empty hw1 hfree x
      dsimp only at this
      omega
    simp only [if_true] at h
    obtain ⟨⟨ok2, pt2, ph2⟩, h2, h⟩ := bind_ok h
    obtain ⟨_, _, q2, hg2, hw2, hres2⟩ := mappages_one_spec hw1 (by decide) h2
    have hl2 := hg2.ledger x
    rw [setLeaf_tables] at hl2
    rcases hres2 with ⟨rfl, rfl⟩ | ⟨rfl, _, rfl⟩
    · obtain ⟨⟨pt3, ph3⟩, hun, h⟩ := bind_ok h
      obtain ⟨ph4, hfree, h⟩ := bind_ok h
      cases h
      rw [uvmunmap_one hw2 (by decide) (by decide), dropLeaf_false] at hun
      cases hun
      have := uvmfree_empty (hw2.setLeaf_none _) hfree x
      rw [setLeaf_tables] at this
      dsimp only at this
      omega
    · cases h

-- == uvmcopy

/-- The child's table after `k` turns of uvmcopy: the pages below `k` are
those of the parent, at fresh addresses. -/
structure Copying (old new : PageTable) (ph₀ : Phys) (k : Nat)
    (pt : PageTable) (ph : Phys) : Prop where
  wf : pt.Wf
  root : pt.root = new.root
  above : ∀ n, k ≤ n → pt.leaf n = new.leaf n
  below : ∀ n, n < k → (pt.leaf n).map Pte.perm = (old.leaf n).map Pte.perm
  ledger : ∀ x, ph.freelist.count x + pt.tables x + pt.pages x
    = ph₀.freelist.count x + new.tables x + new.pages x

/-- One turn: the next page is copied or absent, or the loop leaves with
what it has. -/
theorem copyPage_copying {k : Nat}
    {s : PageTable × Phys}
    {o : (PageTable × Phys) ⊕ (Nat × PageTable × Phys)} (hold : old.Wf)
    (hk : k < tfPage) (hnew : new.leaf k = none)
    (hc : Copying old new ph0 k s.1 s.2) (h : copyPage old k s = .ok o) :
    (∃ t, o = .inl t ∧ Copying old new ph0 (k + 1) t.1 t.2)
    ∨ ∃ pt ph, o = .inr (k, pt, ph) ∧ Copying old new ph0 k pt ph := by
  have htf : tfPage < trampPage ∧ trampPage < 2 ^ 26 := by decide
  have hdiv : k * pgSize / pgSize = k := Nat.mul_div_cancel k (by decide)
  have hva : k * pgSize < maxVa := by
    unfold pgSize maxVa
    omega
  obtain ⟨oe, hwalk, h⟩ := bind_ok h
  rw [walkValid_eq hold hva, hdiv] at hwalk
  have hnone : s.1.leaf k = none := by rw [hc.above k (Nat.le_refl k), hnew]
  cases oe with
  | none =>
    cases h
    refine .inl ⟨s, rfl, hc.wf, hc.root, fun n hn => hc.above n (by omega),
      fun n hn => ?_, hc.ledger⟩
    rcases Nat.lt_succ_iff_lt_or_eq.mp hn with hlt | rfl
    · exact hc.below n hlt
    · rw [hnone, Except.ok.inj hwalk]
  | some e =>
    dsimp only at h
    split at h
    · next ph halloc =>
      cases h
      refine .inr ⟨_, _, rfl, ?_⟩
      rw [(kalloc_none halloc).1]
      exact hc
    · next mem ph halloc =>
      obtain ⟨⟨ok, pt1, ph1⟩, hmap, h⟩ := bind_ok h
      have hlt : k * pgSize < 2 ^ 64 := by
        unfold maxVa at hva
        omega
      obtain ⟨_, _, q, hg, hwf, hres⟩ := mappages_one_spec hc.wf hlt hmap
      rw [hdiv] at hres
      have hcount := fun x => kalloc_count halloc x
      rcases hres with ⟨rfl, rfl⟩ | ⟨rfl, _, rfl⟩
      · -- no room for a table: the page goes back
        obtain ⟨ph2, hfree, h⟩ := bind_ok h
        cases h
        refine .inr ⟨_, _, rfl, hwf, hg.root.trans hc.root, fun n hn => ?_,
          fun n hn => ?_, fun x => ?_⟩
        · rw [hg.leaf]
          exact hc.above n hn
        · rw [hg.leaf]
          exact hc.below n hn
        have hpages := congrFun (pages_congr hg.leaf) x
        have h1 := hc.ledger x
        have h2 := hg.ledger x
        have h3 := kfree_count hfree x
        have h4 := hcount x
        dsimp only at *
        omega
      · cases h
        have hleaf : ∀ m, (q.setLeaf k (some ⟨mem, e.perm⟩)).leaf m
            = if m = k then some ⟨mem, e.perm⟩ else s.1.leaf m := by
          intro m
          rw [setLeaf_leaf, hg.leaf]
        refine .inl ⟨_, rfl, hwf, hg.root.trans hc.root, fun n hn => ?_,
          fun n hn => ?_, fun x => ?_⟩
        · rw [hleaf, if_neg (by omega)]
          exact hc.above n (by omega)
        · rw [hleaf]
          rcases Nat.lt_succ_iff_lt_or_eq.mp hn with hlt' | rfl
          · rw [if_neg (by omega)]
            exact hc.below n hlt'
          · rw [if_pos (Eq.refl n), Except.ok.inj hwalk]
            rfl
        · have hpages := pages_install (show k < 2 ^ 26 by omega) ⟨by omega, by omega⟩ hnone hleaf x
          have h1 := hc.ledger x
          have h2 := hg.ledger x
          have h4 := hcount x
          rw [setLeaf_tables]
          dsimp only at *
          omega

/-- uvmcopy: the whole range is copied, or what was copied is freed
again. -/
theorem uvmcopy_spec {sz : Nat} {b : Bool}
    (hold : old.Wf) (hw : new.Wf) (hsz : sz ≤ mmapBase) (hnew : ∀ n, n < tfPage → new.leaf n = none)
    (h : uvmcopy old new ph0 sz = .ok (b, pt, ph)) : pt.Wf ∧ pt.root = new.root
    ∧ (b = true → Copying old new ph0 (pagesBelow 0 sz) pt ph)
    ∧ (b = false → ∀ x, ph.freelist.count x + pt.tables x + pt.pages x
        = ph0.freelist.count x + new.tables x + new.pages x) := by
  have hN : pagesBelow 0 sz ≤ 262144 := by
    unfold mmapBase at hsz
    unfold pagesBelow pgSize
    omega
  have htf : 262144 < tfPage := by decide
  obtain ⟨o, ho, h⟩ := bind_ok h
  have hstart : Copying old new ph0 0 new ph0 :=
    ⟨hw, rfl, fun _ _ => rfl, fun n hn => absurd hn (Nat.not_lt_zero n), fun _ => rfl⟩
  have hc := Ensures.forRet (fun k t => Copying old new ph0 k t.1 t.2)
    (fun r => r.1 ≤ pagesBelow 0 sz ∧ Copying old new ph0 r.1 r.2.1 r.2.2) hstart
    (fun k hk t hc o hf => by
      rcases copyPage_copying hold (by omega) (hnew k (by omega)) hc hf with
        ⟨u, rfl, hcu⟩ | ⟨pt', ph', rfl, hcu⟩
      · exact hcu
      · exact ⟨hk.le, hcu⟩) o ho
  rcases o with ⟨pt1, ph1⟩ | ⟨k, pt1, ph1⟩
  · cases h
    exact ⟨hc.wf, hc.root, fun _ => hc, fun hb => by cases hb⟩
  -- the error path unmaps the pages below `k`
  obtain ⟨⟨pt2, ph2⟩, hun, h⟩ := bind_ok h
  cases h
  obtain ⟨hk, hc⟩ := hc
  dsimp only at hk hc
  have hu : u64 (((0 : Nat) : Int) + (k : Int) * (pgSize : Int)) = k * pgSize := by
    refine u64_of_lt (by simp) ?_
    unfold pgSize
    omega
  have hn : pagesBelow 0 (k * pgSize) = k := by
    unfold pagesBelow pgSize
    omega
  simp only [uvmunmap, Nat.zero_mod, ne_eq, not_true_eq_false, if_false, hu, hn] at hun
  obtain ⟨rfl, _, _, hcount⟩ := unmapPages_free hc.wf hun
  simp only [Nat.zero_div] at hcount ⊢
  refine ⟨hc.wf.clear 0 k, hc.root, fun hb => absurd hb Bool.false_ne_true, fun _ x => ?_⟩
  have h1 := hc.ledger x
  have h2 := pages_clear pt1 (show 0 + k ≤ tfPage by omega) x
  have h3 := hcount x
  have h4 : (pt1.clear 0 k).tables x = pt1.tables x := rfl
  omega

-- == freeproc

/-- freeproc returns the pages of the process. -/
theorem freeproc_ledger (hw : p.pagetable.Wf)
    (htf : p.trapframe ≠ 0) (hroot : p.pagetable.root ≠ 0)
    (h : freeproc p ph = .ok (p', ph')) (x : Nat) :
    ph'.freelist.count x = ph.freelist.count x + points (some p.trapframe) x + p.pagetable.tables x
      + p.pagetable.pages x := by
  obtain ⟨ph1, h1, h⟩ := bind_ok h
  obtain ⟨ph2, h2, h⟩ := bind_ok h
  cases h
  rw [if_neg htf] at h1
  rw [if_neg hroot] at h2
  have hc1 := kfree_count h1 x
  have hc2 := (procFreepagetable_ledger hw h2).2 x
  omega

/-- freeproc of a slot that got no table. -/
theorem freeproc_no_table (hroot : p.pagetable.root = 0)
    (h : freeproc p ph = .ok (p', ph')) (x : Nat) :
    ph'.freelist.count x = ph.freelist.count x
      + if p.trapframe = 0 then 0 else points (some p.trapframe) x := by
  obtain ⟨ph1, h1, h⟩ := bind_ok h
  obtain ⟨ph2, h2, h⟩ := bind_ok h
  cases h
  rw [if_pos hroot] at h2
  cases h2
  split at h1
  · next h0 =>
    cases h1
    rw [if_pos h0, Nat.add_zero]
  · next h0 =>
    rw [if_neg h0]
    exact kfree_count h1 x

-- == failed forks

/-- An allocproc that finds no memory leaves the free list as it was. -/
theorem allocproc_none_free
    (hfree : ∀ j, (k.proc j).state = .unused → (k.proc j).pagetable.root = 0)
    (hz : 0 ∉ k.glob.phys.freelist) (h : allocproc k = .ok (none, k')) (x : Nat) :
    k'.glob.phys.freelist.count x = k.glob.phys.freelist.count x := by
  simp only [allocproc] at h
  split at h
  · cases h
    rfl
  · next j hfind =>
    have hst := of_decide_eq_true (List.find?_range_eq_some.mp hfind).1
    split at h
    · next ph1 halloc =>
      obtain ⟨⟨q, ph⟩, hq, h⟩ := bind_ok h
      cases h
      have hroot : ({ (k.proc j).fresh k.nextpid with trapframe := 0 } :
          Proc).pagetable.root = 0 := hfree j hst
      have hc := freeproc_no_table hroot hq x
      rw [if_pos (Eq.refl 0), (kalloc_none halloc).1] at hc
      exact hc
    · next tf ph1 halloc =>
      have htf : tf ≠ 0 := by
        rintro rfl
        exact hz ((kalloc_some halloc).1 ▸ List.mem_cons_self)
      obtain ⟨⟨o, ph⟩, hpt, h⟩ := bind_ok h
      cases o with
      | some pt => cases h
      | none =>
        obtain ⟨⟨q, ph'⟩, hq, h⟩ := bind_ok h
        cases h
        have hc := freeproc_no_table (Eq.refl 0) hq x
        have h1 := procPagetable_none hpt x
        have h2 := kalloc_count halloc x
        dsimp only at hc
        rw [if_neg htf] at hc
        rw [Kernel.put_glob]
        dsimp only
        omega

/-- A fork that returns -1 leaves the free list as it was. -/
theorem kfork_none_free {i : Nat}
    (hw : (k.proc i).pagetable.Wf) (hsz : (k.proc i).sz ≤ mmapBase)
    (hfree : ∀ j, (k.proc j).state = .unused → (k.proc j).pagetable.root = 0)
    (hz : 0 ∉ k.glob.phys.freelist) (h : kfork k i = .ok (none, k')) (x : Nat) :
    k'.glob.phys.freelist.count x = k.glob.phys.freelist.count x := by
  obtain ⟨⟨o, k1⟩, h1, h⟩ := bind_ok h
  cases o with
  | none =>
    cases h
    exact allocproc_none_free hfree hz h1 x
  | some j =>
    obtain ⟨⟨ok, pt, ph⟩, hcopy, h⟩ := bind_ok h
    cases ok with
    | true =>
      obtain ⟨s, _, h⟩ := bind_ok h
      cases h
    | false =>
      obtain ⟨⟨q, ph'⟩, hq, h⟩ := bind_ok h
      cases h
      obtain ⟨_, _, tf, ph1, pt0, ph0, halloc, hpt, rfl⟩ := allocproc_some h1
      obtain ⟨hfresh, hroot, _, hc0⟩ := procPagetable_some hpt
      rw [Kernel.put_self] at hcopy hq
      have hcopy : uvmcopy (k.proc i).pagetable pt0 ph0 (k.proc i).sz = .ok (false, pt, ph) := hcopy
      obtain ⟨hw', hroot', _, hled⟩ := uvmcopy_spec hw hfresh.wf hsz
        (fun n hn => hfresh.low n hn) hcopy
      have hmem := (kalloc_some halloc).1
      have htf : tf ≠ 0 := by
        rintro rfl
        exact hz (hmem ▸ List.mem_cons_self)
      have hr : pt.root ≠ 0 := by
        intro h0
        rw [hroot'] at h0
        rw [h0] at hroot
        exact hz (hmem ▸ List.mem_cons_of_mem _ hroot)
      have h2 : ph'.freelist.count x = ph.freelist.count x
          + points (some tf) x + pt.tables x + pt.pages x :=
        freeproc_ledger hw' htf hr hq x
      have h3 := hled rfl x
      have h4 := hc0 x
      have h5 := kalloc_count halloc x
      have h6 := hfresh.pages x
      show ph'.freelist.count x = _
      omega

end Xv6Labs.Model
