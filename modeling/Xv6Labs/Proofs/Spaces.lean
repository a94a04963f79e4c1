/-
Address spaces, made and freed: proc_pagetable, uvmcopy, uvmfree and
proc_freepagetable, which needs every leaf but the top two to be below `sz`
and nothing else (`procFreepagetable_iff`).
-/
import Xv6Labs.Model.Boot
import Xv6Labs.Proofs.Pages

namespace Xv6Labs.Model

open Lib Finset

variable {pt : PageTable} {ph ph' : Phys} {n sz : Nat}
variable {base : Nat} {e : Pte} {pt' : PageTable}

/-- The page number of the trampoline. -/
abbrev trampPage : Nat := trampoline / pgSize

/-- The page number of the trapframe. -/
abbrev tfPage : Nat := trapframe / pgSize

-- == uvmfree

/-- uvmfree is the page loop up to `PGROUNDUP(sz)`, then freewalk. -/
theorem uvmfree_eq (pt : PageTable) (ph : Phys) (sz : Nat) :
    uvmfree pt ph sz =
      forUpto (unmapPage 0 true) (pgRoundUp sz / pgSize) (pt, ph) >>=
        fun s => freewalk s.1 s.2 := by
  by_cases hsz : 0 < sz
  · have hlt : pgRoundUp sz < 2 ^ 64 := by
      unfold pgRoundUp u64 pgSize
      omega
    have hmod := pgRoundUp_mod sz
    have hu : u64 (((0 : Nat) : Int)
        + ((pgRoundUp sz / pgSize : Nat) : Int) * (pgSize : Int)) = pgRoundUp sz := by
      refine u64_of_lt ?_ hlt
      unfold pgSize
      omega
    have hn : pagesBelow 0 (pgRoundUp sz) = pgRoundUp sz / pgSize := by
      unfold pagesBelow pgSize
      omega
    simp only [uvmfree, if_pos hsz, uvmunmap, Nat.zero_mod, ne_eq,
      not_true_eq_false, if_false, hu, hn]
  · have hz : sz = 0 := by omega
    subst hz
    rfl

/-- A finished uvmfree found every leaf below the size, and returned the
pages of the leaves and of the table. -/
theorem uvmfree_ok (hw : pt.Wf) (h : uvmfree pt ph sz = .ok ph') : pgRoundUp sz ≤ maxVa
    ∧ (∀ n, (pt.leaf n).isSome → n < pgRoundUp sz / pgSize) ∧ ph'.kend = ph.kend
    ∧ ∀ x, ph'.freelist.count x = ph.freelist.count x + pt.tables x
      + ∑ n ∈ range (pgRoundUp sz / pgSize), ptePoints (pt.leaf n) x := by
  rw [uvmfree_eq] at h
  obtain ⟨⟨pt1, ph1⟩, h1, h⟩ := bind_ok h
  obtain ⟨rfl, hk1, hlt, hc1⟩ := unmapPages_free hw h1
  obtain ⟨hnone, hk, hc⟩ := freewalk_ok (hw.clear _ _) h
  have hmod := pgRoundUp_mod sz
  simp only [Nat.zero_div, Nat.zero_add] at hnone hc hc1 hlt
  refine ⟨?_, fun n hn => ?_, hk.trans hk1, fun x => ?_⟩
  · by_contra hgt
    have := hlt (maxVa / pgSize) (by unfold maxVa pgSize at *; omega)
    unfold maxVa pgSize at this
    omega
  · by_contra hge
    have := hnone n
    simp only [PageTable.clear] at this
    rw [if_neg (by omega)] at this
    rw [this] at hn
    cases hn
  · have ht : (pt.clear 0 (pgRoundUp sz / pgSize)).tables x = pt.tables x := rfl
    have := hc x
    have := hc1 x
    omega

/-- What a table needs for its pages to be freed: it is a tree, and its
own pages and those of its user leaves are pages of the allocator. -/
structure PageTable.Valid (pt : PageTable) (ph : Phys) : Prop where
  wf : pt.Wf
  tables : ∀ x, 0 < pt.tables x → ph.isPage x
  leaf : ∀ n e, pt.leaf n = some e → n ≠ trampPage → n ≠ tfPage → ph.isPage e.pa

theorem PageTable.Valid.congr (h : pt.Valid ph) (hk : ph'.kend = ph.kend) : pt.Valid ph' :=
  ⟨h.wf, fun x hx => (Phys.isPage_congr hk x).mpr (h.tables x hx),
    fun n e he h1 h2 => (Phys.isPage_congr hk e.pa).mpr (h.leaf n e he h1 h2)⟩

/-- The pages a table uses are those its three levels name. -/
theorem tables_pos {x : Nat} (h : 0 < pt.tables x) :
    x = pt.root ∨ (∃ i, pt.mid i = some x) ∨ ∃ k, pt.low k = some x := by
  have hpoint : ∀ {o : Option Nat}, 0 < points o x → o = some x := by
    intro o ho
    by_contra hne
    simp [points, hne] at ho
  unfold PageTable.tables at h
  rcases Nat.eq_zero_or_pos (points (some pt.root) x) with hz | hpos
  · rw [hz, Nat.zero_add] at h
    obtain ⟨i, _, hi⟩ := exists_row_pos h
    rcases Nat.eq_zero_or_pos (points (pt.mid i) x) with hz' | hpos'
    · rw [hz', Nat.zero_add] at hi
      obtain ⟨j, _, hj⟩ := exists_row_pos hi
      exact .inr (.inr ⟨_, hpoint hj⟩)
    · exact .inr (.inl ⟨i, hpoint hpos'⟩)
  · exact .inl (Option.some.inj (hpoint hpos)).symm

theorem bootTable_leaf (he : (bootTable base).leaf n = some e) : n = trampPage ∨ n = tfPage := by
  simp only [bootTable] at he
  split at he
  · next hn => exact .inl hn
  · split at he
    · next hn => exact .inr hn
    · cases he

theorem bootTable_valid (h0 : ph.isPage base)
    (h1 : ph.isPage (base + 0x1000)) (h2 : ph.isPage (base + 0x2000)) :
    (bootTable base).Valid ph := by
  have hmid : ∀ i t, (bootTable base).mid i = some t → i = 255 ∧ t = base + 0x1000 := by
    intro i t ht
    simp only [bootTable] at ht
    split at ht
    · next hi => exact ⟨hi, (Option.some.inj ht).symm⟩
    · cases ht
  have hlow : ∀ k t, (bootTable base).low k = some t → k = 131071 ∧ t = base + 0x2000 := by
    intro k t ht
    simp only [bootTable] at ht
    split at ht
    · next hk => exact ⟨hk, (Option.some.inj ht).symm⟩
    · cases ht
  refine ⟨⟨fun n hn => ?_, fun k hk => ?_, fun i hi => ?_⟩, fun x hx => ?_, fun n e he h1 h2 => ?_⟩
  · obtain ⟨e, he⟩ := Option.isSome_iff_exists.mp hn
    rcases bootTable_leaf he with rfl | rfl <;> rfl
  · obtain ⟨t, ht⟩ := Option.isSome_iff_exists.mp hk
    rw [(hlow k t ht).1]
    rfl
  · obtain ⟨t, ht⟩ := Option.isSome_iff_exists.mp hi
    have := (hmid i t ht).1
    omega
  · rcases tables_pos hx with rfl | ⟨i, hi⟩ | ⟨k, hk⟩
    · exact h0
    · exact (hmid i x hi).2 ▸ h1
    · exact (hlow k x hk).2 ▸ h2
  · rcases bootTable_leaf he with h | h
    · exact absurd h h1
    · exact absurd h h2

theorem uvmfree_total (hw : pt.Wf) (htab : ∀ x, 0 < pt.tables x → ph.isPage x)
    (hleaf : ∀ n e, pt.leaf n = some e → ph.isPage e.pa) (hmax : pgRoundUp sz ≤ maxVa)
    (hlow : ∀ n, (pt.leaf n).isSome → n < pgRoundUp sz / pgSize) :
    ∃ ph', uvmfree pt ph sz = .ok ph' := by
  rw [uvmfree_eq]
  obtain ⟨⟨pt1, ph1⟩, h1⟩ := unmapPages_total ph 0 (pgRoundUp sz / pgSize) hw
    (fun k hk => by unfold maxVa pgSize at *; omega) (fun k e _ he => hleaf _ e he)
  obtain ⟨rfl, hk1, _, _⟩ := unmapPages_free hw h1
  rw [h1, ok_bind]
  refine freewalk_total (fun n => ?_) (fun x hx => ?_)
  · simp only [PageTable.clear]
    split
    · rfl
    · next hout =>
      by_contra hne
      have := hlow n (Option.isSome_iff_ne_none.mpr hne)
      rw [Nat.zero_div] at hout
      omega
  · exact (Phys.isPage_congr hk1 x).mpr (htab x hx)

-- == proc_freepagetable

/-- The table without the two pages every address space has on top. -/
def PageTable.bare (pt : PageTable) : PageTable := (pt.setLeaf trampPage none).setLeaf tfPage none

theorem PageTable.Wf.bare (h : pt.Wf) : pt.bare.Wf := (h.setLeaf_none _).setLeaf_none _

theorem bare_leaf (pt : PageTable) (n : Nat) :
    pt.bare.leaf n = if n = tfPage ∨ n = trampPage then none else pt.leaf n := by
  simp only [PageTable.bare, setLeaf_leaf]
  by_cases h1 : n = tfPage <;> by_cases h2 : n = trampPage <;> simp [h1, h2]

@[simp] theorem bare_tables (pt : PageTable) (x : Nat) : pt.bare.tables x = pt.tables x := rfl

theorem dropLeaf_false (pt : PageTable) (ph : Phys) (n : Nat) :
    dropLeaf pt ph n false = .ok (pt.setLeaf n none, ph) := by
  cases h : pt.leaf n with
  | none => rw [dropLeaf_none h, setLeaf_none_of_none h]
  | some e => exact dropLeaf_keep h

theorem procFreepagetable_eq (hw : pt.Wf) (ph : Phys) (sz : Nat) :
    procFreepagetable pt ph sz = uvmfree pt.bare ph sz := by
  simp only [procFreepagetable]
  rw [uvmunmap_one hw (by decide) (by decide), dropLeaf_false, ok_bind]
  rw [uvmunmap_one (hw.setLeaf_none _) (by decide) (by decide), dropLeaf_false]
  rfl

/-- Every leaf is below the size, or one of the two on top. -/
def PageTable.Below (pt : PageTable) (sz : Nat) : Prop :=
  ∀ n, (pt.leaf n).isSome → n < pgRoundUp sz / pgSize ∨ n = trampPage ∨ n = tfPage

theorem bootTable_below (base sz : Nat) : (bootTable base).Below sz := by
  intro n hn
  obtain ⟨e, he⟩ := Option.isSome_iff_exists.mp hn
  exact .inr (bootTable_leaf he)

theorem below_bare : pt.Below sz ↔ ∀ n, (pt.bare.leaf n).isSome → n < pgRoundUp sz / pgSize := by
  refine forall_congr' fun n => ?_
  rw [bare_leaf]
  by_cases h : n = tfPage ∨ n = trampPage
  · simp only [if_pos h, Option.isSome_none, Bool.false_eq_true, false_imp_iff, iff_true]
    intro _
    omega
  simp only [if_neg h]
  constructor
  · intro himp hs
    rcases himp hs with hlt | heq | heq
    · exact hlt
    · exact absurd (.inr heq) h
    · exact absurd (.inl heq) h
  · exact fun himp hs => .inl (himp hs)

/-- proc_freepagetable of a valid table finishes exactly when nothing is
mapped above the size. -/
theorem procFreepagetable_iff (hv : pt.Valid ph) :
    (∃ ph', procFreepagetable pt ph sz = .ok ph') ↔ pgRoundUp sz ≤ maxVa ∧ pt.Below sz := by
  rw [procFreepagetable_eq hv.wf, below_bare]
  constructor
  · rintro ⟨ph', h⟩
    obtain ⟨hmax, hlow, _⟩ := uvmfree_ok hv.wf.bare h
    exact ⟨hmax, hlow⟩
  rintro ⟨hmax, hlow⟩
  refine uvmfree_total hv.wf.bare hv.tables (fun n e he => ?_) hmax hlow
  rw [bare_leaf] at he
  split at he
  · cases he
  · next hn =>
    exact hv.leaf n e he (fun h => hn (.inr h)) (fun h => hn (.inl h))

/-- Pages of the user leaves of a table. -/
def PageTable.pages (pt : PageTable) (x : Nat) : Nat :=
  ∑ n ∈ range (2 ^ 26), ptePoints (pt.bare.leaf n) x

theorem pages_congr (h : pt'.leaf = pt.leaf) : pt'.pages = pt.pages := by
  unfold PageTable.pages
  simp only [bare_leaf, h]

/-- A page that counts is that of a user leaf. -/
theorem exists_leaf_of_pages {x : Nat} (h : 0 < pt.pages x) :
    ∃ n e, ¬ (n = tfPage ∨ n = trampPage) ∧ pt.leaf n = some e ∧ e.pa = x := by
  obtain ⟨n, _, hn⟩ := exists_row_pos h
  rw [bare_leaf] at hn
  split at hn
  · exact absurd hn (Nat.lt_irrefl 0)
  · next htop =>
    cases he : pt.leaf n with
    | none =>
      rw [he] at hn
      exact absurd hn (Nat.lt_irrefl 0)
    | some e =>
      refine ⟨n, e, htop, he, ?_⟩
      by_contra hne
      simp [he, ptePoints, points, hne] at hn

/-- A page is mapped that was not. -/
theorem pages_install (hn : n < 2 ^ 26)
    (hu : n ≠ tfPage ∧ n ≠ trampPage) (hnone : pt.leaf n = none)
    (hl : ∀ m, pt'.leaf m = if m = n then some e else pt.leaf m) (x : Nat) :
    pt'.pages x = pt.pages x + points (some e.pa) x := by
  have hx := sum_exchange (f := fun m => ptePoints (pt'.bare.leaf m) x)
    (g := fun m => ptePoints (pt.bare.leaf m) x) hn (fun m _ hm => by
      rw [bare_leaf, bare_leaf, hl m, if_neg hm])
  have hold : pt.bare.leaf n = none := by
    rw [bare_leaf, hnone]
    exact ite_self _
  have hnew : pt'.bare.leaf n = some e := by
    rw [bare_leaf, if_neg (not_or.mpr hu), hl n, if_pos (Eq.refl n)]
  rw [hold, hnew, ptePoints_none, Nat.add_zero] at hx
  exact hx

/-- A page is unmapped. -/
theorem pages_remove (pt : PageTable) (hn : n < 2 ^ 26) (x : Nat) :
    (pt.setLeaf n none).pages x + ptePoints (pt.bare.leaf n) x = pt.pages x := by
  have hx := sum_exchange (f := fun m => ptePoints ((pt.setLeaf n none).bare.leaf m) x)
    (g := fun m => ptePoints (pt.bare.leaf m) x) hn (fun m _ hm => by
      rw [bare_leaf, bare_leaf, setLeaf_leaf, if_neg hm])
  have hnew : (pt.setLeaf n none).bare.leaf n = none := by
    rw [bare_leaf, setLeaf_leaf, if_pos (Eq.refl n)]
    exact ite_self _
  rw [hnew, ptePoints_none, Nat.add_zero] at hx
  exact hx

theorem pages_clear (pt : PageTable) {lo : Nat} (hn : lo + n ≤ tfPage) (x : Nat) :
    (pt.clear lo n).pages x + ∑ k ∈ range n, ptePoints (pt.leaf (lo + k)) x = pt.pages x := by
  induction n with
  | zero => rw [PageTable.clear_zero, sum_range_zero, Nat.add_zero]
  | succ n ih =>
    have htf : tfPage < trampPage ∧ trampPage < 2 ^ 26 := by decide
    have hrem := pages_remove (pt.clear lo n) (n := lo + n) (by omega) x
    have hleaf : (pt.clear lo n).bare.leaf (lo + n) = pt.leaf (lo + n) := by
      rw [bare_leaf, if_neg (by omega)]
      exact if_neg (by omega)
    rw [PageTable.clear_succ, hleaf] at hrem
    rw [sum_range_succ]
    omega

/-- A finished proc_freepagetable returned every page of the space. -/
theorem procFreepagetable_ledger (hw : pt.Wf) (h : procFreepagetable pt ph sz = .ok ph') :
    ph'.kend = ph.kend ∧ ∀ x, ph'.freelist.count x
      = ph.freelist.count x + pt.tables x + pt.pages x := by
  rw [procFreepagetable_eq hw] at h
  obtain ⟨hmax, hlow, hk, hc⟩ := uvmfree_ok hw.bare h
  refine ⟨hk, fun x => ?_⟩
  -- the pages that the loop did not visit are not mapped
  have hrest : pt.pages x = ∑ n ∈ range (pgRoundUp sz / pgSize), ptePoints (pt.bare.leaf n) x := by
    have hsub : range (pgRoundUp sz / pgSize) ⊆ range (2 ^ 26) := by
      refine range_subset_range.mpr ?_
      unfold maxVa at hmax
      unfold pgSize
      omega
    refine (sum_subset hsub fun n _ hn => ?_).symm
    rw [mem_range] at hn
    cases hl : pt.bare.leaf n with
    | none => rfl
    | some e =>
      have := hlow n (by rw [hl]; rfl)
      omega
  rw [hrest, hc x, bare_tables]

end Xv6Labs.Model
