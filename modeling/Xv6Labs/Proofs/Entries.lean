/-
A page table as the hardware reads it.

`PageTable.entry` is the valid PTE of a page, found through the tables
above it; the theorems hold of every table, whether its maps are a tree or
not.
-/
import Xv6Labs.Proofs.Pages

namespace Xv6Labs.Model

open Lib

variable {pt pt' : PageTable} {va : Nat} {ph ph' : Phys}
variable {n pa : Nat} {perm : Perm} {f : Bool}

-- == the entry

/-- The valid PTE of page `n`, if the tables above it are there. -/
def PageTable.entry (pt : PageTable) (n : Nat) : Option Pte :=
  if (pt.mid (n / 2 ^ 18)).isSome ∧ (pt.low (n / 512)).isSome then pt.leaf n
  else none

theorem page_of_va (va : Nat) :
    va / 2 ^ 30 = va / pgSize / 2 ^ 18 ∧ va / 2 ^ 21 = va / pgSize / 512 := by
  unfold pgSize
  omega

theorem walk_eq (hva : va < maxVa) :
    walk pt va = .ok (if (pt.mid (va / pgSize / 2 ^ 18)).isSome
      ∧ (pt.low (va / pgSize / 512)).isSome then some (va / pgSize)
      else none) := by
  obtain ⟨h1, h2⟩ := page_of_va va
  simp only [walk, if_neg (Nat.not_le.mpr hva), h1, h2]
  split
  · next hm hl => rw [hm, hl, if_pos ⟨rfl, rfl⟩]
  · next hno =>
    rw [if_neg]
    rintro ⟨hm, hl⟩
    obtain ⟨t, ht⟩ := Option.isSome_iff_exists.mp hm
    obtain ⟨u, hu⟩ := Option.isSome_iff_exists.mp hl
    exact hno t u ht hu

/-- What the kernel's `walk` and PTE_V test find is the entry. -/
theorem walkValid_entry (hva : va < maxVa) : walkValid pt va = .ok (pt.entry (va / pgSize)) := by
  simp only [walkValid, walk_eq hva, ok_bind, PageTable.entry]
  by_cases h : (pt.mid (va / pgSize / 2 ^ 18)).isSome ∧ (pt.low (va / pgSize / 512)).isSome
  · rw [if_pos h, if_pos h]
    rfl
  · rw [if_neg h, if_neg h]
    rfl

/-- A page has one entry, whatever address in it is asked for. -/
theorem walkValid_roundDown (hva : va < maxVa) :
    walkValid pt (pgRoundDown va) = walkValid pt va := by
  have hle : pgRoundDown va ≤ va := Nat.div_mul_le_self va pgSize
  have hdiv : pgRoundDown va / pgSize = va / pgSize := Nat.mul_div_cancel _ (by decide)
  rw [walkValid_entry hva, walkValid_entry (by omega), hdiv]

theorem PageTable.Wf.entry_eq (h : pt.Wf) : pt.entry = pt.leaf := by
  funext n
  unfold PageTable.entry
  split
  · rfl
  · next hno =>
    by_contra hne
    have hl := h.low n (Option.isSome_iff_ne_none.mpr (Ne.symm hne))
    have hm := h.mid _ hl
    rw [Nat.div_div_eq_div_mul] at hm
    exact hno ⟨hm, hl⟩

-- == a walk that allocates

theorem walkMid_entry (h : walkMid pt ph va = some (pt', ph')) :
    (∀ m, pt'.entry m = pt.entry m) ∧ ph.Takes ph' ∧ (pt'.mid (va / 2 ^ 30)).isSome := by
  simp only [walkMid] at h
  split at h
  · next t ht =>
    cases h
    exact ⟨fun _ => rfl, .refl _, by rw [ht]; rfl⟩
  · next hnone =>
    split at h
    · cases h
    · next t ph1 halloc =>
      cases h
      refine ⟨fun m => ?_, kalloc_zero_takes halloc, by simp⟩
      -- the new table is empty, and below no table there was no entry
      have hdiv : m / 2 ^ 18 = m / 512 / 512 := by omega
      simp only [PageTable.entry, hdiv]
      by_cases hm : m / 512 / 512 = va / 2 ^ 30
      · simp only [hm, hnone, if_true, Option.isSome_none,
          Bool.false_eq_true, and_false, false_and, if_false]
      · simp only [if_neg hm]

theorem walkLow_entry (h : walkLow pt ph va = some (pt', ph')) :
    (∀ m, pt'.entry m = pt.entry m) ∧ ph.Takes ph' ∧ pt'.mid = pt.mid
      ∧ (pt'.low (va / 2 ^ 21)).isSome := by
  simp only [walkLow] at h
  split at h
  · next t ht =>
    cases h
    exact ⟨fun _ => rfl, .refl _, rfl, by rw [ht]; rfl⟩
  · next hnone =>
    split at h
    · cases h
    · next t ph1 halloc =>
      cases h
      refine ⟨fun m => ?_, kalloc_zero_takes halloc, rfl, by simp⟩
      simp only [PageTable.entry]
      by_cases hm : m / 512 = va / 2 ^ 21
      · simp only [hm, hnone, if_true, Option.isSome_none,
          Bool.false_eq_true, and_false, if_false, ite_self]
      · simp only [if_neg hm]

/-- `walk` with allocation finds what `walk` finds. -/
theorem walkAlloc_entry {o : Option Nat} (h : walkAlloc pt ph va = .ok (o, pt', ph')) :
    va < maxVa ∧ (∀ m, pt'.entry m = pt.entry m) ∧ ph.Takes ph'
      ∧ (o = none ∨ o = some (va / pgSize) ∧ (pt'.mid (va / pgSize / 2 ^ 18)).isSome
        ∧ (pt'.low (va / pgSize / 512)).isSome) := by
  obtain ⟨hq1, hq2⟩ := page_of_va va
  simp only [walkAlloc] at h
  split at h
  · cases h
  · next hva =>
    refine ⟨Nat.not_le.mp hva, ?_⟩
    split at h
    · cases h
      exact ⟨fun _ => rfl, .refl _, .inl rfl⟩
    · next pt1 ph1 hmid =>
      obtain ⟨he1, ht1, hm1⟩ := walkMid_entry hmid
      split at h
      · cases h
        exact ⟨he1, ht1, .inl rfl⟩
      · next pt2 ph2 hlow =>
        obtain ⟨he2, ht2, hm2, hl2⟩ := walkLow_entry hlow
        cases h
        refine ⟨fun m => (he2 m).trans (he1 m), ht1.trans ht2, .inr ⟨rfl, ?_, ?_⟩⟩
        · rw [← hq1, hm2]
          exact hm1
        · rw [← hq2]
          exact hl2

-- == mappages

theorem entry_setLeaf {e : Option Pte}
    (hm : (pt.mid (n / 2 ^ 18)).isSome) (hl : (pt.low (n / 512)).isSome) (m : Nat) :
    (pt.setLeaf n e).entry m = if m = n then e else pt.entry m := by
  simp only [PageTable.entry, PageTable.setLeaf]
  by_cases hmn : m = n
  · subst hmn
    simp only [if_true, hm, hl, and_self]
  · simp only [if_neg hmn]

/-- mappages of one page: no new entry, or one where there was none. -/
theorem mappages_entry {b : Bool} (hva : va < 2 ^ 64)
    (h : mappages pt ph va pgSize pa perm = .ok (b, pt', ph')) :
    va % pgSize = 0 ∧ va < maxVa ∧ ph.Takes ph'
      ∧ (b = false ∧ (∀ m, pt'.entry m = pt.entry m)
        ∨ b = true ∧ pt.entry (va / pgSize) = none ∧ ∀ m, pt'.entry m
          = if m = va / pgSize then some ⟨pa, perm⟩ else pt.entry m) := by
  have hmod : va % pgSize = 0 := by
    by_contra hne
    simp only [mappages, if_pos hne] at h
    cases h
  rw [mappages_one hva hmod] at h
  obtain ⟨⟨o, pt1, ph1⟩, h1, h⟩ := bind_ok h
  obtain ⟨hlt, he, ht, ho⟩ := walkAlloc_entry h1
  refine ⟨hmod, hlt, ?_⟩
  rcases ho with rfl | ⟨rfl, hm, hl⟩
  · cases h
    exact ⟨ht, .inl ⟨rfl, he⟩⟩
  dsimp only at h
  split at h
  · cases h
  · next hleaf =>
    cases h
    rw [Bool.not_eq_true, Option.isSome_eq_false_iff, Option.isNone_iff_eq_none] at hleaf
    refine ⟨ht, .inr ⟨rfl, ?_, fun m => ?_⟩⟩
    · rw [← he, PageTable.entry, if_pos ⟨hm, hl⟩, hleaf]
    · rw [entry_setLeaf hm hl, he]

/-- mappages of one page panics on an address past MAXVA, on one inside a
page, and on a page that has an entry; on nothing else. -/
theorem mappages_panics {e : Panic} (hva : va < maxVa)
    (hfree : pt.entry (va / pgSize) = none) (h : mappages pt ph va pgSize pa perm = .error e) :
    e = .mappagesVa ∧ va % pgSize ≠ 0 := by
  by_cases hmod : va % pgSize = 0
  · have hlt : va < 2 ^ 64 := by
      unfold maxVa at hva
      omega
    rw [mappages_one hlt hmod] at h
    cases hw : walkAlloc pt ph va with
    | error e' =>
      simp only [walkAlloc, if_neg (Nat.not_le.mpr hva)] at hw
      split at hw
      · cases hw
      · split at hw <;> cases hw
    | ok s =>
      obtain ⟨o, pt1, ph1⟩ := s
      obtain ⟨_, he, _, ho⟩ := walkAlloc_entry hw
      rw [hw, ok_bind] at h
      rcases ho with rfl | ⟨rfl, hm, hl⟩
      · cases h
      have hleaf : pt1.leaf (va / pgSize) = none := by
        rw [← he, PageTable.entry, if_pos ⟨hm, hl⟩] at hfree
        exact hfree
      simp only [hleaf] at h
      cases h
  · simp only [mappages, if_pos hmod] at h
    cases h
    exact ⟨rfl, hmod⟩

/-- With two pages for tables to spare, mapping a page succeeds. -/
theorem mappages_total (pa : Nat) (perm : Perm) (hva : va < maxVa)
    (hmod : va % pgSize = 0) (hfree : pt.entry (va / pgSize) = none)
    (hmem : 2 ≤ ph.freelist.length) :
    ∃ pt' ph', mappages pt ph va pgSize pa perm = .ok (true, pt', ph') := by
  obtain ⟨pt1, ph1, hmid, hlen⟩ : ∃ pt1 ph1,
      walkMid pt ph va = some (pt1, ph1) ∧ 1 ≤ ph1.freelist.length := by
    unfold walkMid
    cases pt.mid (va / 2 ^ 30) with
    | some t => exact ⟨_, _, rfl, by omega⟩
    | none =>
      obtain ⟨t, ph', hk, hl⟩ := kalloc_of_pos (show 0 < ph.freelist.length by omega)
      rw [hk]
      exact ⟨_, _, rfl, by show 1 ≤ ph'.freelist.length; omega⟩
  obtain ⟨pt2, ph2, hlow⟩ : ∃ pt2 ph2, walkLow pt1 ph1 va = some (pt2, ph2) := by
    unfold walkLow
    cases pt1.low (va / 2 ^ 21) with
    | some t => exact ⟨_, _, rfl⟩
    | none =>
      obtain ⟨t, ph', hk, _⟩ := kalloc_of_pos (show 0 < ph1.freelist.length by omega)
      rw [hk]
      exact ⟨_, _, rfl⟩
  have hw : walkAlloc pt ph va = .ok (some (va / pgSize), pt2, ph2) := by
    simp only [walkAlloc, if_neg (Nat.not_le.mpr hva), hmid, hlow]
  obtain ⟨_, he, _, ho⟩ := walkAlloc_entry hw
  rcases ho with ho | ⟨_, hm, hl⟩
  · cases ho
  have hleaf : pt2.leaf (va / pgSize) = none := by
    rw [← he, PageTable.entry, if_pos ⟨hm, hl⟩] at hfree
    exact hfree
  have hlt : va < 2 ^ 64 := by
    unfold maxVa at hva
    omega
  rw [mappages_one hlt hmod, hw]
  exact ⟨_, _, by simp only [ok_bind, hleaf]; rfl⟩

-- == uvmunmap

theorem uvmunmap_aligned {s : PageTable × Phys}
    (h : uvmunmap pt ph va n f = .ok s) : va % pgSize = 0 := by
  by_contra hne
  simp only [uvmunmap, if_pos hne] at h
  cases h

/-- uvmunmap of one page: its entry is gone, and its page is freed when
the caller asks for it. -/
theorem uvmunmap_entry (hva : va < maxVa) (h : uvmunmap pt ph va 1 f = .ok (pt', ph')) :
    va % pgSize = 0 ∧ (∀ m, pt'.entry m = if m = va / pgSize then none else pt.entry m)
      ∧ (ph' = ph ∧ (f = true → pt.entry (va / pgSize) = none)
        ∨ ∃ e, f = true ∧ pt.entry (va / pgSize) = some e ∧ kfree ph e.pa = .ok ph') := by
  have hmod := uvmunmap_aligned h
  refine ⟨hmod, ?_⟩
  have hone : pagesBelow va (u64 (va + (1 : Nat) * (pgSize : Nat))) = 0 + 1 := by
    refine pagesBelow_one ?_
    unfold maxVa at hva
    omega
  simp only [uvmunmap, hmod, ne_eq, not_true_eq_false, if_false, hone,
    forUpto_succ, forUpto_zero, ok_bind, unmapPage, Nat.zero_mul, Nat.add_zero, walk_eq hva] at h
  by_cases hin : (pt.mid (va / pgSize / 2 ^ 18)).isSome ∧ (pt.low (va / pgSize / 512)).isSome
  · have hent : pt.entry (va / pgSize) = pt.leaf (va / pgSize) := if_pos hin
    rw [if_pos hin] at h
    dsimp only at h
    split at h
    · next hnone =>
      cases h
      refine ⟨fun m => ?_, .inl ⟨rfl, fun _ => hent.trans hnone⟩⟩
      split
      · next hm => rw [hm, hent, hnone]
      · rfl
    · next e he =>
      obtain ⟨q, hq, h⟩ := bind_ok h
      cases h
      refine ⟨entry_setLeaf hin.1 hin.2, ?_⟩
      cases f with
      | false =>
        cases hq
        exact .inl ⟨rfl, fun hf => by cases hf⟩
      | true => exact .inr ⟨e, rfl, hent.trans he, hq⟩
  · have hent : pt.entry (va / pgSize) = none := if_neg hin
    rw [if_neg hin] at h
    cases h
    refine ⟨fun m => ?_, .inl ⟨rfl, fun _ => hent⟩⟩
    split
    · next hm => rw [hm, hent]
    · rfl

end Xv6Labs.Model
