/-
Page tables and the free list.

Growing a table moves pages from the free list to its tables
(`Grows.ledger`), and freewalk moves them all back (`freewalk_ledger`).
`PageTable.Wf` says that the three maps are a tree; in such a table `walk`
finds exactly the leaves.
-/
import Xv6Labs.Lib.Sum
import Xv6Labs.Model.PageTable
import Xv6Labs.Proofs.Phys
import Xv6Labs.Proofs.Words

namespace Xv6Labs.Model

open Lib Finset

variable {pt pt' : PageTable} {i k n va : Nat} {ph ph' : Phys} {f : Bool}
variable {pa t : Nat} {perm : Perm} {e : Pte}

-- == the tree

/-- The three maps are a tree below MAXVA. -/
structure PageTable.Wf (pt : PageTable) : Prop where
  low : ∀ n, (pt.leaf n).isSome → (pt.low (n / 512)).isSome
  mid : ∀ k, (pt.low k).isSome → (pt.mid (k / 512)).isSome
  top : ∀ i, (pt.mid i).isSome → i < 256

/-- Pages that the table uses for itself. -/
def PageTable.tables (pt : PageTable) (x : Nat) : Nat :=
  points (some pt.root) x + ∑ i ∈ range 512,
    (points (pt.mid i) x + ∑ j ∈ range 512, points (pt.low (i * 512 + j)) x)

theorem PageTable.Wf.leaf_lt (h : pt.Wf) (hn : (pt.leaf n).isSome) : n < 2 ^ 26 := by
  have := h.top _ (h.mid _ (h.low n hn))
  omega

theorem PageTable.Wf.setLeaf_none (h : pt.Wf) (n : Nat) : (pt.setLeaf n none).Wf := by
  refine ⟨fun m hm => ?_, h.mid, h.top⟩
  simp only [PageTable.setLeaf] at hm ⊢
  split at hm
  · cases hm
  · exact h.low m hm

theorem PageTable.Wf.setLeaf_some (h : pt.Wf) (e : Pte)
    (hn : (pt.low (n / 512)).isSome) : (pt.setLeaf n (some e)).Wf := by
  refine ⟨fun m hm => ?_, h.mid, h.top⟩
  simp only [PageTable.setLeaf] at hm ⊢
  split at hm
  · next hmn => exact hmn ▸ hn
  · exact h.low m hm

theorem wf_empty (r : Nat) : (PageTable.empty r).Wf :=
  ⟨fun _ h => (nomatch h), fun _ h => (nomatch h), fun _ h => (nomatch h)⟩

@[simp] theorem setLeaf_leaf (pt : PageTable) (n : Nat) (e : Option Pte) (m : Nat) :
    (pt.setLeaf n e).leaf m = if m = n then e else pt.leaf m := rfl

@[simp] theorem setLeaf_tables (pt : PageTable) (n : Nat) (e : Option Pte)
    (x : Nat) : (pt.setLeaf n e).tables x = pt.tables x := rfl

-- == walk

/-- In a tree, `walk` finds the leaves and nothing else. -/
theorem walkValid_eq (h : pt.Wf) (hva : va < maxVa) :
    walkValid pt va = .ok (pt.leaf (va / pgSize)) := by
  have hlow : va / 2 ^ 21 = va / pgSize / 512 := by unfold pgSize; omega
  have hmid : va / 2 ^ 30 = va / pgSize / 512 / 512 := by unfold pgSize; omega
  simp only [walkValid, walk, if_neg (Nat.not_le.mpr hva), hlow, hmid]
  cases hl : pt.leaf (va / pgSize) with
  | none => split <;> simp [hl]
  | some e =>
    have h1 := h.low (va / pgSize) (by rw [hl]; rfl)
    have h2 := h.mid _ h1
    obtain ⟨a, ha⟩ := Option.isSome_iff_exists.mp h1
    obtain ⟨b, hb⟩ := Option.isSome_iff_exists.mp h2
    simp [ha, hb, hl]

theorem walkValid_panics (hva : maxVa ≤ va) : walkValid pt va = .error .walk := by
  simp only [walkValid, walk, if_pos hva]
  rfl

theorem walkValid_lt {o : Option Pte} (h : walkValid pt va = .ok o) : va < maxVa := by
  by_contra hge
  rw [walkValid_panics (Nat.not_lt.mp hge)] at h
  cases h

/-- A table that grew by pages of the free list, with the same leaves. -/
structure Grows (pt : PageTable) (ph : Phys) (pt' : PageTable) (ph' : Phys) : Prop where
  wf : pt'.Wf
  root : pt'.root = pt.root
  leaf : pt'.leaf = pt.leaf
  takes : ph.Takes ph'
  ledger : ∀ x, pt'.tables x + ph'.freelist.count x = pt.tables x + ph.freelist.count x

theorem Grows.refl (h : pt.Wf) (ph : Phys) : Grows pt ph pt ph :=
  ⟨h, rfl, rfl, .refl ph, fun _ => rfl⟩

theorem Grows.trans {pt'' : PageTable} {ph'' : Phys} (h : Grows pt ph pt' ph')
    (h' : Grows pt' ph' pt'' ph'') : Grows pt ph pt'' ph'' :=
  ⟨h'.wf, h'.root.trans h.root, h'.leaf.trans h.leaf, h.takes.trans h'.takes,
    fun x => (h'.ledger x).trans (h.ledger x)⟩

theorem walkMid_grows (hw : pt.Wf) (hva : va < maxVa) (h : walkMid pt ph va = some (pt', ph')) :
    Grows pt ph pt' ph' ∧ (pt'.mid (va / 2 ^ 30)).isSome := by
  have hi : va / 2 ^ 30 < 256 := by unfold maxVa at hva; omega
  simp only [walkMid] at h
  generalize va / 2 ^ 30 = i at h hi ⊢
  split at h
  · next t ht =>
    cases h
    exact ⟨.refl hw ph, by rw [ht]; rfl⟩
  · next hnone =>
    split at h
    · cases h
    · next t ph1 halloc =>
      cases h
      -- nothing was below the absent table, so clearing it changes nothing
      have habsent : ∀ k, k / 512 = i → pt.low k = none := by
        intro k hk
        by_contra hne
        have := hw.mid k (Option.isSome_iff_ne_none.mpr hne)
        rw [hk, hnone] at this
        cases this
      have hlow : (fun k => if k / 512 = i then none else pt.low k) = pt.low := by
        funext k
        split
        · next hk => exact (habsent k hk).symm
        · rfl
      rw [hlow]
      refine ⟨⟨⟨hw.low, fun k hk => ?_, fun j hj => ?_⟩, rfl, rfl,
        kalloc_zero_takes halloc, fun x => ?_⟩, by simp⟩
      · dsimp only
        split
        · rfl
        · exact hw.mid k hk
      · dsimp only at hj
        split at hj
        · omega
        · exact hw.top j hj
      have hx := sum_exchange
        (f := fun j => points (if j = i then some t else pt.mid j) x
          + ∑ l ∈ range 512, points (pt.low (j * 512 + l)) x)
        (g := fun j => points (pt.mid j) x + ∑ l ∈ range 512, points (pt.low (j * 512 + l)) x)
        (show i < 512 by omega) (fun j _ hj => by simp only [if_neg hj])
      have hc := kalloc_count halloc x
      simp only [if_true, hnone, points_none] at hx
      simp only [PageTable.tables, Phys.zero]
      omega

theorem walkLow_grows (hw : pt.Wf) (hva : va < maxVa) (hmid : (pt.mid (va / 2 ^ 30)).isSome)
    (h : walkLow pt ph va = some (pt', ph')) :
    Grows pt ph pt' ph' ∧ (pt'.low (va / 2 ^ 21)).isSome := by
  have hi : va / 2 ^ 30 = va / 2 ^ 21 / 512 := by omega
  have hb : va / 2 ^ 21 < 131072 := by unfold maxVa at hva; omega
  rw [hi] at hmid
  simp only [walkLow] at h
  generalize va / 2 ^ 21 = k at h hmid hb ⊢
  split at h
  · next t ht =>
    cases h
    exact ⟨.refl hw ph, by rw [ht]; rfl⟩
  · next hnone =>
    split at h
    · cases h
    · next t ph1 halloc =>
      cases h
      have hleaf : (fun n => if n / 512 = k then none else pt.leaf n) = pt.leaf := by
        funext n
        split
        · next hn =>
          by_contra hne
          have := hw.low n (Option.isSome_iff_ne_none.mpr (Ne.symm hne))
          rw [hn, hnone] at this
          cases this
        · rfl
      rw [hleaf]
      refine ⟨⟨⟨fun n hn => ?_, fun l hl => ?_, hw.top⟩, rfl, rfl,
        kalloc_zero_takes halloc, fun x => ?_⟩, by simp⟩
      · dsimp only
        split
        · rfl
        · exact hw.low n hn
      · dsimp only at hl
        split at hl
        · next hlk => exact hlk ▸ hmid
        · exact hw.mid l hl
      -- row `k % 512` of the table of row `k / 512`
      have hkd : k / 512 * 512 + k % 512 = k := by omega
      have hinner := sum_exchange
        (f := fun j => points (if k / 512 * 512 + j = k then some t
          else pt.low (k / 512 * 512 + j)) x)
        (show k % 512 < 512 by omega) (fun j _ hj => by rw [if_neg (by omega)])
      have houter := sum_exchange
        (f := fun i => points (pt.mid i) x + ∑ j ∈ range 512,
          points (if i * 512 + j = k then some t else pt.low (i * 512 + j)) x)
        (g := fun i => points (pt.mid i) x + ∑ j ∈ range 512, points (pt.low (i * 512 + j)) x)
        (show k / 512 < 512 by omega) (fun i _ hi => by
          refine congrArg (points (pt.mid i) x + ·) (sum_same fun j hj => ?_)
          rw [if_neg (by omega)])
      have hc := kalloc_count halloc x
      simp only [hkd, if_true, hnone, points_none] at hinner
      simp only [PageTable.tables, Phys.zero]
      omega

/-- `walk` with allocation: the table grew, and either a page ran out or
the entry exists now. -/
theorem walkAlloc_spec {o : Option Nat} (hw : pt.Wf) (h : walkAlloc pt ph va = .ok (o, pt', ph')) :
    va < maxVa ∧ Grows pt ph pt' ph' ∧ (o = none
      ∨ o = some (va / pgSize) ∧ (pt'.low (va / pgSize / 512)).isSome) := by
  simp only [walkAlloc] at h
  split at h
  · cases h
  · next hva =>
    have hva : va < maxVa := Nat.not_le.mp hva
    have hlow : va / 2 ^ 21 = va / pgSize / 512 := by unfold pgSize; omega
    refine ⟨hva, ?_⟩
    split at h
    · cases h
      exact ⟨.refl hw ph, .inl rfl⟩
    · next pt1 ph1 hm =>
      obtain ⟨hg1, hmid⟩ := walkMid_grows hw hva hm
      split at h
      · cases h
        exact ⟨hg1, .inl rfl⟩
      · next pt2 ph2 hl =>
        cases h
        obtain ⟨hg2, hs⟩ := walkLow_grows hg1.wf hva hmid hl
        rw [hlow] at hs
        exact ⟨hg1.trans hg2, .inr ⟨rfl, hs⟩⟩

-- == mappages

theorem mappages_one (hva : va < 2 ^ 64) (hmod : va % pgSize = 0) :
    mappages pt ph va pgSize pa perm = (do
      match ← walkAlloc pt ph va with
      | (none, pt, ph) => pure (false, pt, ph)
      | (some n, pt, ph) =>
        if (pt.leaf n).isSome then throw .remap
        else pure (true, pt.setLeaf n (some ⟨pa, perm⟩), ph)) := by
  have hu : u64 ((va : Int) + ((0 : Nat) : Int) * (pgSize : Int)) = va := u64_of_lt (by simp) hva
  have h1 : pgSize / pgSize = 0 + 1 := rfl
  simp only [mappages, hmod, h1, forRet, mapPage, ne_eq, not_true_eq_false,
    if_false, Nat.mod_self, hu, Nat.zero_mul, Nat.add_zero, ok_bind]
  have hsize : ¬ pgSize = 0 := by decide
  simp only [hsize, if_false]
  cases walkAlloc pt ph va with
  | error e => rfl
  | ok r =>
    obtain ⟨o, pt1, ph1⟩ := r
    cases o with
    | none => rfl
    | some n =>
      simp only [ok_bind]
      split <;> rfl

/-- A page was mapped, or the table only grew. -/
theorem mappages_one_spec {b : Bool} (hw : pt.Wf) (hva : va < 2 ^ 64)
    (h : mappages pt ph va pgSize pa perm = .ok (b, pt', ph')) :
    va % pgSize = 0 ∧ va < maxVa ∧ ∃ pt1, Grows pt ph pt1 ph' ∧ pt'.Wf
      ∧ (b = false ∧ pt' = pt1
        ∨ b = true ∧ pt.leaf (va / pgSize) = none
          ∧ pt' = pt1.setLeaf (va / pgSize) (some ⟨pa, perm⟩)) := by
  have hmod : va % pgSize = 0 := by
    by_contra hne
    simp only [mappages, if_pos hne] at h
    cases h
  rw [mappages_one hva hmod] at h
  obtain ⟨⟨o, pt1, ph1⟩, hwalk, h⟩ := bind_ok h
  obtain ⟨hlt, hg, ho⟩ := walkAlloc_spec hw hwalk
  refine ⟨hmod, hlt, pt1, ?_⟩
  rcases ho with rfl | ⟨rfl, hlow⟩
  · cases h
    exact ⟨hg, hg.wf, .inl ⟨rfl, rfl⟩⟩
  dsimp only at h
  split at h
  · cases h
  · next hnone =>
    cases h
    rw [Option.not_isSome_iff_eq_none, hg.leaf] at hnone
    exact ⟨hg, hg.wf.setLeaf_some _ hlow, .inr ⟨rfl, hnone, rfl⟩⟩

-- == uvmunmap

/-- One if the entry is for page `x`. -/
def ptePoints (o : Option Pte) (x : Nat) : Nat := points (o.map Pte.pa) x

@[simp] theorem ptePoints_none (x : Nat) : ptePoints none x = 0 := rfl

/-- The table without the entries of `n` pages from `lo` on. -/
def PageTable.clear (pt : PageTable) (lo n : Nat) : PageTable :=
  { pt with leaf := fun m => if lo ≤ m ∧ m < lo + n then none else pt.leaf m }

theorem PageTable.clear_zero (pt : PageTable) (lo : Nat) : pt.clear lo 0 = pt := by
  simp only [PageTable.clear]
  congr 1
  funext m
  exact if_neg (by omega)

theorem PageTable.clear_succ (pt : PageTable) (lo n : Nat) :
    (pt.clear lo n).setLeaf (lo + n) none = pt.clear lo (n + 1) := by
  simp only [PageTable.clear, PageTable.setLeaf]
  congr 1
  funext m
  rcases Nat.lt_trichotomy m (lo + n) with hlt | rfl | hgt
  · rw [if_neg (by omega)]
    by_cases hlo : lo ≤ m
    · rw [if_pos ⟨hlo, hlt⟩, if_pos ⟨hlo, by omega⟩]
    · rw [if_neg (by omega), if_neg (by omega)]
  · rw [if_pos rfl, if_pos ⟨by omega, by omega⟩]
  · rw [if_neg (by omega), if_neg (by omega), if_neg (by omega)]

theorem PageTable.Wf.clear (h : pt.Wf) (lo n : Nat) : (pt.clear lo n).Wf := by
  refine ⟨fun m hm => ?_, h.mid, h.top⟩
  simp only [PageTable.clear] at hm ⊢
  split at hm
  · cases hm
  · exact h.low m hm

theorem setLeaf_none_of_none (h : pt.leaf n = none) : pt.setLeaf n none = pt := by
  simp only [PageTable.setLeaf]
  congr 1
  funext m
  split
  · next hm => rw [hm, h]
  · rfl

/-- Clear one entry, and free its page when the caller asks for it. -/
def dropLeaf (pt : PageTable) (ph : Phys) (n : Nat) (f : Bool) : Except Panic (PageTable × Phys) :=
  match pt.leaf n with
  | none => .ok (pt, ph)
  | some e => do
    let ph ← (if f then kfree ph e.pa else pure ph)
    pure (pt.setLeaf n none, ph)

theorem dropLeaf_none (h : pt.leaf n = none) : dropLeaf pt ph n f = .ok (pt, ph) := by
  simp only [dropLeaf, h]

theorem dropLeaf_keep (h : pt.leaf n = some e) :
    dropLeaf pt ph n false = .ok (pt.setLeaf n none, ph) := by
  simp only [dropLeaf, h]
  rfl

theorem dropLeaf_free (h : pt.leaf n = some e) (hf : kfree ph e.pa = .ok ph') :
    dropLeaf pt ph n true = .ok (pt.setLeaf n none, ph') := by
  simp only [dropLeaf, h, if_true, hf]
  rfl

/-- The entry is gone, and what its page was is on the free list. -/
theorem dropLeaf_ok (h : dropLeaf pt ph n f = .ok (pt', ph')) :
    pt' = pt.setLeaf n none ∧ ph'.kend = ph.kend ∧ (f = false → ph' = ph)
      ∧ (f = true → ∀ x, ph'.freelist.count x = ph.freelist.count x + ptePoints (pt.leaf n) x) := by
  simp only [dropLeaf] at h
  split at h
  · next hnone =>
    cases h
    refine ⟨(setLeaf_none_of_none hnone).symm, rfl, fun _ => rfl, fun _ x => ?_⟩
    rw [hnone]
    rfl
  · next e he =>
    obtain ⟨q, hq, h⟩ := bind_ok h
    cases h
    rw [he]
    cases f with
    | false =>
      cases hq
      exact ⟨rfl, rfl, fun _ => rfl, fun hf => (nomatch hf)⟩
    | true =>
      exact ⟨rfl, (kfree_keeps _ hq).kend, fun hf => (nomatch hf), fun _ x => kfree_count hq x⟩

/-- One turn of the loop, in a tree. -/
theorem unmapPage_eq (hw : pt.Wf) (ph : Phys) (hva : va + k * pgSize < maxVa) :
    unmapPage va f k (pt, ph) = dropLeaf pt ph ((va + k * pgSize) / pgSize) f := by
  have hwalk := walkValid_eq hw hva
  obtain ⟨o, ho, hwalk⟩ := bind_ok hwalk
  simp only [unmapPage, ho, ok_bind]
  cases o with
  | none =>
    simp only [pure_eq, Except.ok.injEq] at hwalk
    rw [dropLeaf_none hwalk.symm]
    rfl
  | some n =>
    have hn : n = (va + k * pgSize) / pgSize := by
      simp only [walk, if_neg (Nat.not_le.mpr hva)] at ho
      split at ho
      · cases ho
        rfl
      · cases ho
    subst hn
    rfl

theorem unmapPage_panics {s : PageTable × Phys}
    (hva : maxVa ≤ va + k * pgSize) : unmapPage va f k s = .error .walk := by
  simp only [unmapPage, walk, if_pos hva]
  rfl

/-- Unmapping one page. -/
theorem uvmunmap_one (hw : pt.Wf) (hva : va < maxVa) (hmod : va % pgSize = 0) :
    uvmunmap pt ph va 1 f = dropLeaf pt ph (va / pgSize) f := by
  have hu : u64 ((va : Int) + ((1 : Nat) : Int) * (pgSize : Int))
      = va + 4096 := u64_of_lt (by simp [pgSize]) (by unfold maxVa at hva; omega)
  have hone : pagesBelow va (va + 4096) = 0 + 1 := by
    unfold pagesBelow pgSize
    omega
  have hturn := unmapPage_eq (k := 0) (f := f) hw ph (by simpa using hva)
  simp only [uvmunmap, hmod, ne_eq, not_true_eq_false, if_false, hu, hone,
    forUpto_succ, forUpto_zero, ok_bind]
  exact hturn

/-- Freeing a range: the entries are gone, and each of their pages is on
the free list once more. -/
theorem unmapPages_free (hw : pt.Wf) (h : forUpto (unmapPage va true) n (pt, ph) = .ok (pt', ph')) :
    pt' = pt.clear (va / pgSize) n ∧ ph'.kend = ph.kend ∧ (∀ k, k < n → va + k * pgSize < maxVa)
      ∧ ∀ x, ph'.freelist.count x = ph.freelist.count x
        + ∑ k ∈ range n, ptePoints (pt.leaf (va / pgSize + k)) x := by
  refine forUpto_inv (fun m t => t.1 = pt.clear (va / pgSize) m
    ∧ t.2.kend = ph.kend ∧ (∀ k, k < m → va + k * pgSize < maxVa)
    ∧ ∀ x, t.2.freelist.count x = ph.freelist.count x
        + ∑ k ∈ range m, ptePoints (pt.leaf (va / pgSize + k)) x) ?_ ?_ h
  · exact ⟨(pt.clear_zero _).symm, rfl, fun _ hk => by omega, fun x => by simp⟩
  rintro m _ ⟨t, q⟩ ⟨t', q'⟩ ⟨rfl, hk, hlt, hc⟩ hf
  have hva : va + m * pgSize < maxVa := by
    by_contra hge
    rw [unmapPage_panics (Nat.not_lt.mp hge)] at hf
    cases hf
  have hold : (pt.clear (va / pgSize) m).leaf (va / pgSize + m)
      = pt.leaf (va / pgSize + m) := if_neg (by omega)
  rw [unmapPage_eq (hw.clear _ m) _ hva, page_add] at hf
  obtain ⟨rfl, hk', _, hfree⟩ := dropLeaf_ok hf
  refine ⟨pt.clear_succ _ m, hk'.trans hk, fun k hk => ?_, fun x => ?_⟩
  · rcases Nat.lt_succ_iff_lt_or_eq.mp hk with hk | rfl
    · exact hlt k hk
    · exact hva
  have := hfree rfl x
  have := hc x
  rw [hold] at *
  rw [sum_range_succ]
  dsimp only at *
  omega

/-- Freeing a range succeeds when its pages are valid. -/
theorem unmapPages_total (ph : Phys) (va n : Nat) (hw : pt.Wf)
    (hlt : ∀ k, k < n → va + k * pgSize < maxVa)
    (hpage : ∀ k e, k < n → pt.leaf (va / pgSize + k) = some e → ph.isPage e.pa) :
    ∃ s, forUpto (unmapPage va true) n (pt, ph) = .ok s := by
  obtain ⟨s, hs, _⟩ := forUpto_total (f := unmapPage va true) (s := (pt, ph))
    (fun m t => t.1 = pt.clear (va / pgSize) m ∧ t.2.kend = ph.kend)
    ⟨(pt.clear_zero _).symm, rfl⟩ (by
      rintro m hm ⟨t, q⟩ ⟨rfl, hk⟩
      have hold : (pt.clear (va / pgSize) m).leaf (va / pgSize + m)
          = pt.leaf (va / pgSize + m) := if_neg (by omega)
      rw [unmapPage_eq (hw.clear _ m) _ (hlt m hm), page_add]
      cases he : pt.leaf (va / pgSize + m) with
      | none =>
        refine ⟨_, dropLeaf_none (hold.trans he), ?_, hk⟩
        rw [← pt.clear_succ, setLeaf_none_of_none (hold.trans he)]
      | some e =>
        have hp : q.isPage e.pa := (Phys.isPage_congr hk e.pa).mpr (hpage m e hm he)
        obtain ⟨q', hq'⟩ := kfree_total hp
        exact ⟨_, dropLeaf_free (hold.trans he) hq', pt.clear_succ _ m,
          (kfree_keeps _ hq').kend.trans hk⟩)
  exact ⟨s, hs⟩

-- == freewalk

theorem freewalkLow_ok :
    freewalkLow pt k = .ok () ↔ ∀ i, i < 512 → pt.leaf (k * 512 + i) = none := by
  constructor
  · intro h
    refine forUpto_inv (fun m _ => ∀ i, i < m → pt.leaf (k * 512 + i) = none)
      (fun i hi => by omega) ?_ h
    intro m _ _ _ hP hf i hi
    rcases Nat.lt_succ_iff_lt_or_eq.mp hi with hi | rfl
    · exact hP i hi
    · split at hf
      · next hnone => exact hnone
      · split at hf <;> cases hf
  · intro h
    refine forUpto_id fun i hi => ?_
    rw [h i hi]

/-- freewalk under one level-1 table. -/
theorem freewalkMid_ok (h : freewalkMid pt i ph = .ok ph') :
    (∀ j l, j < 512 → l < 512 → (pt.low (i * 512 + j)).isSome →
      pt.leaf ((i * 512 + j) * 512 + l) = none)
    ∧ ph'.kend = ph.kend
    ∧ ∀ x, ph'.freelist.count x = ph.freelist.count x
      + ∑ j ∈ range 512, points (pt.low (i * 512 + j)) x := by
  refine forUpto_inv (fun m q =>
    (∀ j l, j < m → l < 512 → (pt.low (i * 512 + j)).isSome →
      pt.leaf ((i * 512 + j) * 512 + l) = none)
    ∧ q.kend = ph.kend
    ∧ ∀ x, q.freelist.count x = ph.freelist.count x
      + ∑ j ∈ range m, points (pt.low (i * 512 + j)) x) ?_ ?_ h
  · exact ⟨fun j l hj => by omega, rfl, fun x => by simp⟩
  rintro m _ q q' ⟨hnone, hk, hc⟩ hf
  simp only [freewalkMidTurn] at hf
  split at hf
  · next hlow =>
    cases hf
    refine ⟨fun j l hj hl hs => ?_, hk, fun x => ?_⟩
    · rcases Nat.lt_succ_iff_lt_or_eq.mp hj with hj | rfl
      · exact hnone j l hj hl hs
      · rw [hlow] at hs
        cases hs
    · rw [sum_range_succ, hlow, points_none]
      exact hc x
  · next t hlow =>
    obtain ⟨_, hleaf, hf⟩ := bind_ok hf
    refine ⟨fun j l hj hl hs => ?_, (kfree_keeps _ hf).kend.trans hk, fun x => ?_⟩
    · rcases Nat.lt_succ_iff_lt_or_eq.mp hj with hj | rfl
      · exact hnone j l hj hl hs
      · exact freewalkLow_ok.mp hleaf l hl
    · rw [sum_range_succ, hlow, kfree_count hf x, hc x, Nat.add_assoc]

theorem freewalkMid_total (i : Nat) (ph : Phys) (hleaf : ∀ n, pt.leaf n = none)
    (hpage : ∀ j t, j < 512 → pt.low (i * 512 + j) = some t → ph.isPage t) :
    ∃ ph', freewalkMid pt i ph = .ok ph' := by
  obtain ⟨ph', h, _⟩ := forUpto_total
    (f := freewalkMidTurn pt i) (fun _ q => q.kend = ph.kend) rfl (by
      intro j hj q hk
      simp only [freewalkMidTurn]
      split
      · exact ⟨q, rfl, hk⟩
      · next t ht =>
        have hp : q.isPage t := (Phys.isPage_congr hk t).mpr (hpage j t hj ht)
        obtain ⟨q', hq'⟩ := kfree_total hp
        rw [freewalkLow_ok.mpr fun l _ => hleaf _]
        exact ⟨q', hq', (kfree_keeps _ hq').kend.trans hk⟩)
  exact ⟨ph', h⟩

/-- freewalk meets no leaf, and returns every page of the table. -/
theorem freewalk_ok (hw : pt.Wf) (h : freewalk pt ph = .ok ph') :
    (∀ n, pt.leaf n = none) ∧ ph'.kend = ph.kend
    ∧ ∀ x, ph'.freelist.count x = ph.freelist.count x + pt.tables x := by
  obtain ⟨q, hloop, h⟩ := bind_ok h
  have hinv := forUpto_inv (fun m q =>
    (∀ i j l, i < m → j < 512 → l < 512 → (pt.low (i * 512 + j)).isSome →
      pt.leaf ((i * 512 + j) * 512 + l) = none)
    ∧ q.kend = ph.kend
    ∧ ∀ x, q.freelist.count x = ph.freelist.count x
      + ∑ i ∈ range m, (points (pt.mid i) x
        + ∑ j ∈ range 512, points (pt.low (i * 512 + j)) x)) ?_ ?_ hloop
  · obtain ⟨hnone, hk, hc⟩ := hinv
    refine ⟨fun n => ?_, (kfree_keeps _ h).kend.trans hk, fun x => ?_⟩
    · by_contra hne
      have hs := Option.isSome_iff_ne_none.mpr hne
      have hlow := hw.low n hs
      have hlt := hw.leaf_lt hs
      have e1 := Nat.div_add_mod' (n / 512) 512
      have e2 := Nat.div_add_mod' n 512
      have hmid := hnone (n / 512 / 512) (n / 512 % 512) (n % 512) (by omega) (by omega) (by omega)
      rw [e1, e2] at hmid
      exact hne (hmid hlow)
    · have := hc x
      rw [kfree_count h x, PageTable.tables]
      omega
  · exact ⟨fun i j l hi => by omega, rfl, fun x => by simp⟩
  rintro m _ q q' ⟨hnone, hk, hc⟩ hf
  simp only [freewalkTurn] at hf
  split at hf
  · next hmid =>
    cases hf
    -- no level-1 table, so no level-0 table below it
    have hlow : ∀ j, j < 512 → pt.low (m * 512 + j) = none := by
      intro j hj
      by_contra hne
      have := hw.mid _ (Option.isSome_iff_ne_none.mpr hne)
      rw [show (m * 512 + j) / 512 = m by omega, hmid] at this
      cases this
    refine ⟨fun i j l hi hj hl hs => ?_, hk, fun x => ?_⟩
    · rcases Nat.lt_succ_iff_lt_or_eq.mp hi with hi | rfl
      · exact hnone i j l hi hj hl hs
      · rw [hlow j hj] at hs
        cases hs
    · have hz : ∑ j ∈ range 512, points (pt.low (m * 512 + j)) x = 0 :=
        sum_zero fun j hj => by rw [hlow j hj, points_none]
      rw [sum_range_succ, hmid, hz]
      exact hc x
  · next t hmid =>
    obtain ⟨q1, hq1, hf⟩ := bind_ok hf
    obtain ⟨hn1, hk1, hc1⟩ := freewalkMid_ok hq1
    refine ⟨fun i j l hi hj hl hs => ?_, (kfree_keeps _ hf).kend.trans (hk1.trans hk), fun x => ?_⟩
    · rcases Nat.lt_succ_iff_lt_or_eq.mp hi with hi | rfl
      · exact hnone i j l hi hj hl hs
      · exact hn1 j l hj hl hs
    have := kfree_count hf x
    have := hc1 x
    have := hc x
    rw [sum_range_succ, hmid]
    omega

theorem tables_pos_root (pt : PageTable) : 0 < pt.tables pt.root := by
  unfold PageTable.tables
  rw [points_some, if_pos rfl]
  omega

theorem tables_pos_mid (hi : i < 512) (h : pt.mid i = some t) : 0 < pt.tables t := by
  have hrow := row_le_sum (f := fun i => points (pt.mid i) t
    + ∑ j ∈ range 512, points (pt.low (i * 512 + j)) t) hi
  have : points (pt.mid i) t = 1 := by rw [h, points_some, if_pos rfl]
  unfold PageTable.tables
  omega

theorem tables_pos_low {j : Nat} (hi : i < 512) (hj : j < 512)
    (h : pt.low (i * 512 + j) = some t) : 0 < pt.tables t := by
  have hrow := row_le_sum (f := fun i => points (pt.mid i) t
    + ∑ j ∈ range 512, points (pt.low (i * 512 + j)) t) hi
  have hin := row_le_sum (f := fun j => points (pt.low (i * 512 + j)) t) hj
  have : points (pt.low (i * 512 + j)) t = 1 := by
    rw [h, points_some, if_pos rfl]
  unfold PageTable.tables
  omega

/-- freewalk succeeds on a table without leaves whose own pages are
valid. -/
theorem freewalk_total (hleaf : ∀ n, pt.leaf n = none)
    (hpage : ∀ x, 0 < pt.tables x → ph.isPage x) : ∃ ph', freewalk pt ph = .ok ph' := by
  obtain ⟨q, hq, hk⟩ := forUpto_total
    (f := freewalkTurn pt) (fun _ q => q.kend = ph.kend) rfl (by
      intro i hi q hk
      simp only [freewalkTurn]
      split
      · exact ⟨q, rfl, hk⟩
      · next t ht =>
        have hvalid : ∀ x, 0 < pt.tables x → q.isPage x := fun x hx =>
          (Phys.isPage_congr hk x).mpr (hpage x hx)
        obtain ⟨q1, hq1⟩ := freewalkMid_total i q hleaf
          (fun j t hj hlow => hvalid t (tables_pos_low hi hj hlow))
        have hk1 := (freewalkMid_ok hq1).2.1
        obtain ⟨q2, hq2⟩ := kfree_total
          ((Phys.isPage_congr hk1 t).mpr (hvalid t (tables_pos_mid hi ht)))
        exact ⟨q2, by rw [hq1]; exact hq2, (kfree_keeps _ hq2).kend.trans (hk1.trans hk)⟩)
  obtain ⟨ph', hph'⟩ := kfree_total
    ((Phys.isPage_congr hk pt.root).mpr (hpage _ (tables_pos_root pt)))
  exact ⟨ph', by simp only [freewalk]; rw [hq]; exact hph'⟩

end Xv6Labs.Model
