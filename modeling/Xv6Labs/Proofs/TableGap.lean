/-
The stretch between a heap and the mapping area, in the page table.

`GapFrom b`: no entry from `b` up to MMAPBASE. As long as the heap ends
below MMAPBASE the functions on it end in none of `tablePanics`, "walk" and
"mappages: remap".
-/
import Xv6Labs.Model.Life
import Xv6Labs.Proofs.Panics

namespace Xv6Labs.Model

open Lib

variable {pt pt' : PageTable} {b k n newsz oldsz sz va : Nat} {ph ph' : Phys}
  {f : Bool} {xperm : Perm} {s : PageTable × Phys}
variable {a c pa : Nat} {perm : Perm} {old : PageTable}

abbrev tablePanics : List Panic := [.walk, .remap]

/-- The table has no entry between `b` and the mapping area. -/
def PageTable.GapFrom (pt : PageTable) (b : Nat) : Prop :=
  ∀ n e, pt.entry n = some e → n * pgSize < b ∨ mmapBase ≤ n * pgSize

theorem PageTable.GapFrom.mono (h : pt.GapFrom b) (hbc : b ≤ c) : pt.GapFrom c := by
  intro n e he
  have := h n e he
  omega

/-- No entry is new. -/
theorem PageTable.GapFrom.of_old (h : pt.GapFrom b)
    (hold : ∀ n e, pt'.entry n = some e → pt.entry n = some e) : pt'.GapFrom b :=
  fun n e he => h n e (hold n e he)

theorem PageTable.GapFrom.none (h : pt.GapFrom b) (hlo : b ≤ n * pgSize)
    (hhi : n * pgSize < mmapBase) : pt.entry n = none := by
  cases he : pt.entry n with
  | none => rfl
  | some e =>
    have := h n e he
    omega

theorem gapFrom_empty (r b : Nat) : (PageTable.empty r).GapFrom b := by
  intro n e he
  cases he

theorem lt_maxVa_of_mmapBase (h : a < mmapBase) : a < maxVa := by
  unfold mmapBase at h
  unfold maxVa
  omega

theorem pgRoundUp_le_mmapBase (h : a ≤ mmapBase) :
    a ≤ pgRoundUp a ∧ pgRoundUp a ≤ mmapBase ∧ pgRoundUp a < a + 4096 := by
  unfold mmapBase at *
  rw [pgRoundUp_eq (by omega)]
  omega

-- == mappages

theorem mappages_safe (hva : va < maxVa)
    (hfree : pt.entry (va / pgSize) = none) :
    Avoids tablePanics (mappages pt ph va pgSize pa perm) := by
  intro e he
  obtain ⟨rfl, _⟩ := mappages_panics hva hfree he
  decide

/-- A page mapped below `c`, or in the mapping area. -/
theorem mappages_gap {ok : Bool} (hva : va < maxVa)
    (hg : pt.GapFrom b) (hbc : b ≤ c) (hin : va < c ∨ mmapBase ≤ va)
    (h : mappages pt ph va pgSize pa perm = .ok (ok, pt', ph')) : pt'.GapFrom c := by
  have hlt : va < 2 ^ 64 := by
    unfold maxVa at hva
    omega
  obtain ⟨hmod, _, _, ⟨_, hent⟩ | ⟨_, _, hent⟩⟩ := mappages_entry hlt h
  · exact (hg.mono hbc).of_old fun n e he => by rw [← hent]; exact he
  intro n e he
  rw [hent] at he
  split at he
  · next hn =>
    have : n * pgSize = va := by
      unfold pgSize at *
      omega
    omega
  · exact hg.mono hbc n e he

-- == uvmunmap

theorem uvmunmap_pages (h : va + n * pgSize ≤ maxVa) :
    pagesBelow va (u64 ((va : Int) + n * pgSize)) = n := by
  rw [u64_of_lt (n := va + n * pgSize) (by omega) (by unfold maxVa at h; omega)]
  unfold pagesBelow pgSize
  omega

/-- uvmunmap takes out the entries of its range and no other. -/
theorem uvmunmap_entries (hva : va + n * pgSize ≤ maxVa)
    (h : uvmunmap pt ph va n f = .ok (pt', ph')) :
    ∀ m, pt'.entry m = if va / pgSize ≤ m ∧ m < va / pgSize + n then none else pt.entry m := by
  unfold uvmunmap at h
  split at h
  · cases h
  rw [uvmunmap_pages hva] at h
  refine forUpto_inv (fun k (t : PageTable × Phys) => ∀ m, t.1.entry m
    = if va / pgSize ≤ m ∧ m < va / pgSize + k then none else pt.entry m) ?_ ?_ h
  · intro m
    rw [if_neg (by omega)]
  intro k hk t t' hP hturn m
  have hlt : va + k * pgSize < maxVa := by
    unfold pgSize at *
    omega
  -- a turn takes out the entry of its page
  have hone : t'.1.entry m = if m = va / pgSize + k then none else t.1.entry m := by
    simp only [unmapPage, walk_eq hlt, page_add, ok_bind] at hturn
    by_cases hin : (t.1.mid ((va / pgSize + k) / 2 ^ 18)).isSome
        ∧ (t.1.low ((va / pgSize + k) / 512)).isSome
    · rw [if_pos hin] at hturn
      dsimp only at hturn
      split at hturn
      · next hnone =>
        cases hturn
        split
        · next hm => rw [hm, PageTable.entry, if_pos hin, hnone]
        · rfl
      · obtain ⟨q, _, hturn⟩ := bind_ok hturn
        cases hturn
        exact entry_setLeaf hin.1 hin.2 m
    · rw [if_neg hin] at hturn
      cases hturn
      split
      · next hm => rw [hm, PageTable.entry, if_neg hin]
      · rfl
  rw [hone]
  by_cases hm : m = va / pgSize + k
  · rw [if_pos hm, if_pos (by omega)]
  · rw [if_neg hm, hP m]
    by_cases hin : va / pgSize ≤ m ∧ m < va / pgSize + k
    · rw [if_pos hin, if_pos (by omega)]
    · rw [if_neg hin, if_neg (by omega)]

-- == freeing a table

theorem kfree_safe (ph : Phys) (pa : Nat) :
    Avoids tablePanics (kfree ph pa) := kfree_avoids (by decide)

theorem uvmunmap_safe (h : va + n * pgSize ≤ maxVa) : Avoids tablePanics (uvmunmap pt ph va n f) :=
  uvmunmap_avoids (by decide) (by decide) fun _ => h

theorem freewalk_safe (pt : PageTable) (ph : Phys) : Avoids tablePanics (freewalk pt ph) := by
  have hlow : ∀ k, Avoids tablePanics (freewalkLow pt k) := by
    intro k
    refine .each fun i _ => ?_
    split
    · exact .ok _
    · split <;> exact .error (by decide)
  have hmid : ∀ i ph, Avoids tablePanics (freewalkMid pt i ph) := by
    intro i ph
    refine .each fun j ph => ?_
    unfold freewalkMidTurn
    split
    · exact .ok _
    · exact (hlow _).bind fun _ _ => kfree_safe _ _
  refine .bind (.each fun i ph => ?_) fun _ _ => kfree_safe _ _
  unfold freewalkTurn
  split
  · exact .ok _
  · exact (hmid i ph).bind fun _ _ => kfree_safe _ _

theorem uvmfree_safe (h : sz ≤ mmapBase) : Avoids tablePanics (uvmfree pt ph sz) := by
  refine .bind ?_ fun s _ => freewalk_safe s.1 s.2
  split
  · refine uvmunmap_safe ?_
    have := pgRoundUp_le_mmapBase h
    unfold mmapBase at this
    unfold maxVa pgSize
    omega
  · exact .ok _

theorem trampoline_end : trampoline + 1 * pgSize ≤ maxVa := by decide

theorem trapframe_end : trapframe + 1 * pgSize ≤ maxVa := by decide

theorem procFreepagetable_safe (h : sz ≤ mmapBase) :
    Avoids tablePanics (procFreepagetable pt ph sz) :=
  (uvmunmap_safe trampoline_end).bind fun _ _ =>
    (uvmunmap_safe trapframe_end).bind fun _ _ => uvmfree_safe h

theorem freeproc_safe {p : Proc} (h : p.sz ≤ mmapBase) : Avoids tablePanics (freeproc p ph) := by
  refine .bind ?_ fun _ _ => .bind ?_ fun _ _ => .ok _
  · split
    · exact .ok _
    · exact kfree_safe _ _
  · split
    · exact .ok _
    · exact procFreepagetable_safe h

-- == growing, shrinking

/-- uvmdealloc to a smaller size: a range of whole pages is unmapped. -/
theorem dealloc_range (h : oldsz ≤ mmapBase)
    (hlt : pgRoundUp newsz < pgRoundUp oldsz) (hle : newsz ≤ oldsz) :
    pgRoundUp newsz + u64 (i32 (((pgRoundUp oldsz - pgRoundUp newsz) / pgSize : Nat))) * pgSize
      = pgRoundUp oldsz := by
  have ho := pgRoundUp_le_mmapBase h
  have hn := pgRoundUp_le_mmapBase (hle.trans h)
  have hom := pgRoundUp_mod oldsz
  have hnm := pgRoundUp_mod newsz
  unfold mmapBase at ho hn
  rw [u64_i32_of_lt (by unfold pgSize; omega)]
  unfold pgSize
  omega

/-- The size uvmdealloc returns, and the gap after it. -/
theorem uvmdealloc_gap (h : oldsz ≤ mmapBase) (hg : pt.GapFrom (pgRoundUp oldsz)) :
    Meets tablePanics (uvmdealloc pt ph oldsz newsz) fun r =>
      r.1 = min oldsz newsz ∧ r.2.1.GapFrom (pgRoundUp r.1) := by
  have ho := pgRoundUp_le_mmapBase h
  refine .ite (fun _ => .ok ⟨by omega, hg⟩) fun hge => .ite (fun hlt => ?_)
    fun hno => .ok ⟨by omega, hg.mono (Nat.not_lt.mp hno)⟩
  have hrange := dealloc_range h hlt (by omega)
  have hmax : pgRoundUp oldsz ≤ maxVa := by
    unfold mmapBase at ho
    unfold maxVa
    omega
  rw [← hrange] at hmax
  refine (uvmunmap_safe hmax).meets.bind fun t hu => .ok ⟨by omega, fun n e he => ?_⟩
  rw [uvmunmap_entries hmax hu] at he
  split at he
  · cases he
  · next hout =>
    show n * pgSize < pgRoundUp newsz ∨ mmapBase ≤ n * pgSize
    have := hg n e he
    have hnm := pgRoundUp_mod newsz
    unfold pgSize at *
    omega

/-- A turn of uvmalloc's loop, inside the gap: it goes on with one page
more, or gives all pages back. -/
theorem allocPage_gap (hmod : b % 4096 = 0) (hlt : b + k * pgSize < mmapBase)
    (hg : s.1.GapFrom (b + k * pgSize)) :
    Meets tablePanics (allocPage b xperm k s)
      (Sum.elim (fun t => t.1.GapFrom (b + (k + 1) * pgSize)) fun t => t.1.GapFrom b) := by
  have hva := lt_maxVa_of_mmapBase hlt
  have hup : ∀ {a}, a % 4096 = 0 → a ≤ mmapBase → pgRoundUp a = a := by
    intro a ha hle
    unfold mmapBase at hle
    rw [pgRoundUp_eq (by omega)]
    omega
  have hmodk : (b + k * pgSize) % 4096 = 0 := by
    unfold pgSize
    omega
  have hback : ∀ {pt : PageTable} (ph : Phys), pt.GapFrom (b + k * pgSize) →
      Meets tablePanics (uvmdealloc pt ph (b + k * pgSize) b) fun r =>
        r.2.1.GapFrom b := by
    intro pt ph hgap
    rw [← hup hmodk hlt.le] at hgap
    refine (uvmdealloc_gap hlt.le hgap).mono fun r hr => ?_
    rw [hr.1, Nat.min_eq_right (Nat.le_add_right _ _), hup hmod (by omega)] at hr
    exact hr.2
  unfold allocPage
  split
  · exact (hback _ hg).bind fun _ h => .ok h
  refine (mappages_safe hva (hg.none ?_ ?_)).meets.bind fun t hm =>
    .ite (fun _ => .ok ?_) fun hno => ?_
  · unfold pgSize
    omega
  · unfold pgSize at *
    omega
  · refine mappages_gap hva hg ?_ (.inl ?_) hm
    · unfold pgSize
      omega
    · unfold pgSize
      omega
  · refine (kfree_safe _ _).meets.bind fun _ _ =>
      (hback _ (hg.of_old fun n e he => ?_)).bind fun _ h => .ok h
    have hlt64 : b + k * pgSize < 2 ^ 64 := by
      unfold maxVa at hva
      omega
    rcases (mappages_entry hlt64 hm).2.2.2 with ⟨_, hent⟩ | ⟨hok, _⟩
    · rw [← hent]
      exact he
    · exact absurd hok hno

/-- uvmalloc that fails leaves the gap, one that succeeds moves it. -/
theorem uvmalloc_gap (hold : oldsz ≤ newsz) (hnew : newsz ≤ mmapBase)
    (hg : pt.GapFrom (pgRoundUp oldsz)) :
    Meets tablePanics (uvmalloc pt ph oldsz newsz xperm) fun r =>
      r.1 = 0 ∧ r.2.1.GapFrom (pgRoundUp oldsz)
        ∨ r.1 = newsz ∧ r.2.1.GapFrom (pgRoundUp newsz) := by
  unfold uvmalloc
  rw [if_neg (by omega)]
  refine .bind (.forRet (fun k t => t.1.GapFrom (pgRoundUp oldsz + k * pgSize))
    (fun t => t.1.GapFrom (pgRoundUp oldsz)) ?_ fun k hk t hgap => ?_)
    fun o ho => ?_
  · rw [Nat.zero_mul, Nat.add_zero]
    exact hg
  · refine allocPage_gap (pgRoundUp_mod _) ?_ hgap
    rw [lt_pagesBelow] at hk
    unfold pgSize
    omega
  cases o with
  | inr t => exact .ok (.inl ⟨rfl, ho⟩)
  | inl t =>
    refine .ok (.inr ⟨rfl, PageTable.GapFrom.mono ho ?_⟩)
    unfold mmapBase at hnew
    rw [pgRoundUp_eq (by omega), pgRoundUp_eq (by omega)]
    unfold pagesBelow pgSize
    omega

-- == copying a table

/-- A turn of uvmcopy's loop: the pages below `k` are copied. -/
theorem copyPage_gap (hlt : k * pgSize < mmapBase)
    (hg : s.1.GapFrom (k * pgSize)) :
    Meets tablePanics (copyPage old k s)
      (Sum.elim (fun t => t.1.GapFrom ((k + 1) * pgSize)) fun r => r.1 = k) := by
  have hva := lt_maxVa_of_mmapBase hlt
  have hnext : k * pgSize ≤ (k + 1) * pgSize := by
    unfold pgSize
    omega
  refine (walkValid_avoids fun _ => hva).meets.bind fun o _ => ?_
  cases o with
  | none => exact .ok (hg.mono hnext)
  | some e =>
    dsimp only
    split
    · exact .ok rfl
    have hpage : k * pgSize / pgSize = k := Nat.mul_div_cancel k (by decide)
    refine (mappages_safe hva ?_).meets.bind fun t hm =>
      .ite (fun _ => .ok ?_) fun _ =>
        (kfree_safe _ _).meets.bind fun _ _ => .ok rfl
    · rw [hpage]
      exact hg.none (Nat.le_refl _) hlt
    · refine mappages_gap hva hg hnext (.inl ?_) hm
      unfold pgSize
      omega

theorem uvmcopy_gap {new : PageTable} (hsz : sz ≤ mmapBase) (hg : new.GapFrom 0) :
    Meets tablePanics (uvmcopy old new ph sz) fun r =>
      r.1 = true → r.2.1.GapFrom (pgRoundUp sz) := by
  have hturn : ∀ {k}, k < pagesBelow 0 sz → k * pgSize < mmapBase := by
    intro k hk
    rw [lt_pagesBelow] at hk
    unfold pgSize
    omega
  refine .bind (.forRet (fun k t => t.1.GapFrom (k * pgSize))
    (fun r => r.1 < pagesBelow 0 sz) ?_ fun k hk t hgap => ?_) fun o ho => ?_
  · rw [Nat.zero_mul]
    exact hg
  · refine (copyPage_gap (hturn hk) hgap).mono fun o ho => ?_
    cases o with
    | inl t => exact ho
    | inr r => exact ho.trans_lt hk
  cases o with
  | inl t =>
    refine .ok fun _ => PageTable.GapFrom.mono ho ?_
    unfold mmapBase at hsz
    rw [pgRoundUp_eq (by omega)]
    unfold pagesBelow pgSize
    omega
  | inr r =>
    refine (uvmunmap_safe ?_).meets.bind fun _ _ => .ok nofun
    have hlt := lt_maxVa_of_mmapBase (hturn ho)
    omega

/-- proc_pagetable maps the two top pages of an empty table. -/
theorem procPagetable_gap (ph : Phys) (tf : Nat) :
    Meets tablePanics (procPagetable ph tf) fun r =>
      ∀ pt, r.1 = some pt → pt.GapFrom 0 := by
  unfold procPagetable
  split
  · exact .ok nofun
  · next pt ph1 hc =>
    obtain ⟨r, rfl⟩ : ∃ r, pt = .empty r := by
      unfold uvmcreate at hc
      split at hc <;> cases hc
      exact ⟨_, rfl⟩
    refine (mappages_safe (by decide) rfl).meets.bind fun t ht =>
      .ite (fun _ => ?_) fun _ =>
        (uvmfree_safe (Nat.zero_le _)).meets.bind fun _ _ => .ok nofun
    refine (mappages_safe (by decide) ?_).meets.bind fun u hu =>
      .ite (fun _ => .ok ?_) fun _ =>
        (uvmunmap_safe trampoline_end).meets.bind fun _ _ =>
          (uvmfree_safe (Nat.zero_le _)).meets.bind fun _ _ => .ok nofun
    · rcases (mappages_entry (by decide) ht).2.2.2 with
        ⟨_, hent⟩ | ⟨_, _, hent⟩
      · rw [hent]
        rfl
      · rw [hent]
        rfl
    · rintro _ ⟨⟩
      exact mappages_gap (by decide)
        (mappages_gap (by decide) (gapFrom_empty r 0) (Nat.le_refl _)
          (.inr (by decide)) ht) (Nat.le_refl _) (.inr (by decide)) hu

end Xv6Labs.Model
