/-
kexit's loops over the mappings and their pages.

A page of a private mapping is unmapped at the number of the slot: in slot
0 that is the first page of the heap, in every other uvmunmap panics. The
pages that are gone are those of the shared mappings with the page after
each (`Residue`), and the loop finishes under `ExitPasses`.
-/
import Xv6Labs.Proofs.Unmap

namespace Xv6Labs.Model

open Lib Finset

variable {k off : Nat} {ph : Phys} {ip : Option Nat} {pt1 : PageTable}

-- == the residue

/-- What the unmap turns left of a table: the pages of `C` are gone, page
0 may be, and only registered pages and page 0 were freed. -/
structure Residue (C : Nat → Prop) (pt : PageTable) (g : Glob)
    (pt' : PageTable) (g' : Glob) : Prop where
  wf : pt'.Wf
  root : pt'.root = pt.root
  tables : ∀ x, pt'.tables x = pt.tables x
  kend : g'.phys.kend = g.phys.kend
  gone : ∀ n, C n → pt'.leaf n = none
  stay : ∀ n, n ≠ 0 → ¬ C n → pt'.leaf n = pt.leaf n
  first : pt'.leaf 0 = none ∨ pt'.leaf 0 = pt.leaf 0
  free : ∀ x, x ∈ g'.phys.freelist → x ∈ g.phys.freelist
    ∨ 0 < g.shared.pages x ∨ ∃ e, pt.leaf 0 = some e ∧ e.pa = x
  shared : ∀ x, 0 < g'.shared.pages x → 0 < g.shared.pages x

section

variable {C C' : Nat → Prop} {pt pt' : PageTable} {g g' : Glob}

theorem Residue.refl (hw : pt.Wf) (g : Glob) (hC : ∀ n, ¬ C n) : Residue C pt g pt g :=
  ⟨hw, rfl, fun _ => rfl, rfl, fun n h => absurd h (hC n), fun _ _ _ => rfl,
    .inr rfl, fun _ h => .inl h, fun _ h => h⟩

theorem Residue.congr (h : Residue C pt g pt' g') (hC : ∀ n, C n ↔ C' n) : Residue C' pt g pt' g' :=
  { h with
    gone := fun n hn => h.gone n ((hC n).mpr hn)
    stay := fun n h0 hn => h.stay n h0 fun hc => hn ((hC n).mp hc) }

/-- No page is new. -/
theorem Residue.old (h : Residue C pt g pt' g') {n : Nat} {e : Pte}
    (he : pt'.leaf n = some e) : pt.leaf n = some e := by
  by_cases hn : n = 0
  · subst hn
    rcases h.first with hnone | hsame
    · rw [hnone] at he
      cases he
    · rw [← hsame]
      exact he
  · by_cases hC : C n
    · rw [h.gone n hC] at he
      cases he
    · rw [← h.stay n hn hC]
      exact he

theorem Residue.valid (h : Residue C pt g pt' g') (hv : pt.Valid g.phys) : pt'.Valid g'.phys := by
  refine ⟨h.wf, fun x hx => ?_, fun n e he h1 h2 => ?_⟩
  · rw [h.tables] at hx
    exact (Phys.isPage_congr h.kend x).mpr (hv.tables x hx)
  · exact (Phys.isPage_congr h.kend e.pa).mpr (hv.leaf n e (h.old he) h1 h2)

end

-- == one turn

section

variable {C : Nat → Prop} {pt : PageTable} {g : Glob} {v : Vma}
  {n slot : Nat} {s s' : Proc × Glob}

/-- In a tree, the turn sees the page as the residue has it. -/
theorem Residue.walk (h : Residue C pt g s.1.pagetable s.2) (hn : n < 2 ^ 26) :
    walkValid s.1.pagetable (n * pgSize) = .ok (s.1.pagetable.leaf n) := by
  rw [walkValid_eq h.wf (page_lt_maxVa hn), Nat.mul_div_cancel _ (show 0 < pgSize by decide)]

/-- A page the turn does not find was gone or never there. -/
theorem Residue.missing (h : Residue C pt g s.1.pagetable s.2) (h0 : n ≠ 0)
    (hnone : s.1.pagetable.leaf n = none) : C n ∨ pt.leaf n = none := by
  by_cases hC : C n
  · exact .inl hC
  · exact .inr ((h.stay n h0 hC).symm.trans hnone)

/-- Nothing leaves the free list. -/
theorem sharedDecref_count_le {t t' : SharedTab} {ph' : Phys}

    (h : sharedDecref t ph ip off = .ok (t', ph')) (x : Nat) :
    ph.freelist.count x ≤ ph'.freelist.count x := by
  rcases sharedDecref_cases h with
    ⟨_, _, rfl⟩ | ⟨e, _, ⟨_, rfl, _⟩ | ⟨_, ⟨ph1, h1, h2⟩, _⟩⟩
  · exact Nat.le_refl _
  · exact Nat.le_refl _
  · rw [kfree_count h2, kfree_count h1]
    omega

/-- The shared branch: the page is gone, and the registry may have freed
what was its own. -/
theorem Residue.shared_turn (h : Residue C pt g s.1.pagetable s.2)
    (hn : n < 2 ^ 26) (h0 : n ≠ 0) {g1 : Glob} (hd : s.2.sharedDecref ip off = .ok g1)
    (hu : uvmunmap s.1.pagetable g1.phys (n * pgSize) 1 false = .ok (pt1, ph)) :
    Residue (fun j => C j ∨ j = n) pt g pt1 { g1 with phys := ph } := by
  rw [uvmunmap_one h.wf (page_lt_maxVa hn) (Nat.mul_mod_left n pgSize),
    Nat.mul_div_cancel _ (show 0 < pgSize by decide), dropLeaf_false] at hu
  cases hu
  obtain ⟨⟨t, ph'⟩, hd', heq⟩ := bind_ok hd
  cases heq
  have hled := sharedDecref_ledger hd'
  have hleaf : ∀ j, j ≠ n → (s.1.pagetable.setLeaf n none).leaf j
      = s.1.pagetable.leaf j := fun j hj => by rw [setLeaf_leaf, if_neg hj]
  refine ⟨h.wf.setLeaf_none n, h.root, h.tables,
    (sharedDecref_keeps _ hd').kend.trans h.kend, fun j hj => ?_, fun j hj hC => ?_,
    ?_, fun x hx => ?_, fun x hx => ?_⟩
  · rcases hj with hC | rfl
    · rw [setLeaf_leaf]
      split
      · rfl
      · exact h.gone j hC
    · rw [setLeaf_leaf, if_pos rfl]
  · rw [hleaf j fun hjn => hC (.inr hjn)]
    exact h.stay j hj fun hc => hC (.inl hc)
  · rw [hleaf 0 h0.symm]
    exact h.first
  · -- what the registry gave up is on the free list now
    have hc := List.count_pos_iff.mpr hx
    have := hled x
    dsimp only at hc
    rcases Nat.eq_zero_or_pos (s.2.phys.freelist.count x) with hz | hpos
    · exact .inr (.inl (h.shared x (by omega)))
    · exact h.free x (List.count_pos_iff.mp hpos)
  · have := hled x
    have := sharedDecref_count_le hd' x
    dsimp only at hx
    exact h.shared x (by omega)

/-- The private branch: the page at the slot number is freed, which is
page 0 or a panic. -/
theorem Residue.private_turn (h : Residue C pt g s.1.pagetable s.2) (hslot : slot < nvma)
    (hu : uvmunmap s.1.pagetable s.2.phys slot 1 true = .ok (pt1, ph)) :
    slot = 0 ∧ Residue C pt g pt1 { s.2 with phys := ph } := by
  have hlt : slot < maxVa := by
    unfold nvma at hslot
    unfold maxVa
    omega
  have hmod := (uvmunmap_entry hlt hu).1
  have hzero : slot = 0 := by
    unfold nvma at hslot
    unfold pgSize at hmod
    omega
  subst hzero
  rw [uvmunmap_one h.wf hlt hmod, Nat.zero_div] at hu
  obtain ⟨rfl, hk, _, hfree⟩ := dropLeaf_ok hu
  refine ⟨rfl, h.wf.setLeaf_none 0, h.root, h.tables, hk.trans h.kend,
    fun j hj => ?_, fun j hj hnC => ?_, .inl ?_, fun x hx => ?_, h.shared⟩
  · rw [setLeaf_leaf]
    split
    · rfl
    · exact h.gone j hj
  · rw [setLeaf_leaf, if_neg hj]
    exact h.stay j hj hnC
  · rw [setLeaf_leaf, if_pos rfl]
  have hc := List.count_pos_iff.mpr hx
  rw [hfree rfl x] at hc
  rcases Nat.eq_zero_or_pos (s.2.phys.freelist.count x) with hz | hpos
  · cases he : s.1.pagetable.leaf 0 with
    | none =>
      rw [he, ptePoints_none] at hc
      omega
    | some e =>
      refine .inr (.inr ⟨e, h.old he, ?_⟩)
      by_contra hne
      have hpt : ptePoints (some e) x = 0 := if_neg fun heq => hne (Option.some.inj heq)
      rw [he] at hc
      omega
  · exact h.free x (List.count_pos_iff.mp hpos)

/-- One turn of kexit's loop over the pages of a mapping. A turn of a
private mapping above slot 0 finds no page. -/
theorem Residue.turn (h : Residue C pt g s.1.pagetable s.2)
    (hn : n < 2 ^ 26) (h0 : n ≠ 0) (hslot : slot < nvma)
    (ht : PageTurn v (n * pgSize) slot s s') :
    Residue (fun j => C j ∨ (v.isShared = true ∧ j = n)) pt g s'.1.pagetable s'.2
      ∧ (v.isShared = false → slot ≠ 0 → C n ∨ pt.leaf n = none) := by
  rcases ht with ⟨hw, rfl⟩ | ⟨e, hw, ⟨hs, g1, pt1, ph, hd, hu, rfl⟩ | ⟨hs, pt1, ph, hu, rfl⟩⟩
  · rw [h.walk hn] at hw
    have hnone := Except.ok.inj hw
    refine ⟨{ h with
      gone := fun j hj => ?_
      stay := fun j hj hnC => h.stay j hj fun hc => hnC (.inl hc) },
      fun _ _ => h.missing h0 hnone⟩
    rcases hj with hj | ⟨_, rfl⟩
    · exact h.gone j hj
    · exact hnone
  · refine ⟨(h.shared_turn hn h0 hd hu).congr fun j => ?_, fun hp => ?_⟩
    · simp only [hs, true_and]
    · rw [hs] at hp
      cases hp
  · obtain ⟨hzero, hr⟩ := h.private_turn hslot hu
    refine ⟨hr.congr fun j => ?_, fun _ hne => absurd hzero hne⟩
    simp only [hs, Bool.false_eq_true, false_and, or_false]

/-- A turn finishes when the pages it frees are pages, and a turn of a
private mapping above slot 0 when there is no page. -/
theorem Residue.turn_total (h : Residue C pt g s.1.pagetable s.2)
    (hreg : ∀ x, 0 < g.shared.pages x → g.phys.isPage x)
    (hfirst : ∀ e, pt.leaf 0 = some e → g.phys.isPage e.pa)
    (hn : n < 2 ^ 26) (ha : v.start + k * pgSize = n * pgSize)
    (hpass : v.isShared = true ∨ slot = 0 ∨ C n ∨ pt.leaf n = none) :
    ∃ s', exitPage v slot k s = .ok s' := by
  obtain ⟨p, g'⟩ := s
  simp only [exitPage, ha]
  rw [h.walk hn, ok_bind]
  cases he : p.pagetable.leaf n with
  | none => exact ⟨_, rfl⟩
  | some e =>
    dsimp only at he ⊢
    split
    · have hpages : ∀ x, 0 < g'.shared.pages x → g'.phys.isPage x :=
        fun x hx => (Phys.isPage_congr h.kend x).mpr (hreg x (h.shared x hx))
      obtain ⟨⟨t, ph⟩, hd⟩ := sharedDecref_total (g'.vmaIp v) (v.fileOff (n * pgSize)) hpages
      simp only [Glob.sharedDecref, hd, ok_bind, pure_eq]
      rw [uvmunmap_one h.wf (page_lt_maxVa hn) (Nat.mul_mod_left n pgSize), dropLeaf_false]
      exact ⟨_, rfl⟩
    · next hs =>
      -- the page was found, so this is slot 0
      have hzero : slot = 0 := by
        rcases hpass with hsh | hz | hC | hnone
        · exact absurd hsh hs
        · exact hz
        · rw [h.gone n hC] at he
          cases he
        · rw [h.old he] at hnone
          cases hnone
      subst hzero
      rw [uvmunmap_one h.wf (by decide) (by decide), Nat.zero_div]
      cases he0 : p.pagetable.leaf 0 with
      | none =>
        rw [dropLeaf_none he0]
        exact ⟨_, rfl⟩
      | some e0 =>
        obtain ⟨ph, hf⟩ := kfree_total
          ((Phys.isPage_congr h.kend e0.pa).mpr (hfirst e0 (h.old he0)))
        rw [dropLeaf_free he0 hf]
        exact ⟨_, rfl⟩

end

-- == kexit's loops

/-- The page is in a shared mapping of a slot below `m`, or right after
one. -/
def ExitCleared (p : Proc) (m n : Nat) : Prop :=
  ∃ s, s < m ∧ (p.vma s).valid = true ∧ (p.vma s).isShared = true
    ∧ (p.vma s).start ≤ n * pgSize ∧ n * pgSize ≤ (p.vma s).stop

/-- The private mappings below slot `m` and above slot 0: when the loop
comes to one, it finds no page in it, nor right after it. -/
def ExitPasses (p : Proc) (m : Nat) : Prop :=
  ∀ s, s < m → s ≠ 0 → (p.vma s).valid = true →
    (p.vma s).isShared = false → ∀ n, (p.vma s).start ≤ n * pgSize →
      n * pgSize ≤ (p.vma s).stop → ExitCleared p s n ∨ p.pagetable.leaf n = none

/-- The same within slot `m`, when `k` of its pages were visited. -/
def ExitVisited (p : Proc) (m k n : Nat) : Prop :=
  ExitCleared p m n ∨ ((p.vma m).isShared = true
    ∧ (p.vma m).start ≤ n * pgSize
    ∧ n * pgSize < (p.vma m).start + k * pgSize)

section

variable {p : Proc} {g : Glob} {m : Nat}
variable {s s' : Proc × Glob} {n : Nat}

theorem exitCleared_succ (n : Nat) : ExitCleared p (m + 1) n
    ↔ ExitCleared p m n ∨ ((p.vma m).valid = true
      ∧ (p.vma m).isShared = true ∧ (p.vma m).start ≤ n * pgSize
      ∧ n * pgSize ≤ (p.vma m).stop) := by
  constructor
  · rintro ⟨s, hs, hrest⟩
    rcases Nat.lt_succ_iff_lt_or_eq.mp hs with hlt | rfl
    · exact .inl ⟨s, hlt, hrest⟩
    · exact .inr hrest
  · rintro (⟨s, hs, hrest⟩ | hrest)
    · exact ⟨s, Nat.lt_succ_of_lt hs, hrest⟩
    · exact ⟨m, Nat.lt_succ_self m, hrest⟩

theorem exitCleared_skip (hv : (p.vma m).valid = false) (n : Nat) :
    ExitCleared p m n ↔ ExitCleared p (m + 1) n := by
  rw [exitCleared_succ]
  simp [hv]

theorem exit_page (hl : Layout p) (hm : m < nvma) (hv : (p.vma m).valid = true)
    (hk : k < pagesThrough (p.vma m).start (p.vma m).stop) :
    ∃ n, (p.vma m).start + k * pgSize = n * pgSize ∧ n ≠ 0 ∧ n < 2 ^ 26
      ∧ n * pgSize ≤ (p.vma m).stop := by
  have hok := hl.ok m hm hv
  have hbase := hok.base
  have hmod := hok.start_mod
  have hle := hok.le_cur
  have htop := hl.cur_top
  rw [lt_pagesThrough] at hk
  refine ⟨(p.vma m).start / pgSize + k, ?_, ?_, ?_, ?_⟩
  all_goals
    unfold mmapBase at hbase
    unfold mmapTop at htop
    unfold pgSize at *
    omega

theorem exitVisited_zero (n : Nat) : ExitCleared p m n ↔ ExitVisited p m 0 n := by
  constructor
  · exact .inl
  · rintro (hc | ⟨_, h1, h2⟩)
    · exact hc
    · omega

theorem exitVisited_succ (hn : (p.vma m).start + k * pgSize = n * pgSize) (j : Nat) :
    (ExitVisited p m k j ∨ ((p.vma m).isShared = true ∧ j = n)) ↔ ExitVisited p m (k + 1) j := by
  unfold ExitVisited
  rw [or_assoc, ← and_or_left]
  refine or_congr Iff.rfl (and_congr Iff.rfl ?_)
  unfold pgSize at *
  omega

theorem exitVisited_all (hl : Layout p) (hm : m < nvma) (hv : (p.vma m).valid = true) (n : Nat) :
    ExitVisited p m (pagesThrough (p.vma m).start (p.vma m).stop) n ↔ ExitCleared p (m + 1) n := by
  have hok := hl.ok m hm hv
  have hlt := hok.lt
  have hmod' := hok.stop_mod
  rw [exitCleared_succ]
  refine or_congr Iff.rfl ?_
  simp only [hv, true_and]
  refine and_congr Iff.rfl (and_congr Iff.rfl ?_)
  unfold pagesThrough
  rw [if_pos (by omega)]
  unfold pgSize at *
  omega

/-- Every page of a private slot that a turn visits is accounted for. -/
theorem exitVisited_private (hs : (p.vma m).isShared = false)
    (h : ExitVisited p m k n) : ExitCleared p m n := by
  rcases h with hc | ⟨hsh, _⟩
  · exact hc
  · rw [hs] at hsh
    cases hsh

theorem exitPages_residue (hl : Layout p) (hm : m < nvma)
    (hv : (p.vma m).valid = true)
    (h : Residue (ExitCleared p m) p.pagetable g s.1.pagetable s.2)
    (hloop : forUpto (exitPage (p.vma m) m)
      (pagesThrough (p.vma m).start (p.vma m).stop) s = .ok s') :
    Residue (ExitCleared p (m + 1)) p.pagetable g s'.1.pagetable s'.2
      ∧ ((p.vma m).isShared = false → m ≠ 0 → ∀ n,
          (p.vma m).start ≤ n * pgSize → n * pgSize ≤ (p.vma m).stop →
            ExitCleared p m n ∨ p.pagetable.leaf n = none) := by
  have hinv := forUpto_inv
    (fun k t => Residue (ExitVisited p m k) p.pagetable g t.1.pagetable t.2
      ∧ ((p.vma m).isShared = false → m ≠ 0 → ∀ n, (p.vma m).start ≤ n * pgSize →
          n * pgSize < (p.vma m).start + k * pgSize →
            ExitCleared p m n ∨ p.pagetable.leaf n = none))
    ⟨h.congr exitVisited_zero, fun _ _ n h1 h2 => by omega⟩ ?_ hloop
  · refine ⟨hinv.1.congr (exitVisited_all hl hm hv), fun hs h0 n h1 h2 => ?_⟩
    refine hinv.2 hs h0 n h1 ?_
    unfold pagesThrough
    rw [if_pos (by omega)]
    unfold pgSize at *
    omega
  intro k hk t t' ⟨hr, hpass⟩ hturn
  obtain ⟨n, hpage, hn0, hn, _⟩ := exit_page hl hm hv hk
  have ht := exitPage_turn hturn
  rw [hpage] at ht
  obtain ⟨hr', hfound⟩ := hr.turn hn hn0 hm ht
  refine ⟨hr'.congr (exitVisited_succ hpage), fun hs h0 j h1 h2 => ?_⟩
  rcases Nat.lt_or_ge (j * pgSize) ((p.vma m).start + k * pgSize) with
    hlt | hge
  · exact hpass hs h0 j h1 hlt
  have hj : j = n := by
    unfold pgSize at *
    omega
  subst hj
  rcases hfound hs h0 with hvis | hnone
  · exact .inl (exitVisited_private hs hvis)
  · exact .inr hnone

theorem exitPages_total (hl : Layout p) (hm : m < nvma) (hv : (p.vma m).valid = true)
    (hreg : ∀ x, 0 < g.shared.pages x → g.phys.isPage x)
    (hfirst : ∀ e, p.pagetable.leaf 0 = some e → g.phys.isPage e.pa)
    (hpass : ExitPasses p nvma)
    (h : Residue (ExitCleared p m) p.pagetable g s.1.pagetable s.2) :
    ∃ s', forUpto (exitPage (p.vma m) m)
      (pagesThrough (p.vma m).start (p.vma m).stop) s = .ok s' := by
  have htotal := forUpto_total (f := exitPage (p.vma m) m)
    (n := pagesThrough (p.vma m).start (p.vma m).stop)
    (fun k t => Residue (ExitVisited p m k) p.pagetable g t.1.pagetable t.2)
    (h.congr exitVisited_zero) ?_
  · exact htotal.imp fun _ h => h.1
  intro k hk t hr
  obtain ⟨n, hpage, hn0, hn, hstop⟩ := exit_page hl hm hv hk
  have hok : (p.vma m).isShared = true ∨ m = 0 ∨ ExitVisited p m k n
      ∨ p.pagetable.leaf n = none := by
    cases hs : (p.vma m).isShared with
    | true => exact .inl rfl
    | false =>
      by_cases h0 : m = 0
      · exact .inr (.inl h0)
      · rcases hpass m hm h0 hv hs n (by omega) hstop with hc | hnone
        · exact .inr (.inr (.inl (.inl hc)))
        · exact .inr (.inr (.inr hnone))
  obtain ⟨t', ht'⟩ := hr.turn_total hreg hfirst hn hpage hok
  have hturn := exitPage_turn ht'
  rw [hpage] at hturn
  exact ⟨t', ht', (hr.turn hn hn0 hm hturn).1.congr (exitVisited_succ hpage)⟩

/-- One turn of the loop over the slots. -/
theorem exitVma_residue (hl : Layout p) (hm : m < nvma) {pt : PageTable}
    {gt : Glob} (h : Residue (ExitCleared p m) p.pagetable g pt gt)
    (hpass : ExitPasses p m)
    (hturn : exitVma m ({ p.dropMaps m with pagetable := pt }, gt) = .ok s) :
    Residue (ExitCleared p (m + 1)) p.pagetable g s.1.pagetable s.2 ∧ ExitPasses p (m + 1) := by
  rcases exitVma_cases hturn with ⟨hv, rfl⟩ | ⟨hv, hloop⟩
  · refine ⟨h.congr (exitCleared_skip hv), fun s hs h0 hvs => ?_⟩
    rcases Nat.lt_succ_iff_lt_or_eq.mp hs with hlt | rfl
    · exact hpass s hlt h0 hvs
    · rw [hv] at hvs
      cases hvs
  · obtain ⟨hr, hp⟩ := exitPages_residue hl hm hv h hloop
    refine ⟨hr, fun s hs h0 hvs hsh => ?_⟩
    rcases Nat.lt_succ_iff_lt_or_eq.mp hs with hlt | rfl
    · exact hpass s hlt h0 hvs hsh
    · exact hp hsh h0

theorem exitVmas_residue (hl : Layout p) (hw : p.pagetable.Wf)
    (h : forUpto exitVma nvma (p, g) = .ok s') :
    Residue (ExitCleared p nvma) p.pagetable g s'.1.pagetable s'.2 ∧ ExitPasses p nvma := by
  have hinv := forUpto_inv
    (fun m t => OnlyTable (p.dropMaps m) t.1
      ∧ Residue (ExitCleared p m) p.pagetable g t.1.pagetable t.2 ∧ ExitPasses p m)
    ⟨⟨p.pagetable, by simp [Proc.dropMaps]⟩,
      .refl hw g fun _ ⟨s, hs, _⟩ => absurd hs (Nat.not_lt_zero s),
      fun s hs => absurd hs (Nat.not_lt_zero s)⟩ ?_ h
  · exact hinv.2
  · rintro m hm ⟨t, gt⟩ t' ⟨⟨pt, rfl⟩, hr, hpass⟩ hturn
    exact ⟨(exitVma_frame hturn).1, exitVma_residue hl hm hr hpass hturn⟩

/-- And it finishes. -/
theorem exitVmas_total (hl : Layout p) (hw : p.pagetable.Wf)
    (hreg : ∀ x, 0 < g.shared.pages x → g.phys.isPage x)
    (hfirst : ∀ e, p.pagetable.leaf 0 = some e → g.phys.isPage e.pa) (hpass : ExitPasses p nvma) :
    ∃ s', forUpto exitVma nvma (p, g) = .ok s' := by
  have htotal := forUpto_total (f := exitVma) (n := nvma) (s := (p, g))
    (fun m t => OnlyTable (p.dropMaps m) t.1
      ∧ Residue (ExitCleared p m) p.pagetable g t.1.pagetable t.2)
    ⟨⟨p.pagetable, by simp [Proc.dropMaps]⟩,
      .refl hw g fun _ ⟨s, hs, _⟩ => absurd hs (Nat.not_lt_zero s)⟩ ?_
  · exact htotal.imp fun _ h => h.1
  rintro m hm ⟨t, gt⟩ ⟨⟨pt, rfl⟩, hr⟩
  have hturn : ∃ t', exitVma m ({ p.dropMaps m with pagetable := pt }, gt) = .ok t' := by
    have hvm : ({ p.dropMaps m with pagetable := pt } : Proc).vma m = p.vma m := by
      simp [Proc.dropMaps]
    simp only [exitVma]
    rw [hvm]
    split
    · next hv =>
      rw [dropMaps_succ]
      exact exitPages_total hl hm hv hreg hfirst hpass hr
    · exact ⟨_, rfl⟩
  obtain ⟨t', ht'⟩ := hturn
  exact ⟨t', ht', (exitVma_frame ht').1, (exitVma_residue hl hm hr
    (fun s hs => hpass s (hs.trans hm)) ht').1⟩

end

end Xv6Labs.Model
