/-
Unmapping and the two ledgers: the page loops of sys_munmap and kexit. Both
run one page past the mapping, and that turn is harmless only if it finds
nothing to unmap there (`EndClear`), or when neither side is shared.
-/
import Xv6Labs.Proofs.Faults

namespace Xv6Labs.Model

open Lib Finset

variable {p p' : Proc} {g g' : Glob} {pt : PageTable} {ph : Phys} {n : Nat}
variable {ip : Option Nat} {b i off : Nat} {g1 : Glob} {v : Vma}

-- == one turn

/-- Pages were unmapped: the ledgers are in step, entries went only with
their pages, and PTEs were only cleared. -/
structure Unmapped (p : Proc) (g : Glob) (p' : Proc) (g' : Glob) : Prop where
  moves : Moves p g p' g'
  drops : Drops g.shared g.phys g'.shared g'.phys
  leaf : ∀ m, p'.pagetable.leaf m = p.pagetable.leaf m ∨ p'.pagetable.leaf m = none
  vma : p'.vma = p.vma
  files : g'.ftable = g.ftable

theorem Unmapped.refl (h : Fits p g) : Unmapped p g p g :=
  ⟨.refl h, .refl _ _, fun _ => .inl rfl, rfl, rfl⟩

theorem Unmapped.trans {p'' : Proc} {g'' : Glob} (h : Unmapped p g p' g')
    (h' : Unmapped p' g' p'' g'') : Unmapped p g p'' g'' := by
  refine ⟨h.moves.trans h'.moves, h.drops.trans h'.drops, fun m => ?_,
    h'.vma.trans h.vma, h'.files.trans h.files⟩
  rcases h'.leaf m with h1 | h1
  · rw [h1]
    exact h.leaf m
  · exact .inr h1

/-- What is not mapped stays so. -/
theorem Unmapped.leaf_none (h : Unmapped p g p' g') {m : Nat}
    (hm : p.pagetable.leaf m = none) : p'.pagetable.leaf m = none := by
  rcases h.leaf m with h1 | h1
  · rw [h1, hm]
  · exact h1

theorem Unmapped.sharedAt (h : Unmapped p g p' g') : p'.sharedAt = p.sharedAt :=
  sharedAt_congr h.vma

theorem uvmunmap_page {pt' : PageTable} {ph' : Phys} {f : Bool} (hw : pt.Wf)
    (hn : n < 2 ^ 26) (h : uvmunmap pt ph (n * pgSize) 1 f = .ok (pt', ph')) :
    dropLeaf pt ph n f = .ok (pt', ph') := by
  rw [uvmunmap_one hw (page_lt_maxVa hn) (Nat.mul_mod_left n pgSize),
    Nat.mul_div_cancel n (by decide)] at h
  exact h

theorem sharedPtes_pos (hn : n < 2 ^ 26)
    (h : p.keyAt g n = some (ip, off)) : 0 < p.sharedPtes g ip off := by
  have hrow := row_le_sum (f := fun n => keyHits (p.keyAt g n) ip off) hn
  have hone : keyHits (p.keyAt g n) ip off = 1 := by
    rw [h, keyHits_some, if_pos ⟨rfl, rfl⟩]
  unfold Proc.sharedPtes
  omega

/-- The PTE of page `n` goes, with its reference if it has a key and its
page if it is the process's own. -/
theorem Unmapped.remove (hf : Fits p g) (hn : n < 2 ^ 26)
    (hok : g1.shared.Ok) (hdrops : Drops g.shared g.phys g1.shared g1.phys)
    (hfiles : g1.ftable = g.ftable)
    (hrefs : ∀ ip off, g1.shared.refs ip off + keyHits (p.keyAt g n) ip off = g.shared.refs ip off)
    (huses : ∀ x, g1.uses x = g.uses x + ptePoints (p.ownLeaf n) x) :
    Unmapped p g { p with pagetable := p.pagetable.setLeaf n none } g1
      ∧ (p.pagetable.setLeaf n none).leaf n = none := by
  obtain ⟨hown, hptes⟩ := remove_columns (p := p) (g := g) hn
  refine ⟨⟨⟨hf.table.setLeaf_none n, hok, fun ip off => ?_, fun x => ?_⟩,
    hdrops, fun m => ?_, rfl, hfiles⟩, ?_⟩
  · have h1 := hrefs ip off
    have h2 := hptes ip off
    rw [sharedPtes_files hfiles]
    omega
  · have h1 := huses x
    have h2 := hown x
    unfold Proc.uses
    rw [setLeaf_tables]
    dsimp only
    omega
  · show (if m = n then none else p.pagetable.leaf m) = _ ∨ _
    by_cases hm : m = n
    · rw [hm]
      exact .inr (if_pos (Eq.refl n))
    · exact .inl (if_neg hm)
  · rw [setLeaf_leaf, if_pos (Eq.refl n)]

/-- One reference and one PTE of the same key go. -/
theorem unmapShared_turn (hf : Fits p g) (hn : n < 2 ^ 26)
    (hleaf : (p.pagetable.leaf n).isSome = true) (hkey : p.sharedKey g n = some (ip, off))
    (hd : g.sharedDecref ip off = .ok g1)
    (hu : uvmunmap p.pagetable g1.phys (n * pgSize) 1 false = .ok (pt, ph)) :
    Unmapped p g { p with pagetable := pt } { g1 with phys := ph } ∧ pt.leaf n = none := by
  obtain ⟨t, ph1, hdec, rfl⟩ := decref_glob hd
  obtain ⟨rfl, _, hph, _⟩ := dropLeaf_ok (uvmunmap_page hf.table hn hu)
  have hph : ph = ph1 := hph rfl
  subst hph
  have hat : p.keyAt g n = some (ip, off) := by
    rw [Proc.keyAt, if_pos hleaf, hkey]
  have hshared : (p.sharedAt n).isSome = true := by
    rw [← Option.isSome_map, ← Proc.sharedKey, hkey]
    rfl
  have hpos : 0 < g.shared.refs ip off := by
    have h1 := sharedPtes_pos hn hat
    have h2 := hf.le ip off
    omega
  refine Unmapped.remove hf hn (sharedDecref_ok hf.shared hdec)
    (sharedDecref_drops hf.shared.wf hdec) rfl (fun ip' off' => ?_) fun x => ?_
  · have h1 := sharedDecref_refs hf.shared hpos hdec ip' off'
    rw [hat]
    exact h1
  have h1 := sharedDecref_ledger hdec x
  rw [Proc.ownLeaf, if_pos hshared, ptePoints_none]
  unfold Glob.uses
  dsimp only
  omega

theorem unmapOwn_turn (hf : Fits p g) (hn : n < 2 ^ 26) (huser : UserPage n)
    (hown : p.sharedAt n = none)
    (hu : uvmunmap p.pagetable g.phys (n * pgSize) 1 true = .ok (pt, ph)) :
    Unmapped p g { p with pagetable := pt } { g with phys := ph } ∧ pt.leaf n = none := by
  obtain ⟨rfl, _, _, hcount⟩ := dropLeaf_ok (uvmunmap_page hf.table hn hu)
  have hcount := hcount rfl
  have hat : p.keyAt g n = none := by
    rw [Proc.keyAt, Proc.sharedKey, hown]
    exact ite_self _
  refine Unmapped.remove hf hn hf.shared (.of_free _ fun x hx => ?_) rfl
    (fun ip off => ?_) fun x => ?_
  · rw [← List.count_pos_iff] at hx ⊢
    have := hcount x
    dsimp only
    omega
  · rw [hat]
    exact Int.add_zero _
  have h1 := hcount x
  rw [ownLeaf_of_user huser, hown, if_neg (by simp)]
  unfold Glob.uses
  dsimp only
  omega

/-- A turn keeps the ledgers in step when the key it computes for page
`n` is the key of that page, and the page it frees belongs to the
process. -/
theorem PageTurn.unmapped
    (h : PageTurn v (n * pgSize) b (p, g) (p', g')) (hf : Fits p g) (hn : n < 2 ^ 26)
    (hkey : (p.pagetable.leaf n).isSome = true → v.isShared = true →
      p.sharedKey g n = some (g.vmaIp v, v.fileOff (n * pgSize)))
    (hown : (p.pagetable.leaf n).isSome = true → v.isShared = false →
      ∀ m, b = m * pgSize → m < 2 ^ 26 ∧ UserPage m ∧ p.sharedAt m = none) :
    Unmapped p g p' g' ∧ (v.isShared = true ∨ b = n * pgSize → p'.pagetable.leaf n = none) := by
  have hwalk := walkValid_eq hf.table (page_lt_maxVa hn)
  rw [Nat.mul_div_cancel n (by decide)] at hwalk
  rcases h with ⟨hnone, heq⟩ | ⟨e, he, hres⟩
  · cases heq
    rw [hwalk] at hnone
    exact ⟨.refl hf, fun _ => Except.ok.inj hnone⟩
  rw [hwalk] at he
  have hleaf : (p.pagetable.leaf n).isSome = true := by
    rw [Except.ok.inj he]
    rfl
  rcases hres with ⟨hs, g1, pt, ph, hd, hu, heq⟩ | ⟨hs, pt, ph, hu, heq⟩
  · cases heq
    obtain ⟨hun, hcl⟩ := unmapShared_turn hf hn hleaf (hkey hleaf hs) hd hu
    exact ⟨hun, fun _ => hcl⟩
  cases heq
  have hb : b = b / pgSize * pgSize :=
    (Nat.div_mul_cancel (Nat.dvd_of_mod_eq_zero (uvmunmap_aligned hu))).symm
  obtain ⟨hm, huser, hat⟩ := hown hleaf hs (b / pgSize) hb
  rw [hb] at hu
  obtain ⟨hun, hcl⟩ := unmapOwn_turn hf hm huser hat hu
  refine ⟨hun, fun hor => ?_⟩
  rcases hor with htrue | hbn
  · rw [hs] at htrue
    cases htrue
  · rw [hbn, Nat.mul_div_cancel n (by decide)] at hcl
    exact hcl

-- == sys_munmap's loop

/-- The page after a mapping may be taken for one of its own: nothing is
mapped there, or neither is shared. -/
def Proc.EndClear (p : Proc) (v : Vma) : Prop :=
  (p.pagetable.leaf (v.stop / pgSize)).isSome = true →
    v.isShared = false ∧ p.sharedAt (v.stop / pgSize) = none

theorem vma_page (hl : Layout p) (hi : i < nvma)
    (hv : (p.vma i).valid = true) (hlo : (p.vma i).start ≤ n * pgSize)
    (hhi : n * pgSize < (p.vma i).stop) (g : Glob) :
    ((p.vma i).isShared = true → p.sharedKey g n
      = some (g.vmaIp (p.vma i), (p.vma i).fileOff (n * pgSize)))
    ∧ ((p.vma i).isShared = false → p.sharedAt n = none) := by
  have hat := vmaAt_eq hl hi hv hlo hhi
  exact ⟨fun hs => sharedKey_of_shared g hat hs, fun hs => sharedAt_none_of_private hat hs⟩

theorem sharedKey_congr (hv : p'.vma = p.vma) (hf : g'.ftable = g.ftable) :
    p'.sharedKey g' = p.sharedKey g := by
  unfold Proc.sharedKey
  rw [sharedAt_congr hv, hf]

theorem vmaIp_congr (hf : g'.ftable = g.ftable) (v : Vma) : g'.vmaIp v = g.vmaIp v := by
  unfold Glob.vmaIp
  rw [hf]

/-- sys_munmap's loop over a page-aligned part of a mapping. -/
theorem munmapPages_unmapped {lo hi : Nat} (hl : Layout p) (hf : Fits p g)
    (hi' : i < nvma) (hv : (p.vma i).valid = true) (hlo : (p.vma i).start ≤ lo)
    (hhi : hi ≤ (p.vma i).stop) (hmod : lo % pgSize = 0)
    (hend : hi = (p.vma i).stop → p.EndClear (p.vma i))
    (h : forUpto (munmapPage (p.vma i) lo) (pagesThrough lo hi) (p, g) = .ok (p', g')) :
    Unmapped p g p' g' ∧ ∀ n, lo ≤ n * pgSize → n * pgSize ≤ hi → p'.pagetable.leaf n = none := by
  have htop := hl.cur_top
  have hle := (hl.ok i hi' hv).le_cur
  have hinv := forUpto_inv
    (fun m t => Unmapped p g t.1 t.2 ∧ ∀ n, lo / pgSize ≤ n →
      n < lo / pgSize + m → t.1.pagetable.leaf n = none)
    ⟨.refl hf, fun n h1 h2 => by omega⟩ ?_ h
  · refine ⟨hinv.1, fun n h1 h2 => hinv.2 n ?_ ?_⟩
    · unfold pgSize at *
      omega
    · unfold pagesThrough
      rw [if_pos (by omega)]
      unfold pgSize at *
      omega
  rintro m hm ⟨t, gt⟩ ⟨t', gt'⟩ ⟨hun, hcl⟩ hturn
  have hturn := munmapPage_turn hturn
  have hm' : lo + m * pgSize ≤ hi := by
    unfold pagesThrough at hm
    split at hm
    · unfold pgSize at *
      omega
    · omega
  have ha : lo + m * pgSize = (lo / pgSize + m) * pgSize := by
    unfold pgSize at *
    omega
  rw [ha] at hturn hm'
  obtain ⟨hn, huser⟩ := userPage_of_lt (show (lo / pgSize + m) * pgSize < mmapTop by omega)
  have hsub : (t.pagetable.leaf (lo / pgSize + m)).isSome = true →
      (p.pagetable.leaf (lo / pgSize + m)).isSome = true := by
    intro hs
    rcases hun.leaf (lo / pgSize + m) with heq | heq
    · rw [← heq]
      exact hs
    · rw [heq] at hs
      cases hs
  -- inside the mapping its own key, one page past it the condition
  have hpage : (p.pagetable.leaf (lo / pgSize + m)).isSome = true →
      ((p.vma i).isShared = true → p.sharedKey g (lo / pgSize + m)
        = some (g.vmaIp (p.vma i), (p.vma i).fileOff ((lo / pgSize + m) * pgSize)))
      ∧ ((p.vma i).isShared = false → p.sharedAt (lo / pgSize + m) = none) := by
    intro hs
    rcases Nat.lt_or_ge ((lo / pgSize + m) * pgSize) (p.vma i).stop with
      hlt | hge
    · refine vma_page hl hi' hv ?_ hlt g
      omega
    have hstop : (p.vma i).stop / pgSize = lo / pgSize + m := by
      have : (p.vma i).stop = (lo / pgSize + m) * pgSize := by omega
      rw [this, Nat.mul_div_cancel _ (by decide)]
    have hclear := hend (by omega)
    unfold Proc.EndClear at hclear
    rw [hstop] at hclear
    obtain ⟨hpriv, hat⟩ := hclear hs
    exact ⟨fun h => absurd h (by rw [hpriv]; decide), fun _ => hat⟩
  obtain ⟨hun', hcl'⟩ := hturn.unmapped (hf.moves hun.moves) hn
    (fun hs hshared => by
      rw [sharedKey_congr hun.vma hun.files, vmaIp_congr hun.files]
      exact (hpage (hsub hs)).1 hshared)
    (fun hs hpriv k hk => by
      have hkn : k = lo / pgSize + m := (Nat.mul_right_cancel (by decide) hk).symm
      subst hkn
      refine ⟨hn, huser, ?_⟩
      rw [hun.sharedAt]
      exact (hpage (hsub hs)).2 hpriv)
  refine ⟨hun.trans hun', fun k h1 h2 => ?_⟩
  rcases Nat.lt_or_ge k (lo / pgSize + m) with hlt | hge
  · exact hun'.leaf_none (hcl k h1 hlt)
  · have hkn : k = lo / pgSize + m := by omega
    subst hkn
    exact hcl' (.inr rfl)

-- == kexit's loops

/-- A turn reads and writes only the page table of the process. -/
theorem PageTurn.retable {a : Nat} {s s' : Proc × Glob} (q : Proc)
    (h : PageTurn v a b s s') :
    PageTurn v a b ({ q with pagetable := s.1.pagetable }, s.2)
      ({ q with pagetable := s'.1.pagetable }, s'.2) := by
  rcases h with ⟨h, rfl⟩ | ⟨e, he, ⟨hs, g, pt, ph, hd, hu, rfl⟩ | ⟨hs, pt, ph, hu, rfl⟩⟩
  · exact .inl ⟨h, rfl⟩
  · exact .inr ⟨e, he, .inl ⟨hs, g, pt, ph, hd, hu, rfl⟩⟩
  · exact .inr ⟨e, he, .inr ⟨hs, pt, ph, hu, rfl⟩⟩

/-- Nothing is mapped right after a shared mapping. -/
def Proc.ExitClear (p : Proc) : Prop :=
  ∀ s, s < nvma → (p.vma s).valid = true → (p.vma s).isShared = true →
    p.pagetable.leaf ((p.vma s).stop / pgSize) = none

/-- The pages of the shared mappings below slot `m` are unmapped. -/
def SharedGone (p : Proc) (m : Nat) (pt : PageTable) : Prop :=
  ∀ s, s < m → (p.vma s).valid = true → (p.vma s).isShared = true →
    ∀ n, (p.vma s).start ≤ n * pgSize → n * pgSize < (p.vma s).stop → pt.leaf n = none

theorem sharedAt_low (hl : Layout p) (hn : n * pgSize < mmapBase) : p.sharedAt n = none := by
  refine sharedAt_none_of_vmaAt (vmaAt_none.mpr fun i hi hv hle => ?_)
  have hstart := (hl.ok i hi hv).base
  omega

/-- One turn of kexit's inner loop, seen from the process as it was before
the loops: the mappings are those of `p`. -/
theorem exitPage_unmapped {t t' : Proc} {gt gt' : Glob} {slot k : Nat}
    (hl : Layout p) (hf : Fits p g) (hclear : p.ExitClear)
    (hslot : slot < nvma) (hv : (p.vma slot).valid = true)
    (hk : k < pagesThrough (p.vma slot).start (p.vma slot).stop)
    (hun : Unmapped p g { p with pagetable := t.pagetable } gt)
    (h : exitPage (p.vma slot) slot k (t, gt) = .ok (t', gt')) :
    Unmapped { p with pagetable := t.pagetable } gt
        { p with pagetable := t'.pagetable } gt'
      ∧ ((p.vma slot).isShared = true →
        t'.pagetable.leaf ((p.vma slot).start / pgSize + k) = none) := by
  have htop := hl.cur_top
  have hok := hl.ok slot hslot hv
  have hle := hok.le_cur
  have hmod := hok.start_mod
  have hlt := hok.lt
  have hturn := (exitPage_turn h).retable p
  have hk' : (p.vma slot).start + k * pgSize ≤ (p.vma slot).stop := by
    unfold pagesThrough at hk
    rw [if_pos (by omega)] at hk
    unfold pgSize at *
    omega
  have ha : (p.vma slot).start + k * pgSize = ((p.vma slot).start / pgSize + k) * pgSize := by
    unfold pgSize at *
    omega
  rw [ha] at hturn hk'
  obtain ⟨hn, _⟩ := userPage_of_lt
    (show ((p.vma slot).start / pgSize + k) * pgSize < mmapTop by omega)
  obtain ⟨hun', hcl⟩ := hturn.unmapped (hf.moves hun.moves) hn
    (fun hs hshared => by
      rw [sharedKey_congr hun.vma hun.files, vmaIp_congr hun.files]
      rcases Nat.lt_or_ge (((p.vma slot).start / pgSize + k) * pgSize)
        (p.vma slot).stop with hin | hend
      · refine (vma_page hl hslot hv ?_ hin g).1 hshared
        omega
      -- the turn past the end finds nothing
      have hstop : (p.vma slot).stop / pgSize = (p.vma slot).start / pgSize + k := by
        have : (p.vma slot).stop = ((p.vma slot).start / pgSize + k) * pgSize := by omega
        rw [this, Nat.mul_div_cancel _ (by decide)]
      have hnone := hclear slot hslot hv hshared
      rw [hstop] at hnone
      have := hun.leaf_none hnone
      rw [this] at hs
      cases hs)
    (fun _ _ m hm => by
      have hm0 : m = 0 := by
        unfold nvma at hslot
        unfold pgSize at hm
        omega
      subst hm0
      refine ⟨by decide, ⟨by decide, by decide⟩, ?_⟩
      rw [hun.sharedAt]
      exact sharedAt_low hl (by decide))
  exact ⟨hun', fun hshared => hcl (.inl hshared)⟩

/-- kexit's loops over the mappings and their pages. -/
theorem exitVmas_unmapped (hl : Layout p) (hf : Fits p g)
    (hclear : p.ExitClear) (h : forUpto exitVma nvma (p, g) = .ok (p', g')) :
    Unmapped p g { p with pagetable := p'.pagetable } g' ∧ SharedGone p nvma p'.pagetable := by
  have hinv := forUpto_inv
    (fun m t => OnlyTable (p.dropMaps m) t.1
      ∧ Unmapped p g { p with pagetable := t.1.pagetable } t.2 ∧ SharedGone p m t.1.pagetable)
    ⟨⟨p.pagetable, by simp [Proc.dropMaps]⟩, .refl hf,
      fun s hs => absurd hs (Nat.not_lt_zero s)⟩ ?_ h
  · exact hinv.2
  rintro m hm ⟨t, gt⟩ t' ⟨⟨pt, rfl⟩, hun, hgone⟩ hturn
  rcases exitVma_cases hturn with ⟨hv, rfl⟩ | ⟨hv, hloop⟩
  · refine ⟨⟨pt, rfl⟩, hun, fun s hs hvs => ?_⟩
    rcases Nat.lt_succ_iff_lt_or_eq.mp hs with hlt | rfl
    · exact hgone s hlt hvs
    · rw [hv] at hvs
      cases hvs
  have hmod := (hl.ok m hm hv).start_mod
  have hpages := forUpto_inv
    (fun k u => OnlyTable (p.dropMaps (m + 1)) u.1
      ∧ Unmapped p g { p with pagetable := u.1.pagetable } u.2 ∧ SharedGone p m u.1.pagetable
      ∧ ((p.vma m).isShared = true → ∀ n, (p.vma m).start / pgSize ≤ n →
          n < (p.vma m).start / pgSize + k → u.1.pagetable.leaf n = none))
    ⟨⟨pt, rfl⟩, hun, hgone, fun _ n h1 h2 => by omega⟩ ?_ hloop
  · refine ⟨hpages.1, hpages.2.1, fun s hs hvs hshared n h1 h2 => ?_⟩
    rcases Nat.lt_succ_iff_lt_or_eq.mp hs with hlt | rfl
    · exact hpages.2.2.1 s hlt hvs hshared n h1 h2
    refine hpages.2.2.2 hshared n ?_ ?_
    · unfold pgSize at *
      omega
    · unfold pagesThrough
      rw [if_pos (by omega)]
      unfold pgSize at *
      omega
  · rintro k hk ⟨u, gu⟩ ⟨u', gu'⟩ ⟨honly, hunu, hgu, hcl⟩ hf'
    obtain ⟨hstep, hnone⟩ := exitPage_unmapped hl hf hclear hm hv hk hunu hf'
    refine ⟨honly.trans (exitPage_turn hf').frame.1, hunu.trans hstep,
      fun s hs hvs hsh n h1 h2 => ?_, fun hsh n h1 h2 => ?_⟩
    · exact hstep.leaf_none (hgu s hs hvs hsh n h1 h2)
    rcases Nat.lt_or_ge n ((p.vma m).start / pgSize + k) with hlt | hge
    · exact hstep.leaf_none (hcl hsh n h1 hlt)
    · have hnk : n = (p.vma m).start / pgSize + k := by omega
      rw [hnk]
      exact hnone hsh

end Xv6Labs.Model
