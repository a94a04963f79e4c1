/-
Who maps which page.

A valid PTE in a shared mapping is a reference to a key of the registry
(`keyAt`, counted by `sharedPtes`); any other page belongs to the process
(`ownPages`). `Moves p g p' g'`: a call of one process kept both columns in
step with the rest of the kernel.
-/
import Mathlib.Data.List.Find
import Xv6Labs.Proofs.Layout
import Xv6Labs.Proofs.Registry
import Xv6Labs.Proofs.Spaces

namespace Xv6Labs.Model

open Lib Finset

variable {p p' : Proc} {i n va : Nat} {g g' : Glob}

-- == the columns

/-- The file and the position in it of a page that lies in a shared
mapping. -/
def Proc.sharedAt (p : Proc) (n : Nat) : Option (Nat × Nat) :=
  (vmaAt p (n * pgSize)).bind fun i =>
    if hasBit (p.vma i).flags mapShared then
      (p.vma i).file.map fun f => (f, (p.vma i).fileOff (n * pgSize))
    else none

/-- The registry key that a page stands for. -/
def Proc.sharedKey (p : Proc) (g : Glob) (n : Nat) : Option (Option Nat × Nat) :=
  (p.sharedAt n).map fun s => ((g.ftable s.1).ip, s.2)

/-- The registry key of a page that is mapped. -/
def Proc.keyAt (p : Proc) (g : Glob) (n : Nat) : Option (Option Nat × Nat) :=
  if (p.pagetable.leaf n).isSome then p.sharedKey g n else none

/-- Valid PTEs of the process that map the key through a shared
mapping. -/
def Proc.sharedPtes (p : Proc) (g : Glob) (ip : Option Nat) (off : Nat) : Nat :=
  ∑ n ∈ range (2 ^ 26), keyHits (p.keyAt g n) ip off

/-- The entry of a page that belongs to the process: not the trampoline
or the trapframe, and not in a shared mapping. -/
def Proc.ownLeaf (p : Proc) (n : Nat) : Option Pte :=
  if (p.sharedAt n).isSome then none else p.pagetable.bare.leaf n

/-- Physical pages that belong to the process. -/
def Proc.ownPages (p : Proc) (x : Nat) : Nat := ∑ n ∈ range (2 ^ 26), ptePoints (p.ownLeaf n) x

-- == finding the mapping

theorem vmaAt_none :
    vmaAt p va = none ↔ ∀ i, i < nvma → (p.vma i).valid = true →
      (p.vma i).start ≤ va → (p.vma i).stop ≤ va := by
  unfold vmaAt
  rw [List.find?_range_eq_none]
  refine forall₂_congr fun i _ => ?_
  simp only [Bool.not_eq_true', decide_eq_false_iff_not, not_and, Nat.not_lt]

theorem vmaAt_some (h : vmaAt p va = some i) :
    i < nvma ∧ (p.vma i).valid = true ∧ (p.vma i).start ≤ va ∧ va < (p.vma i).stop := by
  have h := List.find?_range_eq_some.mp h
  rw [List.mem_range] at h
  exact ⟨h.2.1, of_decide_eq_true h.1⟩

/-- Where mappings do not overlap, the search finds the one there is. -/
theorem vmaAt_eq (h : Layout p) (hi : i < nvma) (hv : (p.vma i).valid = true)
    (hlo : (p.vma i).start ≤ va) (hhi : va < (p.vma i).stop) : vmaAt p va = some i := by
  cases ho : vmaAt p va with
  | none =>
    have := vmaAt_none.mp ho i hi hv hlo
    omega
  | some j =>
    obtain ⟨hj, hvj, hlo', hhi'⟩ := vmaAt_some ho
    by_contra hne
    have hij : i ≠ j := fun heq => hne (by rw [heq])
    have := h.disjoint i j hi hj hij hv hvj
    omega

theorem vmaAt_congr (h : p'.vma = p.vma) : vmaAt p' = vmaAt p := by
  unfold vmaAt
  rw [h]

theorem sharedAt_congr (h : p'.vma = p.vma) : p'.sharedAt = p.sharedAt := by
  unfold Proc.sharedAt
  rw [vmaAt_congr h, h]

theorem vmaAt_page (h : Layout p) (va : Nat) : vmaAt p (va / pgSize * pgSize) = vmaAt p va := by
  refine List.find?_congr fun i hi => ?_
  rw [List.mem_range] at hi
  rw [decide_eq_decide]
  refine and_congr_right fun hv => ?_
  have hok := h.ok i hi hv
  have hs := hok.start_mod
  have ht := hok.stop_mod
  unfold pgSize at *
  constructor <;> intro hr <;> omega

theorem sharedAt_none_of_vmaAt (h : vmaAt p (n * pgSize) = none) : p.sharedAt n = none := by
  simp only [Proc.sharedAt, h, Option.bind_none]

theorem sharedAt_of_vmaAt (h : vmaAt p (n * pgSize) = some i) :
    p.sharedAt n = if hasBit (p.vma i).flags mapShared then
      (p.vma i).file.map fun f => (f, (p.vma i).fileOff (n * pgSize))
    else none := by
  simp only [Proc.sharedAt, h, Option.bind_some]

/-- The key of a page of a shared mapping is the one the code computes. -/
theorem sharedKey_of_shared (g : Glob) (h : vmaAt p (n * pgSize) = some i)
    (hs : (p.vma i).isShared = true) :
    p.sharedKey g n = some (g.vmaIp (p.vma i), (p.vma i).fileOff (n * pgSize)) := by
  rw [Proc.sharedKey, sharedAt_of_vmaAt h]
  simp only [Vma.isShared, Bool.and_eq_true] at hs
  obtain ⟨f, hf⟩ := Option.isSome_iff_exists.mp hs.2
  simp [hs.1, hf, Glob.vmaIp]

theorem sharedAt_none_of_private (h : vmaAt p (n * pgSize) = some i)
    (hs : (p.vma i).isShared = false) : p.sharedAt n = none := by
  rw [sharedAt_of_vmaAt h]
  split
  · next hb =>
    simp only [Vma.isShared, hb, Bool.true_and, Option.isSome_eq_false_iff,
      Option.isNone_iff_eq_none] at hs
    rw [hs, Option.map_none]
  · rfl

-- == one page

/-- Two states of a process that agree off page `n` differ in both
columns by that page. -/
theorem columns_exchange (hv : p'.vma = p.vma) (hn : n < 2 ^ 26)
    (hl : ∀ m, m ≠ n → p'.pagetable.leaf m = p.pagetable.leaf m) :
    (∀ x, p'.ownPages x + ptePoints (p.ownLeaf n) x = p.ownPages x + ptePoints (p'.ownLeaf n) x)
    ∧ ∀ ip off, p'.sharedPtes g ip off + keyHits (p.keyAt g n) ip off
      = p.sharedPtes g ip off + keyHits (p'.keyAt g n) ip off := by
  have hs := sharedAt_congr hv
  constructor
  · intro x
    have hx := sum_exchange (f := fun m => ptePoints (p'.ownLeaf m) x)
      (g := fun m => ptePoints (p.ownLeaf m) x) hn (fun m _ hm => by
        simp only [Proc.ownLeaf, hs, bare_leaf, hl m hm])
    exact hx
  · intro ip off
    have hx := sum_exchange (f := fun m => keyHits (p'.keyAt g m) ip off)
      (g := fun m => keyHits (p.keyAt g m) ip off) hn (fun m _ hm => by
        simp only [Proc.keyAt, Proc.sharedKey, hs, hl m hm])
    exact hx

/-- A page is neither of the two on top. -/
def UserPage (n : Nat) : Prop := n ≠ tfPage ∧ n ≠ trampPage

theorem page_lt_maxVa (h : n < 2 ^ 26) : n * pgSize < maxVa := by
  unfold pgSize maxVa
  omega

/-- Nothing below the top of the mmap area is on top. -/
theorem userPage_of_lt (h : n * pgSize < mmapTop) : n < 2 ^ 26 ∧ UserPage n := by
  have hn : n < 524288 := by
    unfold pgSize mmapTop at h
    omega
  refine ⟨by omega, fun heq => ?_, fun heq => ?_⟩ <;> rw [heq] at hn <;> exact absurd hn (by decide)

theorem ownLeaf_of_user (h : UserPage n) :
    p.ownLeaf n = if (p.sharedAt n).isSome then none else p.pagetable.leaf n := by
  rw [Proc.ownLeaf, bare_leaf, if_neg (not_or.mpr h)]

theorem ownPages_pos {e : Pte} (hn : n < 2 ^ 26) (hu : UserPage n)
    (hown : p.sharedAt n = none) (he : p.pagetable.leaf n = some e) : 0 < p.ownPages e.pa := by
  have hrow := row_le_sum (f := fun m => ptePoints (p.ownLeaf m) e.pa) hn
  have hone : ptePoints (p.ownLeaf n) e.pa = 1 := by
    rw [ownLeaf_of_user hu, hown, he]
    exact if_pos rfl
  rw [hone] at hrow
  exact hrow

/-- A page is mapped that was not. -/
theorem install_columns {pt : PageTable} {e : Pte} (hn : n < 2 ^ 26)
    (hu : UserPage n) (hnone : p.pagetable.leaf n = none)
    (hl : ∀ m, pt.leaf m = if m = n then some e else p.pagetable.leaf m) :
    (∀ x, ({ p with pagetable := pt } : Proc).ownPages x
      = p.ownPages x + if (p.sharedAt n).isSome then 0 else points (some e.pa) x)
    ∧ ∀ ip off, ({ p with pagetable := pt } : Proc).sharedPtes g ip off
      = p.sharedPtes g ip off + keyHits (p.sharedKey g n) ip off := by
  have hs : ({ p with pagetable := pt } : Proc).sharedAt = p.sharedAt := sharedAt_congr rfl
  obtain ⟨hown, hptes⟩ := columns_exchange
    (show ({ p with pagetable := pt } : Proc).vma = p.vma from rfl) hn
    (fun m hm => by rw [hl m, if_neg hm])
  have hself : pt.leaf n = some e := by rw [hl n, if_pos (Eq.refl n)]
  constructor
  · intro x
    have hx := hown x
    rw [ownLeaf_of_user hu, ownLeaf_of_user hu, hs, hnone, hself] at hx
    by_cases hshared : (p.sharedAt n).isSome = true
    · rw [if_pos hshared, if_pos hshared, ptePoints_none, Nat.add_zero] at hx
      rw [if_pos hshared]
      exact hx
    · rw [if_neg hshared, if_neg hshared, ptePoints_none, Nat.add_zero] at hx
      rw [if_neg hshared]
      exact hx
  · intro ip off
    have hx := hptes ip off
    have hold : p.keyAt g n = none := by
      rw [Proc.keyAt, hnone]
      rfl
    have hnew : ({ p with pagetable := pt } : Proc).keyAt g n = p.sharedKey g n := by
      rw [Proc.keyAt, Proc.sharedKey, hself]
      rfl
    rw [hold, hnew, keyHits_none, Nat.add_zero] at hx
    exact hx

/-- A page is unmapped. -/
theorem remove_columns (hn : n < 2 ^ 26) :
    (∀ x, ({ p with pagetable := p.pagetable.setLeaf n none } : Proc).ownPages x
        + ptePoints (p.ownLeaf n) x = p.ownPages x)
    ∧ ∀ ip off, ({ p with pagetable := p.pagetable.setLeaf n none } :
          Proc).sharedPtes g ip off + keyHits (p.keyAt g n) ip off
        = p.sharedPtes g ip off := by
  obtain ⟨hown, hptes⟩ := columns_exchange
    (show ({ p with pagetable := p.pagetable.setLeaf n none } : Proc).vma = p.vma from rfl) hn
    (fun m hm => by simp only [setLeaf_leaf, if_neg hm])
  refine ⟨fun x => (hown x).trans ?_, fun ip off => (hptes ip off).trans ?_⟩
  · simp [Proc.ownLeaf, bare_leaf]
  · simp [Proc.keyAt]

-- == balance

/-- Uses of physical page `x` by the process. -/
def Proc.uses (p : Proc) (x : Nat) : Nat :=
  p.pagetable.tables x + p.ownPages x + points (some p.trapframe) x

/-- Uses of physical page `x` by what the processes share. -/
def Glob.uses (g : Glob) (x : Nat) : Nat := g.phys.freelist.count x + g.shared.pages x

/-- What a call needs to find: the table is a tree, the registry is in
order and counts at least the process's own PTEs. -/
structure Fits (p : Proc) (g : Glob) : Prop where
  table : p.pagetable.Wf
  shared : g.shared.Ok
  le : ∀ ip off, (p.sharedPtes g ip off : Int) ≤ g.shared.refs ip off

/-- A call kept both columns in step with the rest. -/
structure Moves (p : Proc) (g : Glob) (p' : Proc) (g' : Glob) : Prop where
  table : p'.pagetable.Wf
  shared : g'.shared.Ok
  refs : ∀ ip off, g'.shared.refs ip off + p.sharedPtes g ip off
    = g.shared.refs ip off + p'.sharedPtes g' ip off
  uses : ∀ x, p'.uses x + g'.uses x = p.uses x + g.uses x

theorem Moves.refl (h : Fits p g) : Moves p g p g :=
  ⟨h.table, h.shared, fun _ _ => rfl, fun _ => rfl⟩

theorem Moves.trans {p'' : Proc} {g'' : Glob} (h : Moves p g p' g')
    (h' : Moves p' g' p'' g'') : Moves p g p'' g'' := by
  refine ⟨h'.table, h'.shared, fun ip off => ?_, fun x => ?_⟩
  · have := h.refs ip off
    have := h'.refs ip off
    omega
  · exact (h'.uses x).trans (h.uses x)

theorem Fits.moves (h : Fits p g) (hm : Moves p g p' g') : Fits p' g' := by
  refine ⟨hm.table, hm.shared, fun ip off => ?_⟩
  have := h.le ip off
  have := hm.refs ip off
  omega

/-- The columns read the mappings and the leaves of the process and the
inodes of the files. -/
theorem keyAt_congr (hv : p'.vma = p.vma)
    (hl : p'.pagetable.leaf = p.pagetable.leaf) (hf : g'.ftable = g.ftable) :
    p'.keyAt g' = p.keyAt g := by
  unfold Proc.keyAt Proc.sharedKey
  rw [sharedAt_congr hv, hl, hf]

theorem sharedPtes_congr (hv : p'.vma = p.vma)
    (hl : p'.pagetable.leaf = p.pagetable.leaf) (hf : g'.ftable = g.ftable) :
    p'.sharedPtes g' = p.sharedPtes g := by
  unfold Proc.sharedPtes
  rw [keyAt_congr hv hl hf]

/-- Of the shared state, the column reads the inodes of the files. -/
theorem sharedPtes_files (hf : g'.ftable = g.ftable) (p : Proc) :
    p.sharedPtes g' = p.sharedPtes g :=
  sharedPtes_congr rfl rfl hf

theorem ownPages_congr (hv : p'.vma = p.vma) (hl : p'.pagetable.leaf = p.pagetable.leaf) :
    p'.ownPages = p.ownPages := by
  unfold Proc.ownPages Proc.ownLeaf
  simp only [sharedAt_congr hv, bare_leaf, hl]

/-- Without mappings every user page belongs to the process. -/
theorem columns_of_no_maps (h : ∀ i, i < nvma → (p.vma i).valid = false) :
    (∀ n, p.sharedAt n = none) ∧ (∀ x, p.ownPages x = p.pagetable.pages x)
    ∧ ∀ g ip off, p.sharedPtes g ip off = 0 := by
  have hs : ∀ n, p.sharedAt n = none := fun n =>
    sharedAt_none_of_vmaAt (vmaAt_none.mpr fun i hi hv => by
      rw [h i hi] at hv
      cases hv)
  refine ⟨hs, fun x => ?_, fun g ip off => ?_⟩
  · unfold Proc.ownPages
    refine sum_same fun n _ => ?_
    simp only [Proc.ownLeaf, hs, Option.isSome_none, Bool.false_eq_true, if_false]
  · unfold Proc.sharedPtes
    refine sum_zero fun n _ => ?_
    simp [Proc.keyAt, Proc.sharedKey, hs]

end Xv6Labs.Model
