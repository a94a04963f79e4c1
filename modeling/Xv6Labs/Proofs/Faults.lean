/-
A page fault and the two ledgers: it counts one reference and installs one
PTE for a shared page, takes one free page for any other, or gives back
what it took (`vmfault_served`).
-/
import Xv6Labs.Proofs.Handled
import Xv6Labs.Proofs.Tally

namespace Xv6Labs.Model

open Lib Finset

variable {g g' g₁ : Glob} {mem n r va : Nat} {t : SharedTab}
  {pt : PageTable} {v : Vma} {p : Proc}

-- == entries

/-- Every entry is still there, for the same page. -/
def Kept (t t' : SharedTab) : Prop :=
  ∀ ip off e, t.lookup ip off = some e → ∃ e', t'.lookup ip off = some e' ∧ e'.pa = e.pa

theorem Kept.refl (t : SharedTab) : Kept t t := fun _ _ e he => ⟨e, he, rfl⟩

theorem incref_kept (t : SharedTab) (ip : Option Nat) (off : Nat) : Kept t (t.incref ip off) := by
  intro ip' off' e he
  rw [lookup_incref]
  split
  · rw [he]
    exact ⟨_, rfl, rfl⟩
  · exact ⟨e, he, rfl⟩

theorem insert_kept {e : SharedEntry} (hl : t.lookup e.ip e.off = none) : Kept t (t.insert e) := by
  intro ip off e' he'
  unfold SharedTab.insert
  rw [lookup_insert]
  split
  · next hk =>
    rw [hk.1, hk.2, hl] at he'
    cases he'
  · exact ⟨e', he', rfl⟩

/-- The registry after a page was supplied: a page for a shared mapping
has one reference more, and any other page is off the free list. -/
theorem Supplied.counted {key : Option (Option Nat × Nat)}
    (h : Supplied g v va mem g₁) (hok : g.shared.Ok)
    (hkey : key = if v.isShared then some (g.vmaIp v, v.fileOff va) else none) :
    g₁.shared.Ok ∧ Kept g.shared g₁.shared
    ∧ (∀ ip off, g₁.shared.refs ip off = g.shared.refs ip off + keyHits key ip off)
    ∧ ∀ x, g₁.uses x + (if key.isSome then 0 else points (some mem) x) = g.uses x := by
  cases h with
  | @hit e hs hl =>
    rw [if_pos hs] at hkey
    subst hkey
    refine ⟨hok.incref _ _, incref_kept _ _ _, fun ip off => incref_refs hl ip off, fun x => ?_⟩
    have hp := incref_pages g.shared (g.vmaIp v) (v.fileOff va) x
    simp only [Option.isSome_some, if_true, Nat.add_zero]
    exact congrArg (g.phys.freelist.count x + ·) hp
  | @miss _ self g₁ ph hs hl hfill hself =>
    rw [if_pos hs] at hkey
    subst hkey
    obtain ⟨hsh, _, hcount, _⟩ := fillPage_spec hfill
    rw [← hsh] at hl hok ⊢
    refine ⟨insert_ok hok hl Int.one_pos, insert_kept hl, fun ip off => ?_, fun x => ?_⟩
    · have hins := insert_refs (e := ⟨g.vmaIp v, v.fileOff va, mem, 1, self⟩) hl ip off
      rw [Int.one_mul] at hins
      exact hins
    have h1 := hcount x
    have h2 := kalloc_count hself x
    unfold Glob.uses
    rw [insert_pages, ← hsh]
    unfold SharedEntry.pages
    simp only [Option.isSome_some, if_true]
    omega
  | own hs hpage =>
    rw [hs, if_neg Bool.false_ne_true] at hkey
    subst hkey
    obtain ⟨hsh, _, hcount⟩ := privatePage_spec hpage
    rw [hsh]
    refine ⟨hok, .refl _, fun ip off => ?_, fun x => ?_⟩
    · rw [keyHits_none]
      exact (Int.add_zero _).symm
    have := hcount x
    unfold Glob.uses
    rw [hsh]
    simp only [Option.isSome_none, Bool.false_eq_true, if_false]
    omega

-- == one fault

/-- A fault on page `n`: the ledgers are in step, no entry is lost, and
no other page of the table changed. -/
structure Served (p : Proc) (g : Glob) (n : Nat) (p' : Proc) (g' : Glob) : Prop where
  moves : Moves p g p' g'
  kept : Kept g.shared g'.shared
  leaf : ∀ m, m ≠ n → p'.pagetable.leaf m = p.pagetable.leaf m

theorem Served.refl (h : Fits p g) (n : Nat) : Served p g n p g :=
  ⟨.refl h, .refl _, fun _ _ => rfl⟩

theorem Restored.served (h : Restored p.pagetable g pt g') (hf : Fits p g)
    (hfiles : g'.ftable = g.ftable) (n : Nat) : Served p g n { p with pagetable := pt } g' := by
  have hown : ({ p with pagetable := pt } : Proc).ownPages = p.ownPages := ownPages_congr rfl h.leaf
  have hcol : ({ p with pagetable := pt } : Proc).sharedPtes g'
      = p.sharedPtes g := sharedPtes_congr rfl h.leaf hfiles
  refine ⟨⟨h.wf, h.shared ▸ hf.shared, fun ip off => ?_, fun x => ?_⟩,
    h.shared ▸ .refl _, fun m _ => congrFun h.leaf m⟩
  · rw [hcol, h.shared]
  have := h.pages x
  unfold Proc.uses Glob.uses
  rw [hown, h.shared]
  dsimp only
  omega

/-- A page is mapped where none was, with its reference counted if the
page is shared. -/
theorem mapped_served (g₁ : Glob) {perm : Perm} {ph : Phys}
    (hf : Fits p g) (hn : n < 2 ^ 26) (hu : UserPage n) (hnone : p.pagetable.leaf n = none)
    (hfiles : g₁.ftable = g.ftable) (hok : g₁.shared.Ok) (hkept : Kept g.shared g₁.shared)
    (hrefs : ∀ ip off, g₁.shared.refs ip off
      = g.shared.refs ip off + keyHits (p.sharedKey g n) ip off)
    (huses : ∀ x, g₁.uses x
      + (if (p.sharedKey g n).isSome then 0 else points (some mem) x) = g.uses x)
    (h : mappages p.pagetable g₁.phys (n * pgSize) pgSize mem perm = .ok (true, pt, ph)) :
    Served p g n { p with pagetable := pt } { g₁ with phys := ph } := by
  have hdiv : n * pgSize / pgSize = n := Nat.mul_div_cancel n (by decide)
  have hlt : n * pgSize < 2 ^ 64 := by
    unfold pgSize
    omega
  obtain ⟨_, _, pt1, hg, hwf, ⟨hno, _⟩ | ⟨_, _, rfl⟩⟩ := mappages_one_spec hf.table hlt h
  · cases hno
  rw [hdiv] at hwf ⊢
  have hleaf : ∀ m, (pt1.setLeaf n (some ⟨mem, perm⟩)).leaf m
      = if m = n then some ⟨mem, perm⟩ else p.pagetable.leaf m := by
    intro m
    rw [setLeaf_leaf, hg.leaf]
  obtain ⟨hpages, hptes⟩ := install_columns hn hu hnone hleaf
  refine ⟨⟨hwf, hok, fun ip off => ?_, fun x => ?_⟩, hkept, fun m hm => ?_⟩
  · have h1 := hrefs ip off
    rw [sharedPtes_files (show ({ g₁ with phys := ph } : Glob).ftable
      = g.ftable from hfiles), hptes]
    dsimp only
    omega
  · have h1 := hg.ledger x
    have h2 := hpages x
    have h3 := huses x
    rw [Proc.sharedKey, Option.isSome_map] at h3
    unfold Proc.uses Glob.uses at *
    rw [setLeaf_tables]
    dsimp only at *
    omega
  · show (pt1.setLeaf n (some ⟨mem, perm⟩)).leaf m = _
    rw [hleaf, if_neg hm]

-- == vmfault

/-- The pages below the size. -/
def Proc.HeapPage (p : Proc) (n : Nat) : Prop := n < pgRoundUp p.sz / pgSize

/-- A page fault serves one page, and what it maps lies in a mapping or
below the size. -/
theorem vmfault_served {p' : Proc} {read : Bool} (hl : Layout p)
    (hsz : p.sz ≤ mmapBase) (hf : Fits p g) (h : vmfault p g va read = .ok (r, p', g')) :
    Served p g (va / pgSize) p' g'
      ∧ (p'.pagetable.leaf (va / pgSize) = p.pagetable.leaf (va / pgSize)
        ∨ (vmaAt p (va / pgSize * pgSize)).isSome ∨ p.HeapPage (va / pgSize)) := by
  obtain ⟨honly, hq⟩ := vmfault_frame _ h
  have hle := Nat.div_mul_le_self va pgSize
  rcases vmfault_cases h with ⟨_, hh⟩ | ⟨_, _, hback⟩
  · cases hh with
    | resident => exact ⟨.refl hf _, .inl rfl⟩
    | @mapped i _ g₁ pt ph _ hat hnone _ hsup hmap =>
      have hpage := vmaAt_page hl va
      rw [hat] at hpage
      obtain ⟨hi, hv, _, hhi⟩ := vmaAt_some hat
      have hcur := (hl.ok i hi hv).le_cur
      have htop := hl.cur_top
      obtain ⟨hn, hu⟩ := userPage_of_lt (n := va / pgSize) (by omega)
      have hkey : p.sharedKey g (va / pgSize) = if (p.vma i).isShared then
          some (g.vmaIp (p.vma i), (p.vma i).fileOff (pgRoundDown va))
          else none := by
        split
        · next hs => exact sharedKey_of_shared g hpage hs
        · next hs =>
          rw [Proc.sharedKey, sharedAt_none_of_private hpage (Bool.not_eq_true _ ▸ hs)]
          rfl
      obtain ⟨hok, hkept, hrefs, huses⟩ := hsup.counted hf.shared hkey
      rw [hf.table.entry_eq] at hnone
      exact ⟨mapped_served g₁ hf hn hu hnone hq.ftable hok hkept hrefs
        huses hmap, .inr (.inl (by rw [hpage]; rfl))⟩
    | @heap _ ph0 _ _ _ hlt hnone halloc hmap =>
      have hbase : va < mmapBase := by omega
      obtain ⟨hn, hu⟩ := userPage_of_lt (n := va / pgSize) (by
        unfold mmapBase at hbase
        unfold mmapTop
        omega)
      have hheap : p.HeapPage (va / pgSize) := by
        unfold Proc.HeapPage
        unfold mmapBase at hsz
        rw [pgRoundUp_eq (by omega)]
        unfold pgSize
        omega
      -- below the mmap area there is no mapping
      have hkey : p.sharedKey g (va / pgSize) = none := by
        rw [Proc.sharedKey, sharedAt_none_of_vmaAt (vmaAt_none.mpr fun i hi hv hle => ?_)]
        · rfl
        · have hstart := (hl.ok i hi hv).base
          omega
      rw [hf.table.entry_eq] at hnone
      refine ⟨mapped_served { g with phys := ph0.zero r } hf hn hu hnone
        rfl hf.shared (.refl _) (fun ip off => ?_) (fun x => ?_) hmap,
        .inr (.inr hheap)⟩
      · rw [hkey]
        exact (Int.add_zero _).symm
      have := kalloc_count halloc x
      rw [hkey]
      unfold Glob.uses
      simp only [Option.isSome_none, Bool.false_eq_true, if_false, Phys.zero]
      omega
  · obtain ⟨pt, rfl⟩ := honly
    have hback := hback hf.table hf.shared
    exact ⟨hback.served hf hq.ftable _, .inl (congrFun hback.leaf _)⟩

end Xv6Labs.Model
