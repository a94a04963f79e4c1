/-
Growing and shrinking an address space: uvmalloc and uvmdealloc.

Both move pages between the free list and one address space and do nothing
else to either (`Trades`), on every path, and leave every user page below
PGROUNDUP of the size (`PageTable.Below`).
-/
import Xv6Labs.Proofs.Spaces

namespace Xv6Labs.Model

open Lib Finset

variable {a b newsz oldsz sz va : Nat} {perm xperm : Perm}

-- == the law

/-- Pages moved between the free list and one address space; the entry of
the trapframe stayed. -/
structure Trades (pt : PageTable) (ph : Phys) (pt' : PageTable) (ph' : Phys) : Prop where
  wf : pt'.Wf
  frame : pt'.leaf tfPage = pt.leaf tfPage
  ledger : ∀ x, ph'.freelist.count x + pt'.tables x + pt'.pages x
    = ph.freelist.count x + pt.tables x + pt.pages x

section

variable {pt pt' pt'' : PageTable} {ph ph' ph'' : Phys}

theorem Trades.refl (h : pt.Wf) (ph : Phys) : Trades pt ph pt ph := ⟨h, rfl, fun _ => rfl⟩

theorem Trades.trans (h : Trades pt ph pt' ph')
    (h' : Trades pt' ph' pt'' ph'') : Trades pt ph pt'' ph'' :=
  ⟨h'.wf, h'.frame.trans h.frame, fun x => (h'.ledger x).trans (h.ledger x)⟩

/-- The space stays valid if the free list has pages of the allocator
only. -/
theorem Trades.valid (h : Trades pt ph pt' ph') (hv : pt.Valid ph)
    (hfree : ∀ x ∈ ph.freelist, ph.isPage x) (hk : ph'.kend = ph.kend) : pt'.Valid ph' := by
  have hpage : ∀ x, 0 < pt'.tables x + pt'.pages x → ph'.isPage x := by
    intro x hx
    refine (Phys.isPage_congr hk x).mpr ?_
    have hl := h.ledger x
    by_cases hf : x ∈ ph.freelist
    · exact hfree x hf
    rw [List.count_eq_zero_of_not_mem hf] at hl
    rcases Nat.eq_zero_or_pos (pt.tables x) with hz | hpos
    · obtain ⟨n, e, hu, he, rfl⟩ := exists_leaf_of_pages (show 0 < pt.pages x by omega)
      exact hv.leaf n e he (fun h => hu (.inr h)) (fun h => hu (.inl h))
    · exact hv.tables x hpos
  refine ⟨h.wf, fun x hx => hpage x (by omega), fun n e he h1 h2 => ?_⟩
  refine hpage e.pa ?_
  have hlt := h.wf.leaf_lt (Option.isSome_iff_exists.mpr ⟨e, he⟩)
  have hrow := row_le_sum (f := fun m => ptePoints (pt'.bare.leaf m) e.pa) hlt
  have hone : ptePoints (pt'.bare.leaf n) e.pa = 1 := by
    rw [bare_leaf, if_neg (not_or.mpr ⟨h2, h1⟩), he]
    exact if_pos rfl
  unfold PageTable.pages
  omega

-- == a page is mapped

/-- A page of the allocator is mapped, or goes back because a table page
was missing. -/
theorem mapFresh_trades {ph1 : Phys} {mem : Nat} {b : Bool} (hw : pt.Wf) (hva : va < 2 ^ 64)
    (hu : va / pgSize ≠ tfPage ∧ va / pgSize ≠ trampPage) (halloc : kalloc ph = (some mem, ph1))
    (hmap : mappages pt (ph1.zero mem) va pgSize mem perm = .ok (b, pt', ph')) :
    b = true ∧ Trades pt ph pt' ph'
        ∧ (∀ m, pt'.leaf m = if m = va / pgSize then some ⟨mem, perm⟩ else pt.leaf m)
      ∨ b = false ∧ pt'.leaf = pt.leaf
        ∧ ∀ ph'', kfree ph' mem = .ok ph'' → Trades pt ph pt' ph'' := by
  obtain ⟨_, hlt, q, hg, hwf, hres⟩ := mappages_one_spec hw hva hmap
  have hcount := fun x => kalloc_count halloc x
  have hzero : (ph1.zero mem).freelist = ph1.freelist := rfl
  rcases hres with ⟨rfl, rfl⟩ | ⟨rfl, hnone, rfl⟩
  · refine .inr ⟨rfl, hg.leaf, fun ph'' hfree => ⟨hwf, by rw [hg.leaf], fun x => ?_⟩⟩
    have h1 := hg.ledger x
    have h2 := kfree_count hfree x
    have h3 := hcount x
    rw [hzero] at h1
    rw [pages_congr hg.leaf]
    omega
  have hleaf : ∀ m, (q.setLeaf (va / pgSize) (some ⟨mem, perm⟩)).leaf m
      = if m = va / pgSize then some ⟨mem, perm⟩ else pt.leaf m := by
    intro m
    rw [setLeaf_leaf, hg.leaf]
  refine .inl ⟨rfl, ⟨hwf, ?_, fun x => ?_⟩, hleaf⟩
  · rw [hleaf, if_neg hu.1.symm]
  have hpage : va / pgSize < 2 ^ 26 := by
    unfold maxVa at hlt
    unfold pgSize
    omega
  have h1 := hg.ledger x
  have h2 := pages_install hpage hu hnone hleaf x
  have h3 := hcount x
  rw [hzero] at h1
  rw [setLeaf_tables]
  dsimp only at h2
  omega

-- == uvmdealloc

theorem topPages : trapframe = tfPage * 4096 ∧ tfPage < trampPage
    ∧ trampPage < 67108864 := by decide

/-- Sizes that end below the trapframe are rounded without a wrap. -/
theorem pgRoundUp_top (h : sz ≤ trapframe) :
    sz ≤ pgRoundUp sz ∧ pgRoundUp sz ≤ trapframe ∧ pgRoundUp sz % 4096 = 0 := by
  have hmod := pgRoundUp_mod sz
  unfold trapframe trampoline maxVa pgSize at *
  rw [pgRoundUp_eq (by omega)] at hmod ⊢
  omega

theorem pgRoundUp_mono (hab : a ≤ b) (hb : b ≤ trapframe) : pgRoundUp a ≤ pgRoundUp b := by
  unfold trapframe trampoline maxVa pgSize at hb
  rw [pgRoundUp_eq (by omega), pgRoundUp_eq (by omega)]
  omega

theorem pgRoundUp_aligned (h : a % 4096 = 0) (ha : a ≤ trapframe) : pgRoundUp a = a := by
  unfold trapframe trampoline maxVa pgSize at ha
  rw [pgRoundUp_eq (by omega)]
  omega

theorem PageTable.Below.mono (h : pt.Below a)
    (hab : pgRoundUp a ≤ pgRoundUp b) : pt.Below b := fun n hn =>
  (h n hn).imp_left fun hlt =>
    Nat.lt_of_lt_of_le hlt (Nat.div_le_div_right hab)

/-- uvmdealloc frees the pages between the two sizes. -/
theorem uvmdealloc_trades (hw : pt.Wf) (hb : pt.Below oldsz) (ho : oldsz ≤ trapframe)
    (h : uvmdealloc pt ph oldsz newsz = .ok (sz, pt', ph')) :
    sz = min oldsz newsz ∧ Trades pt ph pt' ph' ∧ pt'.Below sz := by
  simp only [uvmdealloc] at h
  split at h
  · cases h
    exact ⟨by omega, .refl hw ph, hb⟩
  · next hlt =>
    obtain ⟨_, hor, hom⟩ := pgRoundUp_top ho
    have hnm := pgRoundUp_mod newsz
    split at h
    · next hround =>
      obtain ⟨⟨pt1, ph1⟩, hun, h⟩ := bind_ok h
      cases h
      have htop := topPages

      have hend : u64 (((pgRoundUp newsz : Nat) : Int)
          + (((pgRoundUp oldsz - pgRoundUp newsz) / pgSize : Nat) : Int)
            * (pgSize : Int)) = pgRoundUp oldsz := by
        refine u64_of_lt ?_ (by omega)
        unfold pgSize
        omega
      have hn : pagesBelow (pgRoundUp newsz) (pgRoundUp oldsz)
          = (pgRoundUp oldsz - pgRoundUp newsz) / pgSize := by
        unfold pagesBelow pgSize
        omega
      have hmod : ¬ pgRoundUp newsz % pgSize ≠ 0 := not_not.mpr hnm
      rw [u64_i32_of_lt (by unfold pgSize; omega)] at hun
      simp only [uvmunmap, if_neg hmod, hend, hn] at hun
      obtain ⟨rfl, _, _, hcount⟩ := unmapPages_free hw hun
      have hle : pgRoundUp newsz / pgSize
          + (pgRoundUp oldsz - pgRoundUp newsz) / pgSize = pgRoundUp oldsz / pgSize := by
        unfold pgSize
        omega
      have hlast : pgRoundUp oldsz / pgSize ≤ tfPage := by
        unfold pgSize
        omega
      refine ⟨by omega, ⟨hw.clear _ _, if_neg (by omega), fun x => ?_⟩, fun n hn' => ?_⟩
      · have h1 := hcount x
        have h2 := pages_clear pt (hle.trans_le hlast) x
        have h3 : (pt.clear (pgRoundUp newsz / pgSize)
            ((pgRoundUp oldsz - pgRoundUp newsz) / pgSize)).tables x = pt.tables x := rfl
        dsimp only
        omega
      · -- what is left is below the range or on top
        simp only [PageTable.clear] at hn'
        split at hn'
        · cases hn'
        · rcases hb n hn' with hlow | htop'
          · exact .inl (by omega)
          · exact .inr htop'
    · next hround =>
      cases h
      exact ⟨by omega, .refl hw ph, hb.mono (by omega)⟩

-- == uvmalloc

theorem PageTable.Wf.path (hw : pt.Wf) (hs : (pt.leaf (va / pgSize)).isSome = true) :
    ∃ a c, pt.low (va / 2 ^ 21) = some a ∧ pt.mid (va / 2 ^ 30) = some c := by
  have hlow : va / 2 ^ 21 = va / pgSize / 512 := by unfold pgSize; omega
  have hmid : va / 2 ^ 30 = va / pgSize / 512 / 512 := by unfold pgSize; omega
  obtain ⟨a, ha⟩ := Option.isSome_iff_exists.mp (hw.low _ hs)
  obtain ⟨c, hc⟩ := Option.isSome_iff_exists.mp (hw.mid _ (hw.low _ hs))
  exact ⟨a, c, by rw [hlow, ha], by rw [hmid, hc]⟩

theorem walk_mapped (hw : pt.Wf) (hva : va < maxVa) (hs : (pt.leaf (va / pgSize)).isSome = true) :
    walk pt va = .ok (some (va / pgSize)) := by
  obtain ⟨a, c, ha, hc⟩ := hw.path hs
  simp only [walk, if_neg (Nat.not_le.mpr hva), ha, hc]

theorem mappages_remap {pa : Nat} (hw : pt.Wf) (hmod : va % pgSize = 0) (hva : va < maxVa)
    (hs : (pt.leaf (va / pgSize)).isSome = true) :
    mappages pt ph va pgSize pa perm = .error .remap := by
  obtain ⟨a, c, ha, hc⟩ := hw.path hs
  have hwalk : walkAlloc pt ph va = .ok (some (va / pgSize), pt, ph) := by
    simp only [walkAlloc, if_neg (Nat.not_le.mpr hva), walkMid, walkLow, ha, hc]
  have hlt : va < 2 ^ 64 := by
    unfold maxVa at hva
    omega
  rw [mappages_one hlt hmod, hwalk, ok_bind]
  dsimp only
  rw [if_pos hs]
  rfl

/-- One turn of uvmalloc's loop: the next page is mapped, or the pages from
`b` on are given back. The turn at the trapframe would be a remap. -/
theorem allocPage_trades {k : Nat} {s : PageTable × Phys}
    {o : (PageTable × Phys) ⊕ (PageTable × Phys)}
    (hmod : b % 4096 = 0) (hle : b + k * pgSize ≤ trapframe)
    (htop : b + k * pgSize < trapframe ∨ (s.1.leaf tfPage).isSome = true)
    (hw : s.1.Wf) (hb : s.1.Below (b + k * pgSize)) (h : allocPage b xperm k s = .ok o) :
    (∃ t, o = .inl t ∧ b + (k + 1) * pgSize ≤ trapframe
        ∧ Trades s.1 s.2 t.1 t.2 ∧ t.1.Below (b + (k + 1) * pgSize)
        ∧ ∃ mem, ∀ m, t.1.leaf m = if m = (b + k * pgSize) / pgSize then
            some ⟨mem, { xperm with r := true, u := true }⟩ else s.1.leaf m)
      ∨ ∃ t, o = .inr t ∧ Trades s.1 s.2 t.1 t.2 ∧ t.1.Below b := by
  have hk : (b + k * pgSize) % 4096 = 0 ∧ (b + (k + 1) * pgSize) % 4096 = 0 := by
    unfold pgSize
    omega
  have htops := topPages
  have hnext : b + k * pgSize < trapframe →
      b + (k + 1) * pgSize ≤ trapframe
        ∧ (b + (k + 1) * pgSize) / pgSize = (b + k * pgSize) / pgSize + 1
        ∧ (b + k * pgSize) / pgSize < tfPage := by
    unfold pgSize at *
    omega
  -- giving back leaves nothing above `b`
  have hback : ∀ {pt pt' : PageTable} {ph ph' : Phys} {sz : Nat}, pt.Wf →
      pt.Below (b + k * pgSize) → uvmdealloc pt ph (b + k * pgSize) b = .ok (sz, pt', ph') →
      Trades pt ph pt' ph' ∧ pt'.Below b := by
    intro pt pt' ph ph' sz hw hb hd
    obtain ⟨hsz, ht, hb'⟩ := uvmdealloc_trades hw hb hle hd
    rw [Nat.min_eq_right (Nat.le_add_right _ _)] at hsz
    exact ⟨ht, hsz ▸ hb'⟩
  simp only [allocPage] at h
  split at h
  · next ph1 halloc =>
    obtain ⟨⟨sz, pt, ph⟩, hd, h⟩ := bind_ok h
    cases h
    obtain ⟨ht, hbelow⟩ := hback hw hb hd
    rw [(kalloc_none halloc).1] at ht
    exact .inr ⟨_, rfl, ht, hbelow⟩
  · next mem ph1 halloc =>
    obtain ⟨⟨ok, pt, ph⟩, hmap, h⟩ := bind_ok h
    have hlt : b + k * pgSize < trapframe := by
      refine htop.elim id fun hsome => ?_
      by_contra hge
      have heq : b + k * pgSize = trapframe := by omega
      rw [heq, mappages_remap hw (by decide) (by decide) hsome] at hmap
      cases hmap
    obtain ⟨hend, hdiv, hpage⟩ := hnext hlt
    rcases mapFresh_trades hw (by omega) ⟨by omega, by omega⟩ halloc hmap with
      ⟨rfl, ht, hleaf⟩ | ⟨rfl, hleaf, hfail⟩
    · cases h
      have hround := pgRoundUp_aligned hk.1 hle
      have hround' := pgRoundUp_aligned hk.2 hend
      refine .inl ⟨_, rfl, hend, ht, fun n hn => ?_, mem, hleaf⟩
      -- the page above the old size is the one below the new size
      rw [hround', hdiv]
      by_cases hnk : n = (b + k * pgSize) / pgSize
      · exact .inl (by omega)
      rw [hleaf, if_neg hnk] at hn
      refine (hb n hn).imp_left fun hlow => ?_
      rw [hround] at hlow
      omega
    · obtain ⟨ph2, hfree, h⟩ := bind_ok h
      obtain ⟨⟨sz, pt2, ph3⟩, hd, h⟩ := bind_ok h
      cases h
      have ht := hfail _ hfree
      obtain ⟨ht', hbelow⟩ := hback ht.wf (fun n hn => hb n (by rw [← hleaf]; exact hn)) hd
      exact .inr ⟨_, rfl, ht.trans ht', hbelow⟩

theorem pagesBelow_le {lo hi : Nat} (hlo : lo % 4096 = 0)
    (ha : a % 4096 = 0) (h1 : lo ≤ a) (h2 : hi ≤ a) : lo + pagesBelow lo hi * pgSize ≤ a := by
  unfold pagesBelow pgSize
  omega

/-- The `n` pages from `lo` on are mapped. -/
def PageTable.Filled (pt : PageTable) (lo n : Nat) (perm : Perm) : Prop :=
  ∀ m, lo ≤ m → m < lo + n → ∃ mem, pt.leaf m = some ⟨mem, perm⟩

/-- uvmalloc reaches the new size with every page mapped, or fails and has
given back the pages it mapped. -/
theorem uvmalloc_trades (hw : pt.Wf) (hb : pt.Below oldsz) (ho : oldsz ≤ trapframe)
    (htop : newsz ≤ trapframe ∨ (pt.leaf tfPage).isSome = true)
    (h : uvmalloc pt ph oldsz newsz xperm = .ok (sz, pt', ph')) :
    Trades pt ph pt' ph'
      ∧ (sz = 0 ∧ pt'.Below oldsz
        ∨ oldsz ≤ sz ∧ sz ≤ trapframe ∧ pt'.Below sz
          ∧ (oldsz ≤ newsz → sz = newsz
            ∧ pt'.Filled (pgRoundUp oldsz / pgSize) (pagesBelow (pgRoundUp oldsz) newsz)
                { xperm with r := true, u := true })) := by
  obtain ⟨hup, htf, hmod⟩ := pgRoundUp_top ho
  simp only [uvmalloc] at h
  split at h
  · cases h
    exact ⟨.refl hw ph, .inr ⟨Nat.le_refl _, ho, hb, fun _ => by omega⟩⟩
  · next hge =>
    have hsame := pgRoundUp_aligned hmod htf
    have hstart : pt.Below (pgRoundUp oldsz) := hb.mono (by omega)
    obtain ⟨o, hloop, h⟩ := bind_ok h
    generalize hbase : pgRoundUp oldsz = b at *
    have hturn : ∀ k, k < pagesBelow b newsz → ∀ t : PageTable × Phys, Trades pt ph t.1 t.2 →
        b + k * pgSize < trapframe ∨ (t.1.leaf tfPage).isSome = true := by
      intro k hk t ht
      rw [lt_pagesBelow] at hk
      rw [ht.frame]
      refine htop.imp_left fun hnew => ?_
      unfold pgSize
      omega
    have hinv := Ensures.forRet
      (fun k (t : PageTable × Phys) => Trades pt ph t.1 t.2
        ∧ b + k * pgSize ≤ trapframe ∧ t.1.Below (b + k * pgSize)
        ∧ t.1.Filled (b / pgSize) k { xperm with r := true, u := true })
      (fun t => Trades pt ph t.1 t.2 ∧ t.1.Below b)
      ⟨.refl hw ph, by omega, by rw [Nat.zero_mul]; exact hstart,
        fun m hlo hhi => by omega⟩ ?_ o hloop
    · rcases o with ⟨pt1, ph1⟩ | ⟨pt1, ph1⟩
      · cases h
        obtain ⟨ht, hend, hbel, hfill⟩ := hinv
        have hreach : newsz ≤ b + pagesBelow b newsz * pgSize := by
          unfold pagesBelow pgSize
          omega
        have hmono := pgRoundUp_mono (Nat.not_lt.mp hge) (hreach.trans hend)
        have hround : pgRoundUp (b + pagesBelow b newsz * pgSize) ≤ pgRoundUp newsz := by
          have hnew := (pgRoundUp_top (hreach.trans hend)).1
          have hnmod := pgRoundUp_mod newsz
          rw [pgRoundUp_aligned (by unfold pgSize; omega) hend]
          exact pagesBelow_le hmod hnmod (hbase ▸ hmono) hnew
        exact ⟨ht, .inr ⟨by omega, by omega, hbel.mono hround, fun _ => ⟨rfl, hfill⟩⟩⟩
      · cases h
        exact ⟨hinv.1, .inl ⟨rfl, hinv.2.mono (by omega)⟩⟩
    · rintro k hk t ⟨ht, hend, hbel, hfill⟩ o hf
      rcases allocPage_trades hmod hend (hturn k hk t ht) ht.wf hbel hf with
        ⟨u, rfl, hend', ht', hbel', mem, hleaf⟩ | ⟨u, rfl, ht', hbel'⟩
      · refine ⟨ht.trans ht', hend', hbel', fun m hlo hhi => ?_⟩
        rw [hleaf, page_add]
        by_cases hm : m = b / pgSize + k
        · exact ⟨mem, if_pos hm⟩
        · rw [if_neg hm]
          exact hfill m hlo (by omega)
      · exact ⟨ht.trans ht', hbel'⟩

end

end Xv6Labs.Model
