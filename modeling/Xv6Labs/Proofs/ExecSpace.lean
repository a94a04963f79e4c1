/-
The address space of an exec.

kexec builds the new image in a table of its own (`Build`) from pages of
the free list, with the size at hand that `goto bad` needs. copyout to the
new table never faults: what is pushed fits in the stack page, or the stack
pointer has wrapped.
-/
import Xv6Labs.Proofs.ForkSpace
import Xv6Labs.Proofs.PlainSpace

namespace Xv6Labs.Model

open Lib Finset

variable {ip : Nat} {path : List UInt8} {ok : Bool} {argv : List (List UInt8)}

variable {o : Option Nat} {k n sp va : Nat} {q : Proc}

-- == building

/-- Work on the shared state that moves no page. -/
structure Unmoved (g g' : Glob) : Prop where
  free : g'.phys.freelist = g.phys.freelist
  shared : g'.shared = g.shared
  ftable : g'.ftable = g.ftable

/-- An image under construction: what it has of pages, the free list has
lost since `g`. -/
structure Build (g : Glob) (sz : Nat) (pt : PageTable) (g' : Glob) : Prop where
  wf : pt.Wf
  frame : (pt.leaf tfPage).isSome = true
  below : pt.Below sz
  size : sz ≤ trapframe
  shared : g'.shared = g.shared
  ftable : g'.ftable = g.ftable
  ledger : ∀ x, g'.phys.freelist.count x + pt.tables x + pt.pages x = g.phys.freelist.count x

section

variable {g g' g'' : Glob} {pt pt' : PageTable} {sz sz' : Nat} {ph : Phys}

theorem Unmoved.refl (g : Glob) : Unmoved g g := ⟨rfl, rfl, rfl⟩

theorem Unmoved.trans (h : Unmoved g g') (h' : Unmoved g' g'') : Unmoved g g'' :=
  ⟨h'.free.trans h.free, h'.shared.trans h.shared, h'.ftable.trans h.ftable⟩

theorem iput_unmoved (g : Glob) (ip : Nat) : Unmoved g (iput g ip) := by
  obtain ⟨disk, valid, heq⟩ := iput_slot g ip
  rw [heq]
  exact ⟨rfl, rfl, rfl⟩

theorem ilock_unmoved (h : ilock g ip = .ok g') : Unmoved g g' := by
  simp only [ilock] at h
  split at h
  · cases h
  split at h
  · cases h
    exact .refl g
  · split at h <;> cases h
    exact ⟨rfl, rfl, rfl⟩

theorem namei_unmoved {cwd : Option Nat} (h : namei g cwd path = .ok (o, g')) : Unmoved g g' := by
  have hs := (namei_covers (fun _ => Int.le_refl _) h).2
  exact ⟨by rw [hs.phys], hs.shared, hs.ftable⟩

theorem Build.unmoved (h : Build g sz pt g') (hu : Unmoved g' g'') : Build g sz pt g'' :=
  ⟨h.wf, h.frame, h.below, h.size, hu.shared.trans h.shared,
    hu.ftable.trans h.ftable, fun x => by rw [hu.free]; exact h.ledger x⟩

theorem Build.trade (h : Build g sz pt g') (ht : Trades pt g'.phys pt' ph) (hb : pt'.Below sz')
    (hsz : sz' ≤ trapframe) : Build g sz' pt' { g' with phys := ph } :=
  ⟨ht.wf, by rw [ht.frame]; exact h.frame, hb, hsz, h.shared, h.ftable,
    fun x => (ht.ledger x).trans (h.ledger x)⟩

theorem Build.start {tf : Nat} (h : procPagetable g.phys tf = .ok (some pt, ph)) :
    Build g 0 pt { g with phys := ph } := by
  obtain ⟨hf, _, _, hc⟩ := procPagetable_some h
  obtain ⟨e, he, _⟩ := hf.frame
  refine ⟨hf.wf, by rw [he]; rfl, fun n hn => .inr (hf.top n hn),
    Nat.zero_le _, rfl, rfl, fun x => ?_⟩
  rw [hf.pages, Nat.add_zero]
  exact hc x

/-- `goto bad` returns everything. -/
theorem Build.free (h : Build g sz pt g')
    (hf : procFreepagetable pt g'.phys sz = .ok ph) (x : Nat) :
    ph.freelist.count x = g.phys.freelist.count x :=
  ((procFreepagetable_ledger h.wf hf).2 x).trans (h.ledger x)

/-- uvmalloc on the image. -/
theorem Build.alloc {newsz : Nat} {xperm : Perm} (h : Build g sz pt g')
    (ha : uvmalloc pt g'.phys sz newsz xperm = .ok (sz', pt', ph)) :
    (sz' = 0 → Build g sz pt' { g' with phys := ph })
      ∧ (sz' ≠ 0 → Build g sz' pt' { g' with phys := ph }
        ∧ (sz ≤ newsz → sz' = newsz
          ∧ pt'.Filled (pgRoundUp sz / pgSize) (pagesBelow (pgRoundUp sz) newsz)
              { xperm with r := true, u := true })) := by
  obtain ⟨ht, hres⟩ := uvmalloc_trades h.wf h.below h.size (.inr h.frame) ha
  rcases hres with ⟨h0, hb⟩ | ⟨hle, htop, hb, hfill⟩
  · exact ⟨fun _ => h.trade ht hb h.size, fun hne => absurd h0 hne⟩
  refine ⟨fun h0 => ?_, fun _ => ⟨h.trade ht hb htop, hfill⟩⟩
  -- nothing was asked for
  have hsame : sz = sz' := by omega
  rw [hsame]
  exact h.trade ht hb htop

-- == the segments

theorem loadseg_unmoved {offset : Nat}
    (h : loadseg pt g ip va offset n = .ok (ok, g')) : Unmoved g g' := by
  have hturn : ∀ k t o, loadsegPage pt ip va offset n k t = .ok o → Unmoved t (o.elim id id) := by
    intro k t o h
    obtain ⟨pa, _, h⟩ := bind_ok h
    split at h
    · cases h
    · dsimp only at h
      generalize (if n - k * pgSize < pgSize then n - k * pgSize else pgSize) = m at h
      split at h <;> cases h <;> exact ⟨rfl, rfl, rfl⟩
  obtain ⟨o, ho, h⟩ := bind_ok h
  have hloop := forRet_inv (fun _ t => Unmoved g t) (fun t => Unmoved g t)
    (.refl g) (fun k _ t _ hq hk => hq.trans (hturn k t _ hk))
    (fun k _ t _ hq hk => hq.trans (hturn k t _ hk)) ho
  rcases hloop with ⟨t, rfl, hq⟩ | ⟨t, rfl, hq⟩ <;> cases h <;> exact hq

/-- One program header: whichever way the turn ends, the size it leaves is
the one to free with. -/
theorem execSeg_build {phoff i : Nat} {s : Nat × PageTable × Glob}
    {o : (Nat × PageTable × Glob) ⊕ (Nat × PageTable × Glob)}
    (hb : Build g s.1 s.2.1 s.2.2) (h : execSeg ip phoff i s = .ok o) :
    Build g (o.elim id id).1 (o.elim id id).2.1 (o.elim id id).2.2 := by
  simp only [execSeg] at h
  iterate 5
    split at h
    · cases h
      exact hb
  obtain ⟨⟨sz1, pt1, ph1⟩, ha, h⟩ := bind_ok h
  split at h
  · next hz =>
    cases h
    exact (hb.alloc ha).1 hz
  · next hz =>
    obtain ⟨⟨ok, g2⟩, hl, h⟩ := bind_ok h
    have hb2 := ((hb.alloc ha).2 hz).1.unmoved (loadseg_unmoved hl)
    cases ok <;> cases h <;> exact hb2

-- == the stack

/-- The page at `base` is mapped, and the kernel may write to it for the
user. -/
structure StackPage (pt : PageTable) (base : Nat) : Prop where
  wf : pt.Wf
  mod : base % 4096 = 0
  top : base < maxVa
  entry : ∃ e, pt.leaf (base / pgSize) = some e ∧ e.pa ≠ 0 ∧ e.perm.u = true ∧ e.perm.w = true

variable {p : Proc} {base dst len : Nat} {src : Nat → UInt8}

/-- copyout to the stack page finds it. -/
theorem copyoutPage_stack (h : StackPage p.pagetable base)
    (hlo : base ≤ dst) (hhi : dst < base + 4096) :
    ∃ n mem, copyoutPage dst src len k (0, p, g) = .ok (.inl (n, p, g.setMem mem)) := by
  obtain ⟨e, he, hpa, hu, hw⟩ := h.entry
  have htop := h.top
  have hmod := h.mod
  have hdst : u64 ((dst : Int) + ((0 : Nat) : Int)) = dst := by
    refine u64_of_lt (by omega) ?_
    unfold maxVa at htop
    omega
  have hva : pgRoundDown dst = base := by
    unfold pgRoundDown pgSize
    omega
  have hvalid := walkValid_eq h.wf htop
  have haddr : walkaddr p.pagetable base = .ok e.pa := by
    simp only [walkaddr, if_neg (Nat.not_le.mpr htop), hvalid, ok_bind, he, hu, if_true]
    rfl
  have hwalk : walk p.pagetable base = .ok (some (base / pgSize)) :=
    walk_mapped h.wf htop (by rw [he]; rfl)
  simp only [copyoutPage, hdst, hva, if_neg (Nat.not_le.mpr htop), haddr,
    ok_bind, if_neg hpa, pure_eq, hwalk, he, Option.any_some, hw, if_true]
  exact ⟨_, _, rfl⟩

theorem copyoutPage_high (h : 2 ^ 62 ≤ dst) (hd : dst < 2 ^ 64) :
    copyoutPage dst src len k (0, p, g) = .ok (.inr (p, g)) := by
  have hdst : u64 ((dst : Int) + ((0 : Nat) : Int)) = dst := u64_of_lt (by omega) hd
  have hva : maxVa ≤ pgRoundDown dst := by
    unfold pgRoundDown pgSize maxVa
    omega
  simp only [copyoutPage, hdst, if_pos hva]

/-- What fits in the stack page is copied without a fault. -/
theorem copyout_stack (h : StackPage p.pagetable base)
    (hlo : base ≤ dst) (hhi : dst + len ≤ base + 4096)
    (hc : copyout p g dst src len = .ok (ok, q, g')) : q = p ∧ Unmoved g g' := by
  obtain ⟨o, ho, hc⟩ := bind_ok hc
  -- a request of some bytes takes one turn
  have hone : ∀ k, k < copyPages dst len → dst < base + 4096 ∧ k = 0 := by
    intro k hk
    have hmod := h.mod
    unfold copyPages pgSize at hk
    split at hk <;> omega
  have hturn : ∀ k, k < copyPages dst len → ∃ n mem,
      copyoutPage dst src len k (0, p, g) = .ok (.inl (n, p, g.setMem mem)) :=
    fun k hk => copyoutPage_stack h hlo (hone k hk).1
  have hloop := forRet_inv (fun k t => t.2.1 = p ∧ Unmoved g t.2.2 ∧ (k = 0 → t = (0, p, g)))
    (fun _ => False) ⟨rfl, .refl g, fun _ => rfl⟩ ?_ ?_ ho
  · rcases hloop with ⟨t, rfl, hP⟩ | ⟨_, _, hP⟩
    · cases hc
      exact ⟨hP.1, hP.2.1⟩
    · exact hP.elim
  · rintro k hk t t' ⟨_, _, hzero⟩ hf
    obtain ⟨n, mem, heq⟩ := hturn k hk
    rw [hzero (hone k hk).2, heq] at hf
    cases hf
    exact ⟨rfl, ⟨rfl, rfl, rfl⟩, fun h0 => (nomatch h0)⟩
  · rintro k hk t r ⟨_, _, hzero⟩ hf
    obtain ⟨n, mem, heq⟩ := hturn k hk
    rw [hzero (hone k hk).2, heq] at hf
    cases hf

theorem copyout_high (hlo : 2 ^ 62 ≤ dst) (hhi : dst < 2 ^ 64)
    (hlen : 0 < len) (hc : copyout p g dst src len = .ok (ok, q, g')) :
    ok = false ∧ q = p ∧ g' = g := by
  obtain ⟨o, ho, hc⟩ := bind_ok hc
  have hpos : 0 < copyPages dst len := by
    unfold copyPages pgSize
    rw [if_neg (by omega)]
    omega
  have hloop := forRet_inv (fun k t => k = 0 ∧ t = (0, p, g))
    (fun r => r = (p, g)) ⟨rfl, rfl⟩ ?_ ?_ ho
  · rcases hloop with ⟨_, _, hP⟩ | ⟨t, rfl, rfl⟩
    · omega
    · cases hc
      exact ⟨rfl, rfl, rfl⟩
  · rintro k _ t t' ⟨_, rfl⟩ hf
    rw [copyoutPage_high hlo hhi] at hf
    cases hf
  · rintro k _ t r ⟨_, rfl⟩ hf
    rw [copyoutPage_high hlo hhi] at hf
    cases hf
    rfl

/-- A push leaves the table alone, and the stack pointer in the page. -/
theorem execPush_stack (h : StackPage pt base) (hsp : sp ≤ base + 4096) (hlen : len < 2 ^ 62)
    (hx : execPush p pt g base sp src len = .ok (o, pt', g')) :
    pt' = pt ∧ Unmoved g g' ∧ ∀ sp', o = some sp' → sp' ≤ base + 4096 := by
  have htop := h.top
  unfold maxVa at htop
  simp only [execPush] at hx
  split at hx
  · cases hx
    exact ⟨rfl, .refl g, fun _ h => (nomatch h)⟩
  · next hge =>
    obtain ⟨⟨ok, q, g1⟩, hc, hx⟩ := bind_ok hx
    cases hx
    by_cases hle : len ≤ sp
    · have hu : u64 ((sp : Int) - len) = sp - len := u64_of_lt (by omega) (by omega)
      obtain ⟨rfl, hmoved⟩ := copyout_stack h (Nat.not_lt.mp hge) (by omega) hc
      refine ⟨rfl, hmoved, fun sp' hsp' => ?_⟩
      split at hsp' <;> cases hsp'
      omega
    · -- the stack pointer wrapped
      have hu : u64 ((sp : Int) - len) = 2 ^ 64 - (len - sp) := by
        unfold u64
        omega
      obtain ⟨rfl, rfl, rfl⟩ := copyout_high (by omega) (by omega) (by omega) hc
      exact ⟨rfl, .refl _, fun _ h => (nomatch h)⟩

/-- So do the pushes of all arguments. -/
theorem execArgs_stack {ustack : List Nat}
    {o : Option (Nat × List Nat)} (h : StackPage pt base)
    (hsp : sp ≤ base + 4096) (hargs : ∀ s ∈ argv, s.length < pgSize)
    (hx : execArgs p base argv ustack sp pt g = .ok (o, pt', g')) :
    pt' = pt ∧ Unmoved g g' ∧ ∀ sp' ustack', o = some (sp', ustack') → sp' ≤ base + 4096 := by
  induction argv generalizing ustack sp g with
  | nil =>
    cases hx
    refine ⟨rfl, .refl _, fun sp' ustack' heq => ?_⟩
    cases heq
    exact hsp
  | cons s rest ih =>
    simp only [execArgs] at hx
    split at hx
    · cases hx
      exact ⟨rfl, .refl _, fun _ _ h => (nomatch h)⟩
    obtain ⟨⟨o1, pt1, g1⟩, h1, hx⟩ := bind_ok hx
    have hs := hargs s List.mem_cons_self
    obtain ⟨rfl, hmoved, hsp1⟩ := execPush_stack h hsp (by unfold pgSize at hs; omega) h1
    cases o1 with
    | none =>
      cases hx
      exact ⟨rfl, hmoved, fun _ _ h => (nomatch h)⟩
    | some sp1 =>
      obtain ⟨hpt, hmoved', hres⟩ := ih (hsp1 sp1 rfl)
        (fun s hs => hargs s (List.mem_cons_of_mem _ hs)) hx
      exact ⟨hpt, hmoved.trans hmoved', hres⟩

/-- A mapped user page is counted. -/
theorem pages_pos {e : Pte} (hn : n < tfPage) (he : pt.leaf n = some e) : 0 < pt.pages e.pa := by
  have htops := topPages
  have hrow := row_le_sum (f := fun m => ptePoints (pt.bare.leaf m) e.pa) (show n < 2 ^ 26 by omega)
  have hone : ptePoints (pt.bare.leaf n) e.pa = 1 := by
    rw [bare_leaf, if_neg (by omega), he]
    exact if_pos rfl
  rw [hone] at hrow
  exact hrow

theorem pages_of_addr (h : ∀ m, (pt'.leaf m).map Pte.pa = (pt.leaf m).map Pte.pa) (x : Nat) :
    pt'.pages x = pt.pages x := by
  refine sum_same fun m _ => ?_
  unfold ptePoints
  rw [bare_leaf, bare_leaf]
  split
  · rfl
  · rw [h m]

/-- uvmclear changes a flag. -/
theorem Build.clear (h : Build g sz pt g') (hc : uvmclear pt va = .ok pt') :
    Build g sz pt' g' ∧ ∀ m, m ≠ va / pgSize → pt'.leaf m = pt.leaf m := by
  obtain ⟨o, hw, hc⟩ := bind_ok hc
  cases o with
  | none => cases hc
  | some n =>
    cases hc
    have hn : n = va / pgSize := by
      unfold walk at hw
      split at hw
      · cases hw
      · split at hw <;> cases hw
        rfl
    subst hn
    have haddr : ∀ m, ((pt.setLeaf (va / pgSize) ((pt.leaf (va / pgSize)).map
        fun e => { e with perm.u := false })).leaf m).map Pte.pa = (pt.leaf m).map Pte.pa := by
      intro m
      rw [setLeaf_leaf]
      split
      · next hm =>
        rw [hm, Option.map_map]
        rfl
      · rfl
    have hsome : ∀ m, ((pt.setLeaf (va / pgSize) ((pt.leaf (va / pgSize)).map
        fun e => { e with perm.u := false })).leaf m).isSome = (pt.leaf m).isSome := by
      intro m
      rw [← Option.isSome_map, haddr, Option.isSome_map]
    refine ⟨⟨⟨fun m hm => ?_, h.wf.mid, h.wf.top⟩, ?_, fun m hm => ?_,
      h.size, h.shared, h.ftable, fun x => ?_⟩, fun m hm => ?_⟩
    · rw [hsome] at hm
      exact h.wf.low m hm
    · rw [hsome]
      exact h.frame
    · rw [hsome] at hm
      exact h.below m hm
    · rw [pages_of_addr haddr]
      exact h.ledger x
    · rw [setLeaf_leaf, if_neg hm]

/-- The upper of the two pages uvmalloc maps for the stack. -/
theorem Build.stackPage {lo : Nat} {perm : Perm} (h : Build g (lo + 8192) pt g')
    (hz : g.phys.freelist.count 0 = 0) (hmod : lo % 4096 = 0)
    (hfill : pt.Filled (lo / pgSize) 2 perm) (hu : perm.u = true)
    (hw : perm.w = true) (hwf : pt'.Wf) (hleaf : ∀ m, m ≠ lo / pgSize → pt'.leaf m = pt.leaf m) :
    StackPage pt' (lo + 4096) := by
  have htops := topPages
  have hsize := h.size
  have hpage : (lo + 4096) / pgSize = lo / pgSize + 1 := by
    unfold pgSize
    omega
  have htf : lo / pgSize + 1 < tfPage := by
    unfold pgSize
    omega
  obtain ⟨mem, hmem⟩ := hfill (lo / pgSize + 1) (by omega) (by omega)
  refine ⟨hwf, by omega, ?_, ⟨mem, perm⟩, ?_, fun h0 => ?_, hu, hw⟩
  · have : trapframe < maxVa := by decide
    omega
  · rw [hpage, hleaf _ (by omega), hmem]
  · have hpos := pages_pos htf hmem
    have hled := h.ledger 0
    rw [h0] at hpos
    omega

/-- The guard page and the stack page above the image. -/
theorem stack_pages (a : Nat) : pagesBelow a (a + 8192) = 2
    ∧ a + 8192 - 2 * pgSize = a ∧ a + 8192 - pgSize = a + 4096 := by
  unfold pagesBelow pgSize
  omega

/-- The stack and the arguments. On every path the size in hand is the one
to free with. -/
theorem execStack_build {entry : Nat} {o : Option Image} (h : Build g sz pt g')
    (hz : g.phys.freelist.count 0 = 0) (hargs : ∀ s ∈ argv, s.length < pgSize)
    (hx : execStack p g' pt sz entry argv = .ok (o, sz', pt', g'')) :
    Build g sz' pt' g'' ∧ ∀ img, o = some img → img.pagetable = pt' ∧ img.sz = sz' := by
  obtain ⟨hup, htf, hmod⟩ := pgRoundUp_top h.size
  have hsame := pgRoundUp_aligned hmod htf
  have hround : Build g (pgRoundUp sz) pt g' :=
    { h with below := h.below.mono (by rw [hsame]), size := htf }
  obtain ⟨⟨sz1, pt1, ph1⟩, ha, hx⟩ := bind_ok hx
  obtain ⟨hfail, hok⟩ := hround.alloc ha
  dsimp only at hx
  split at hx
  · next h0 =>
    cases hx
    exact ⟨hfail h0, fun _ h => (nomatch h)⟩
  · next h0 =>
    obtain ⟨hb1, hgrown⟩ := hok h0
    obtain ⟨pt2, hclear, hx⟩ := bind_ok hx
    obtain ⟨hb2, hleaf⟩ := hb1.clear hclear
    have hnew : u64 (((pgRoundUp sz : Nat) : Int) + 2 * (pgSize : Int)) = pgRoundUp sz + 8192 := by
      refine u64_of_lt (by unfold pgSize; omega) ?_
      have : trapframe < 2 ^ 63 := by decide
      omega
    rw [hnew, hsame] at hgrown
    obtain ⟨rfl, hfill⟩ := hgrown (by omega)
    obtain ⟨htwo, hguard, hbase⟩ := stack_pages (pgRoundUp sz)
    rw [htwo] at hfill
    rw [hguard] at hleaf
    have hstack := hb1.stackPage hz hmod hfill rfl rfl hb2.wf hleaf
    rw [hbase] at hx
    obtain ⟨⟨o3, pt3, g3⟩, h3, hx⟩ := bind_ok hx
    obtain ⟨rfl, hmoved, hsp⟩ := execArgs_stack hstack (by omega) hargs h3
    have hb3 := hb2.unmoved hmoved
    cases o3 with
    | none =>
      cases hx
      exact ⟨hb3, fun _ h => (nomatch h)⟩
    | some st =>
      obtain ⟨sp, ustack⟩ := st
      dsimp only at hx
      split at hx
      · cases hx
      · next hmax =>
        obtain ⟨⟨o4, pt4, g4⟩, h4, hx⟩ := bind_ok hx
        obtain ⟨rfl, hmoved4, _⟩ := execPush_stack hstack
          (hsp sp ustack rfl) (by unfold maxArg at hmax; omega) h4
        have hb4 := hb3.unmoved hmoved4
        cases o4 with
        | none =>
          cases hx
          exact ⟨hb4, fun _ h => (nomatch h)⟩
        | some sp' =>
          cases hx
          refine ⟨hb4, fun img himg => ?_⟩
          cases himg
          exact ⟨rfl, rfl⟩

-- == kexec

/-- The free list has what it had, in some order. -/
structure Recovered (g g' : Glob) : Prop where
  free : ∀ x, g'.phys.freelist.count x = g.phys.freelist.count x
  shared : g'.shared = g.shared
  ftable : g'.ftable = g.ftable

theorem Unmoved.recovered (h : Unmoved g g') : Recovered g g' :=
  ⟨fun x => by rw [h.free], h.shared, h.ftable⟩

theorem Recovered.unmoved (h : Recovered g g') (hu : Unmoved g' g'') : Recovered g g'' :=
  ⟨fun x => by rw [hu.free]; exact h.free x, hu.shared.trans h.shared, hu.ftable.trans h.ftable⟩

theorem Build.bad (h : Build g sz pt g') (hf : procFreepagetable pt g'.phys sz = .ok ph) :
    Recovered g { g' with phys := ph } :=
  ⟨h.free hf, h.shared, h.ftable⟩

theorem Unmoved.build (hu : Unmoved g g') (h : Build g' sz pt g'') : Build g sz pt g'' :=
  ⟨h.wf, h.frame, h.below, h.size, h.shared.trans hu.shared,
    h.ftable.trans hu.ftable, fun x => by rw [← hu.free]; exact h.ledger x⟩

theorem Unmoved.trans_recovered (hu : Unmoved g g') (h : Recovered g' g'') : Recovered g g'' :=
  ⟨fun x => by rw [← hu.free]; exact h.free x, h.shared.trans hu.shared, h.ftable.trans hu.ftable⟩

/-- kexec up to its commit point: an image, or everything given back. -/
theorem execBuild_build {o : Option Image} (hz : g.phys.freelist.count 0 = 0)
    (hargs : ∀ s ∈ argv, s.length < pgSize) (hx : execBuild p g path argv = .ok (o, g')) :
    o = none ∧ Recovered g g' ∨ ∃ img, o = some img ∧ Build g img.sz img.pagetable g' := by
  obtain ⟨⟨o1, g1⟩, h1, hx⟩ := bind_ok hx
  have hu1 := namei_unmoved h1
  cases o1 with
  | none =>
    cases hx
    exact .inl ⟨rfl, hu1.recovered⟩
  | some ip =>
    obtain ⟨g2, h2, hx⟩ := bind_ok hx
    have hu2 := hu1.trans (ilock_unmoved h2)
    dsimp only at hx
    split at hx
    · cases hx
      exact .inl ⟨rfl, (hu2.trans (iput_unmoved _ _)).recovered⟩
    obtain ⟨⟨o3, ph3⟩, h3, hx⟩ := bind_ok hx
    cases o3 with
    | none =>
      cases hx
      have hr : Recovered g2 { g2 with phys := ph3 } := ⟨procPagetable_none h3, rfl, rfl⟩
      exact .inl ⟨rfl, (hu2.trans_recovered hr).unmoved (iput_unmoved _ _)⟩
    | some pt3 =>
      obtain ⟨o4, h4, hx⟩ := bind_ok hx
      have hloop := forRet_inv (fun _ t => Build g t.1 t.2.1 t.2.2)
        (fun t => Build g t.1 t.2.1 t.2.2) (hu2.build (Build.start h3))
        (fun _ _ t _ hb hk => execSeg_build hb hk) (fun _ _ t _ hb hk => execSeg_build hb hk) h4
      rcases hloop with
        ⟨⟨sz, pt4, g4⟩, rfl, hb⟩ | ⟨⟨sz, pt4, g4⟩, rfl, hb⟩
      · obtain ⟨⟨o5, sz5, pt5, g5⟩, h5, hx⟩ := bind_ok hx
        obtain ⟨hb5, himg⟩ := execStack_build (hb.unmoved (iput_unmoved _ _)) hz hargs h5
        cases o5 with
        | none =>
          obtain ⟨ph6, h6, hx⟩ := bind_ok hx
          cases hx
          exact .inl ⟨rfl, hb5.bad h6⟩
        | some img =>
          cases hx
          obtain ⟨hpt, hsz⟩ := himg img rfl
          refine .inr ⟨img, rfl, ?_⟩
          rw [hpt, hsz]
          exact hb5
      · obtain ⟨ph5, h5, hx⟩ := bind_ok hx
        cases hx
        exact .inl ⟨rfl, (hb.bad h5).unmoved (iput_unmoved _ _)⟩

/-- kexec exchanges one address space for the other, or fails and has
exchanged nothing. -/
theorem kexec_exchanges {p' : Proc} {r : Int} (hp : p.Plain)
    (hz : g.phys.freelist.count 0 = 0) (hargs : ∀ s ∈ argv, s.length < pgSize)
    (hx : kexec p g path argv = .ok (r, p', g')) : Exchanges p g p' g' := by
  obtain ⟨⟨o, g1⟩, h1, hx⟩ := bind_ok hx
  rcases execBuild_build hz hargs h1 with ⟨rfl, hr⟩ | ⟨img, rfl, hb⟩
  · cases hx
    exact ⟨rfl, rfl, hp, hr.shared, hr.ftable, fun x => by rw [hr.free]⟩
  obtain ⟨⟨p2, g2⟩, h2, hx⟩ := bind_ok hx
  obtain ⟨ph, hfree, h2⟩ := bind_ok h2
  cases h2
  cases hx
  refine ⟨rfl, rfl, ⟨hp.maps, hb.wf, hb.below, hb.size⟩, hb.shared, hb.ftable, fun x => ?_⟩
  have hnew := hb.ledger x
  have hold := (procFreepagetable_ledger hp.table hfree).2 x
  dsimp only
  omega

end

end Xv6Labs.Model
