/-
One page fault of lazy_mmap is all or nothing.

lazy_mmap takes a data page, maybe a registry entry, and tables on the way
to the PTE. A failure gives back what was taken before it; what stays are
tables that hold no entry (`lazy_mmap_all_or_nothing_iff`).
-/
import Xv6Labs.Proofs.FirstLoad
import Xv6Labs.Proofs.Mappings

namespace Xv6Labs.Model

open Lib

-- == the two outcomes

/-- Nothing has changed but tables that the page table took for itself. -/
structure FaultUndone (pt : PageTable) (g : Glob) (pt' : PageTable) (g' : Glob) : Prop where
  entries : ∀ m, pt'.entry m = pt.entry m
  shared : g'.shared = g.shared
  pages : ∀ x, pt'.tables x + g'.phys.freelist.count x = pt.tables x + g.phys.freelist.count x
  files : g'.ftable = g.ftable
  inodes : ∀ i, (g'.itable i).ref = (g.itable i).ref

theorem FaultUndone.refl (pt : PageTable) (g : Glob) : FaultUndone pt g pt g :=
  ⟨fun _ => rfl, rfl, fun _ => rfl, rfl, fun _ => rfl⟩

/-- What a fault relies on: the page table is a tree, the registry counts
references, and pages in the registry and on the free list are pages. -/
structure FaultReady (p : Proc) (g : Glob) : Prop where
  table : p.pagetable.Wf
  shared : g.shared.Ok
  free : g.phys.Sound
  pages : ∀ x, 0 < g.shared.pages x → g.phys.isPage x ∧ x ≠ 0
  freePages : ∀ x, x ∈ g.phys.freelist → g.phys.isPage x

theorem Restored.undone {pt pt' : PageTable} {g g' : Glob} (hw : pt.Wf)
    (h : Restored pt g pt' g') (hq : Quiet g g') : FaultUndone pt g pt' g' :=
  ⟨fun m => by rw [h.wf.entry_eq, hw.entry_eq, h.leaf], h.shared, h.pages, hq.ftable, hq.ref⟩

-- == the page supplied

section

variable {p p' : Proc} {g g₁ g' : Glob} {v : Vma} {va r : Nat}

/-- The page that readi fills: the position is cut to a `uint`. -/
theorem pageByte_cut {d : Dinode} (off : Nat) {j : Nat}
    (hsize : d.size ≤ maxFile * bsize) (hj : j < pgSize) :
    d.pageByte off j = d.byteAt (u32 off + j) := by
  have hmax : maxFile * bsize < 2 ^ 31 := by decide
  have hcut : u32 (u32 (off : Int) : Int) = u32 off := by
    unfold u32
    omega
  by_cases hlt : u32 (off : Int) + pgSize < 2 ^ 32
  · rw [← pageByte_eq hlt hj]
    unfold Dinode.pageByte
    rw [hcut]
  -- the position plus a page is past the last uint: readi returns 0
  have hpast : d.size < u32 (off : Int) := by
    unfold pgSize at *
    omega
  have hlen : readLen d.size (u32 (off : Int)) pgSize = 0 := if_pos (.inl hpast)
  rw [Dinode.pageByte, Dinode.byteAt, hlen, if_neg (Nat.not_lt_zero j), if_neg (by omega)]

/-- A page that was filled for the mapping, and is on no list. -/
structure FreshPage (g : Glob) (v : Vma) (off mem : Nat) (g₁ : Glob) : Prop where
  sound : g₁.phys.Sound
  taken : mem ∉ g₁.phys.freelist
  aligned : mem % pgSize = 0
  file : ∀ ip, g.vmaIp v = some ip → ∀ j, j < pgSize →
    g₁.phys.mem (mem + j) = (g.dinode ip).pageByte off j
  zero : v.file = none → ∀ j, j < pgSize → g₁.phys.mem (mem + j) = 0

theorem fillPage_fresh {off mem : Nat} (hs : g.phys.Sound)
    (h : fillPage g (g.vmaIp v) off = .ok (some mem, g₁)) : FreshPage g v off mem g₁ := by
  obtain ⟨_, htake, hcount, hpage⟩ := fillPage_spec h
  obtain ⟨hmem, ip, hip, hbytes⟩ := hpage mem rfl
  refine ⟨htake.sound hs, hs.taken hcount, hs.aligned mem hmem, ?_, ?_⟩
  · intro ip' hip'
    rw [hip] at hip'
    cases hip'
    exact hbytes
  · intro hno
    rw [Glob.vmaIp, hno] at hip
    cases hip

theorem privatePage_fresh {mem : Nat} (hs : g.phys.Sound)
    (h : privatePage g v va = .ok (some mem, g₁)) : FreshPage g v (v.fileOff va) mem g₁ := by
  obtain ⟨_, htake, hcount⟩ := privatePage_spec h
  simp only [privatePage] at h
  split at h
  · exact fillPage_fresh hs h
  · next hno =>
    split at h
    · cases h
    · next mem' ph halloc =>
      cases h
      have hmem : mem ∈ g.phys.freelist := (kalloc_some halloc).1 ▸ List.mem_cons_self
      refine ⟨htake.sound hs, hs.taken hcount, hs.aligned mem hmem, ?_, ?_⟩
      · intro ip hip
        rw [Glob.vmaIp, hno] at hip
        cases hip
      · intro _ j hj
        exact if_pos ⟨by omega, by omega⟩

/-- Pages taken for the registry or for tables leave it as it is. -/
theorem FreshPage.takes {off mem : Nat} {g2 : Glob}
    (h : FreshPage g v off mem g₁) (ht : g₁.phys.Takes g2.phys) : FreshPage g v off mem g2 := by
  have hmem : ∀ j, j < pgSize → g2.phys.mem (mem + j) = g₁.phys.mem (mem + j) :=
    fun j hj => ht.page h.sound h.aligned h.taken hj
  refine ⟨ht.sound h.sound, fun hin => h.taken ?_, h.aligned, ?_, ?_⟩
  · obtain ⟨l, hl⟩ := ht.suffix
    rw [hl]
    exact List.mem_append_right l hin
  · intro ip hip j hj
    rw [hmem j hj, h.file ip hip j hj]
  · intro hno j hj
    rw [hmem j hj, h.zero hno j hj]

/-- The registry has a page for the mapping at `va`. -/
def Glob.registered (g : Glob) (v : Vma) (va : Nat) : Option SharedEntry :=
  if v.isShared then g.shared.lookup (g.vmaIp v) (v.fileOff va) else none

theorem Supplied.page (hs : g.phys.Sound) (h : Supplied g v va r g₁) :
    (∃ e, g.registered v va = some e ∧ r = e.pa) ∨
      (g.registered v va = none ∧ FreshPage g v (v.fileOff va) r g₁) := by
  unfold Glob.registered
  cases h with
  | hit hsh hl => exact .inl ⟨_, by rw [if_pos hsh, hl], rfl⟩
  | miss hsh hl hfill hself =>
    refine .inr ⟨by rw [if_pos hsh, hl], ?_⟩
    have hfresh := fillPage_fresh hs hfill
    exact hfresh.takes (kalloc_some hself).2
  | own hsh hpage =>
    rw [hsh]
    exact .inr ⟨rfl, privatePage_fresh hs hpage⟩

/-- The PTE of the page at `va`, and only it, becomes valid, with user
permission and the access of the mapping; the page is the registered one,
or a new one with the bytes of the file. -/
structure FaultMapped (p : Proc) (g : Glob) (v : Vma) (va r : Nat)
    (p' : Proc) (g' : Glob) : Prop where
  entry : ∃ perm : Perm, perm.u = true ∧ perm.r = hasBit v.prot protRead ∧
    perm.w = hasBit v.prot protWrite ∧
    ∀ m, p'.pagetable.entry m = if m = va / pgSize then some ⟨r, perm⟩ else p.pagetable.entry m
  found : ∀ e, g.registered v (pgRoundDown va) = some e → r = e.pa
  file : g.registered v (pgRoundDown va) = none →
    ∀ ip, g.vmaIp v = some ip → ∀ j, j < pgSize →
      g'.phys.mem (r + j) = (g.dinode ip).byteAt (v.fileOff (pgRoundDown va) + j)
  zero : v.file = none → ∀ j, j < pgSize → g'.phys.mem (r + j) = 0

/-- readi gets the position of the page at `va` as it is, or finds nothing
where it looks. -/
def Glob.FitsUint (g : Glob) (v : Vma) (va : Nat) : Prop :=
  g.registered v (pgRoundDown va) = none → ∀ ip, g.vmaIp v = some ip →
    v.fileOff (pgRoundDown va) < 2 ^ 32 ∨ ∀ j, j < pgSize →
      (g.dinode ip).byteAt (u32 (v.fileOff (pgRoundDown va)) + j) = 0

theorem Supplied.mapped_iff {pt : PageTable} {ph : Phys} (hs : g.phys.Sound)
    (hsize : ∀ ip, g.vmaIp v = some ip → (g.dinode ip).size ≤ maxFile * bsize)
    (hva : va < maxVa) (hsup : Supplied g v (pgRoundDown va) r g₁)
    (hmap : mappages p.pagetable g₁.phys (pgRoundDown va) pgSize r v.perm = .ok (true, pt, ph)) :
    FaultMapped p g v va r { p with pagetable := pt }
      { g₁ with phys := ph } ↔ g.FitsUint v va := by
  have hround : pgRoundDown va < 2 ^ 64 := (pgRoundDown_le va).trans_lt (lt_two_pow_of_maxVa hva)
  obtain ⟨_, _, htake, hent⟩ := mappages_entry hround hmap
  have hent : ∀ m, pt.entry m = if m = va / pgSize then some ⟨r, v.perm⟩
      else p.pagetable.entry m := by
    rcases hent with ⟨hno, _⟩ | ⟨_, _, hall⟩
    · cases hno
    · rw [roundDown_div] at hall
      exact hall
  have hbytes : g.registered v (pgRoundDown va) = none →
      ∀ ip, g.vmaIp v = some ip → ∀ j, j < pgSize → ph.mem (r + j)
        = (g.dinode ip).byteAt (u32 (v.fileOff (pgRoundDown va)) + j) := by
    intro hno ip hip j hj
    rcases hsup.page hs with ⟨e', he', _⟩ | ⟨_, hfresh⟩
    · rw [hno] at he'
      cases he'
    · have hlast : FreshPage g v _ r { g₁ with phys := ph } := hfresh.takes htake
      rw [← pageByte_cut _ (hsize ip hip) hj]
      exact hlast.file ip hip j hj
  have hmax : maxFile * bsize < 2 ^ 32 := by decide
  constructor
  · intro hm hno ip hip
    refine or_iff_not_imp_left.mpr fun hbig j hj => ?_
    have hsz := hsize ip hip
    rw [← hbytes hno ip hip j hj]
    exact (hm.file hno ip hip j hj).trans (if_neg (by omega))
  intro hfit
  refine ⟨⟨v.perm, rfl, rfl, rfl, hent⟩, ?_, ?_, ?_⟩
  · intro e he
    rcases hsup.page hs with ⟨e', he', hr⟩ | ⟨hno, _⟩
    · rw [he] at he'
      cases he'
      exact hr
    · rw [he] at hno
      cases hno
  · intro hno ip hip j hj
    have hsz := hsize ip hip
    refine (hbytes hno ip hip j hj).trans ?_
    by_cases hlt : v.fileOff (pgRoundDown va) < 2 ^ 32
    · have hu : u32 (v.fileOff (pgRoundDown va)) = v.fileOff (pgRoundDown va) := by
        unfold u32
        omega
      rw [hu]
    · rw [(hfit hno ip hip).resolve_left hlt j hj]
      exact (if_neg (by omega)).symm
  · intro hno j hj
    rcases hsup.page hs with ⟨e', he', _⟩ | ⟨_, hfresh⟩
    · rw [Glob.registered, Vma.isShared, hno] at he'
      simp at he'
    · have hlast : FreshPage g v _ r { g₁ with phys := ph } := hfresh.takes htake
      exact hlast.zero hno j hj

end

-- == lazy_mmap

section

variable {p p' : Proc} {g g' : Glob} {va r i : Nat} {read : Bool}

/-- A page that was supplied is not at 0. -/
theorem Supplied.nonzero {v : Vma} {g₁ : Glob} (h : FaultReady p g)
    (hsup : Supplied g v va r g₁) : r ≠ 0 := by
  have hfree : ∀ {x : Nat} {l : List Nat}, l.count x + points (some r) x
      = g.phys.freelist.count x → r = x → r ≠ 0 := by
    rintro x l hcount rfl rfl
    rw [points_some, if_pos rfl] at hcount
    exact h.free.nonzero (List.count_pos_iff.mp (by omega))
  cases hsup with
  | hit _ hl => exact (h.pages _ (pages_pos_of_lookup hl).1).2
  | miss _ _ hfill => exact hfree ((fillPage_spec hfill).2.2.1 r) rfl
  | own _ hpage => exact hfree ((privatePage_spec hpage).2.2 r) rfl

/-- lazy_mmap on an address of a mapping, by its outcome. -/
theorem lazyMmap_outcome (h : FaultReady p g) (hat : vmaAt p va = some i)
    (hsize : ∀ ip, g.vmaIp (p.vma i) = some ip → (g.dinode ip).size ≤ maxFile * bsize)
    (hrun : lazyMmap p g va read = .ok (r, p', g')) :
    (r = 0 → FaultUndone p.pagetable g p'.pagetable g') ∧
    (p.pagetable.entry (va / pgSize) = none → r ≠ 0 →
      (FaultMapped p g (p.vma i) va r p' g' ↔ g.FitsUint (p.vma i) va)) := by
  have hq := (lazyMmap_frame _ hrun).2
  cases lazyMmap_fault hrun with
  | refused => exact ⟨fun _ => .refl _ _, fun _ hr => absurd rfl hr⟩
  | resident _ _ he =>
    refine ⟨fun _ => .refl _ _, fun hnone => ?_⟩
    cases he.symm.trans hnone
  | fault hat' hva _ _ hlazy =>
    cases hat.symm.trans hat'
    have hround := (pgRoundDown_le va).trans_lt hva
    rcases hlazy.undone hround with
      ⟨g₁, ph, hsup, rfl, hmap⟩ | ⟨rfl, _, hback⟩
    · exact ⟨fun hr => absurd hr (hsup.nonzero h), fun _ _ => hsup.mapped_iff h.free hsize hva hmap⟩
    · exact ⟨fun _ => (hback h.table h.shared).undone h.table hq, fun _ hr => absurd rfl hr⟩

end

-- == it returns

section

variable {pt : PageTable} {g : Glob} {v : Vma} {va : Nat}

theorem walkAlloc_returns (pt : PageTable) (ph : Phys) (hva : va < maxVa) :
    ∃ o pt' ph', walkAlloc pt ph va = .ok (o, pt', ph') := by
  simp only [walkAlloc, if_neg (Nat.not_le.mpr hva)]
  split
  · exact ⟨_, _, _, rfl⟩
  · split
    · exact ⟨_, _, _, rfl⟩
    · exact ⟨_, _, _, rfl⟩

/-- mappages of a page that is not mapped never panics. -/
theorem mappages_returns (ph : Phys) (pa : Nat) (perm : Perm) (hw : pt.Wf)
    (hva : va < maxVa) (hmod : va % pgSize = 0) (hnone : pt.leaf (va / pgSize) = none) :
    ∃ b pt' ph', mappages pt ph va pgSize pa perm = .ok (b, pt', ph') := by
  rw [mappages_one (lt_two_pow_of_maxVa hva) hmod]
  obtain ⟨o, pt1, ph1, hwalk⟩ := walkAlloc_returns pt ph hva
  obtain ⟨_, hg, ho⟩ := walkAlloc_spec hw hwalk
  rw [hwalk, ok_bind]
  rcases ho with rfl | ⟨rfl, _⟩
  · exact ⟨_, _, _, rfl⟩
  have hno : ¬ (pt1.leaf (va / pgSize)).isSome = true := by
    rw [hg.leaf, hnone]
    exact Bool.false_ne_true
  simp only [if_neg hno]
  exact ⟨_, _, _, rfl⟩

theorem faultMap_returns {ip : Option Nat} {off : Nat} (pa : Nat) (hw : pt.Wf)
    (hva : va < maxVa) (hmod : va % pgSize = 0) (hnone : pt.leaf (va / pgSize) = none)
    (hpages : ∀ x, 0 < g.shared.pages x → g.phys.isPage x) :
    ∃ s, faultMap pt g v va ip off pa = .ok s := by
  obtain ⟨b, pt1, ph1, hmap⟩ := mappages_returns g.phys pa v.perm hw hva hmod hnone
  simp only [faultMap, walkValid_eq hw hva, hnone, ok_bind, hmap]
  cases b with
  | true => exact ⟨_, rfl⟩
  | false =>
    have hkend := (mappages_keeps _ hmap).kend
    obtain ⟨⟨t, ph2⟩, hd⟩ : ∃ s, sharedDecref g.shared ph1 ip off = .ok s :=
      sharedDecref_total ip off fun x hx =>
        (Phys.isPage_congr hkend x).mpr (hpages x hx)
    simp only [Bool.false_eq_true, if_false, Glob.sharedDecref, hd, ok_bind, pure_eq]
    exact ⟨_, rfl⟩

/-- The file of the mapping has an inode that ilock accepts. -/
def Glob.Readable (g : Glob) (v : Vma) : Prop := ∃ ip, g.vmaIp v = some ip ∧ g.Lockable ip

theorem fillPage_returns (off : Nat) (h : g.Readable v) :
    ∃ s, fillPage g (g.vmaIp v) off = .ok s := by
  obtain ⟨ip, hip, hlock⟩ := h
  rw [hip]
  by_cases hmem : 0 < g.phys.freelist.length
  · obtain ⟨mem, g', hfill, _⟩ := fillPage_total off hlock hmem
    exact ⟨_, hfill⟩
  · have hnil : g.phys.freelist = [] := List.length_eq_zero_iff.mp (by omega)
    simp only [fillPage, kalloc, hnil]
    exact ⟨_, rfl⟩

theorem lazyShared_returns (hw : pt.Wf) (hva : va < maxVa)
    (hmod : va % pgSize = 0) (hnone : pt.leaf (va / pgSize) = none)
    (hpages : ∀ x, 0 < g.shared.pages x → g.phys.isPage x)
    (hfree : ∀ x, x ∈ g.phys.freelist → g.phys.isPage x)
    (hfile : g.Readable v) : ∃ s, lazyShared pt g v va = .ok s := by
  simp only [lazyShared, faultLookup]
  cases hl : g.shared.lookup (g.vmaIp v) (v.fileOff va) with
  | some e =>
    refine faultMap_returns e.pa hw hva hmod hnone fun x hx => ?_
    rw [incref_pages] at hx
    exact hpages x hx
  | none =>
    obtain ⟨⟨o, g₁⟩, hfill⟩ := fillPage_returns (v.fileOff va) hfile
    obtain ⟨hsh, htake, _, hpage⟩ := fillPage_spec hfill
    simp only [hfill, ok_bind]
    cases o with
    | none => exact ⟨_, rfl⟩
    | some mem =>
      have hl1 : g₁.shared.lookup (g.vmaIp v) (v.fileOff va) = none := by
        rw [hsh]
        exact hl
      have hmem : g₁.phys.isPage mem :=
        (Phys.isPage_congr htake.kend mem).mpr (hfree mem (hpage mem rfl).1)
      cases halloc : kalloc g₁.phys with
      | mk o ph =>
        cases o with
        | none =>
          obtain ⟨rfl, _⟩ := kalloc_none halloc
          obtain ⟨ph', hk⟩ := kfree_total hmem
          simp only [faultInsert, sharedGetOrCreate, hl1, halloc, hk, ok_bind, pure_eq]
          exact ⟨_, rfl⟩
        | some self =>
          obtain ⟨hlist, htake2⟩ := kalloc_some halloc
          simp only [faultInsert, sharedGetOrCreate, hl1, halloc, ok_bind]
          refine faultMap_returns mem hw hva hmod hnone fun x hx => ?_
          -- the new entry's two pages come from the free list
          have hx' : 0 < (g₁.shared.insert ⟨g.vmaIp v, v.fileOff va, mem, 1, self⟩).pages x := hx
          rw [insert_pages, hsh] at hx'
          refine (Phys.isPage_congr (htake2.kend.trans htake.kend) x).mpr ?_
          by_cases hold : 0 < g.shared.pages x
          · exact hpages x hold
          obtain ⟨l, hl⟩ := htake.suffix
          have hin : x ∈ g.phys.freelist := by
            have hpos : 0 < SharedEntry.pages ⟨g.vmaIp v, v.fileOff va, mem, 1, self⟩ x := by omega
            simp only [SharedEntry.pages, points_some] at hpos
            by_cases hm : mem = x
            · exact hm ▸ (hpage mem rfl).1
            rw [if_neg hm] at hpos
            have hself : self = x := by
              by_contra hne
              rw [if_neg hne] at hpos
              omega
            rw [hl, hlist, hself]
            exact List.mem_append_right l List.mem_cons_self
          exact hfree x hin

theorem lazyPrivate_returns (hw : pt.Wf) (hva : va < maxVa)
    (hmod : va % pgSize = 0) (hnone : pt.leaf (va / pgSize) = none)
    (hfree : ∀ x, x ∈ g.phys.freelist → g.phys.isPage x) (hfile : v.file = none ∨ g.Readable v) :
    ∃ s, lazyPrivate pt g v va = .ok s := by
  obtain ⟨⟨o, g₁⟩, hpage⟩ : ∃ s, privatePage g v va = .ok s := by
    simp only [privatePage]
    split
    · next f hf =>
      rcases hfile with hno | hread
      · rw [hf] at hno
        cases hno
      · exact fillPage_returns _ hread
    · split
      · exact ⟨_, rfl⟩
      · exact ⟨_, rfl⟩
  obtain ⟨_, htake, hcount⟩ := privatePage_spec hpage
  simp only [lazyPrivate, hpage, ok_bind]
  cases o with
  | none => exact ⟨_, rfl⟩
  | some mem =>
    obtain ⟨b, pt1, ph1, hmap⟩ := mappages_returns g₁.phys mem v.perm hw hva hmod hnone
    simp only [walkValid_eq hw hva, hnone, ok_bind, hmap]
    cases b with
    | true => exact ⟨_, rfl⟩
    | false =>
      have hin : mem ∈ g.phys.freelist := by
        have := hcount mem
        rw [points_some, if_pos rfl] at this
        exact List.count_pos_iff.mp (by omega)
      obtain ⟨ph2, hk⟩ := kfree_total ((Phys.isPage_congr
        ((mappages_keeps _ hmap).kend.trans htake.kend) mem).mpr (hfree mem hin))
      simp only [Bool.false_eq_true, if_false, hk, ok_bind, pure_eq]
      exact ⟨_, rfl⟩

theorem lazyMmap_returns {p : Proc} {i : Nat} (read : Bool)
    (h : FaultReady p g) (hat : vmaAt p va = some i) (hva : va < maxVa)
    (hfile : (p.vma i).file = none ∨ g.Readable (p.vma i)) :
    ∃ r p' g', lazyMmap p g va read = .ok (r, p', g') := by
  have hround := (pgRoundDown_le va).trans_lt hva
  have hmod := pgRoundDown_mod va
  simp only [lazyMmap, hat, walkValid_entry hround, ok_bind]
  cases hent : p.pagetable.entry (pgRoundDown va / pgSize) with
  | some e => exact ⟨_, _, _, rfl⟩
  | none =>
    have hleaf : p.pagetable.leaf (pgRoundDown va / pgSize) = none := by
      rw [← h.table.entry_eq]
      exact hent
    dsimp only
    split
    · obtain ⟨⟨r, pt, g'⟩, hrun⟩ : ∃ s, (if (p.vma i).isShared = true
          then lazyShared p.pagetable g (p.vma i) (pgRoundDown va)
          else lazyPrivate p.pagetable g (p.vma i) (pgRoundDown va)) = .ok s := by
        split
        · next hs =>
          refine lazyShared_returns h.table hround hmod hleaf
            (fun x hx => (h.pages x hx).1) h.freePages (hfile.resolve_left ?_)
          intro hno
          rw [Vma.isShared, hno] at hs
          simp at hs
        · exact lazyPrivate_returns h.table hround hmod hleaf h.freePages hfile
      rw [hrun]
      exact ⟨_, _, _, rfl⟩
    · exact ⟨_, _, _, rfl⟩

end

-- == all or nothing

/-- lazy_mmap returns when the mapping's file has an inode (or there is no
file). If it returns 0, no PTE, registry entry or reference count has
changed, and the pages that are no longer free are tables. If it returns an
address and the page was not mapped, its PTE alone has become valid, for
the registered page or one with the bytes of the file, exactly if the
position of the page fits the `uint` that readi takes, or the cut position
has nothing to read. -/
theorem lazy_mmap_all_or_nothing_iff {p : Proc} {g : Glob} {va i : Nat}
    (read : Bool) (h : FaultReady p g) (hat : vmaAt p va = some i)
    (hsize : ∀ ip, g.vmaIp (p.vma i) = some ip →
      (g.dinode ip).size ≤ maxFile * bsize) :
    (va < maxVa → (p.vma i).file = none ∨ g.Readable (p.vma i) →
      ∃ r p' g', lazyMmap p g va read = .ok (r, p', g')) ∧
    ∀ r p' g', lazyMmap p g va read = .ok (r, p', g') →
      (r = 0 → FaultUndone p.pagetable g p'.pagetable g') ∧
      (p.pagetable.entry (va / pgSize) = none → r ≠ 0 →
        (FaultMapped p g (p.vma i) va r p' g' ↔
          g.FitsUint (p.vma i) va)) :=
  ⟨lazyMmap_returns read h hat, fun _ _ _ hrun =>
    lazyMmap_outcome h hat hsize hrun⟩

/-- A process with one shared page of file 0 mapped and no table. -/
def onePageProc : Proc :=
  { bootProc 2 0x87010000 with
    pagetable := .empty 0x87010000
    vma := fun i => if i = 0 then
      ⟨mmapBase, mmapBase + pgSize, true, 4096, 3, 1, 0, some 0, 0⟩ else .zero }

/-- The state after boot with `n` free pages. -/
def fewPages (n : Nat) : Glob :=
  { bootGlob with
    phys := { bootGlob.phys with
      freelist := (List.range n).map fun i => 0x87f00000 + i * 4096 } }

theorem fewPages_ready {n : Nat} (hn : n ≤ 4) : FaultReady onePageProc (fewPages n) := by
  have hfree : ∀ x, x ∈ (fewPages n).phys.freelist → ∃ i, i < 4 ∧ x = 0x87f00000 + i * 4096 := by
    intro x hx
    obtain ⟨i, hi, rfl⟩ := List.mem_map.mp hx
    rw [List.mem_range] at hi
    exact ⟨i, by omega, rfl⟩
  refine ⟨wf_empty _, ⟨fun _ => List.nodup_nil, ?_⟩, ⟨?_, ?_, ?_⟩, ?_, ?_⟩
  · intro ip off e he
    cases he
  · refine List.Nodup.map (fun a b hab => ?_) List.nodup_range
    omega
  · intro x hx
    obtain ⟨i, hi, rfl⟩ := hfree x hx
    unfold pgSize
    omega
  · intro h0
    obtain ⟨i, hi, heq⟩ := hfree 0 h0
    omega
  · intro x hx
    have hzero : (fewPages n).shared.pages x = 0 := by
      exact sum_zero fun _ _ => rfl
    omega
  intro x hx
  obtain ⟨i, hi, rfl⟩ := hfree x hx
  show _ ∧ 0x80030000 ≤ _ ∧ _ < physTop
  unfold pgSize physTop
  omega

/-- With one free page the registry entry finds none, and the page goes
back; with four the page is mapped. -/
theorem lazy_mmap_one_page :
    (∃ p' g', lazyMmap onePageProc (fewPages 1) mmapBase true
        = .ok (0, p', g') ∧
      FaultUndone onePageProc.pagetable (fewPages 1) p'.pagetable g') ∧
    ∃ r p' g', lazyMmap onePageProc (fewPages 4) mmapBase true
        = .ok (r, p', g') ∧
      FaultMapped onePageProc (fewPages 4) (onePageProc.vma 0) mmapBase r
        p' g' := by
  have hat : vmaAt onePageProc mmapBase = some 0 := rfl
  have hsize : ∀ n ip, (fewPages n).vmaIp (onePageProc.vma 0) = some ip →
      ((fewPages n).dinode ip).size ≤ maxFile * bsize := by
    intro n ip hip
    cases hip
    exact (by decide : (bootGlob.dinode 0).size ≤ maxFile * bsize)
  have hone := (lazy_mmap_all_or_nothing_iff true
    (fewPages_ready (n := 1) (by decide)) hat (hsize 1)).2
  have hfour := (lazy_mmap_all_or_nothing_iff true
    (fewPages_ready (n := 4) (by decide)) hat (hsize 4)).2
  exact ⟨⟨_, _, rfl, (hone _ _ _ rfl).1 rfl⟩,
    ⟨_, _, _, rfl, ((hfour _ _ _ rfl).2 rfl (by decide)).mpr
      fun _ _ _ => .inl (by decide)⟩⟩

set_option maxRecDepth 10000 in
/-- One page of a file of 8192 bytes is mapped, and two calls of munmap with
a negative length move the end of the mapping to 0x140001000. lazy_mmap of
0x140000000, position 2^32 of the file, maps a page with the bytes from
position 0. -/
theorem lazy_mmap_cut_position : ∃ k,
    Runs (fun _ _ _ => True) bootKernel k ∧ ∃ r p' g',
      vmaAt (k.proc 1) 0x140000000 = some 0
      ∧ (k.proc 1).vma 0 = ⟨0x40000000, 0x140001000, true, 4096, 3, 1, 0,
          some 0, 0⟩
      ∧ (k.glob.dinode 0).size = 8192
      ∧ (k.proc 1).pagetable.entry (0x140000000 / pgSize) = none
      ∧ lazyMmap (k.proc 1) k.glob 0x140000000 true = .ok (r, p', g')
      ∧ r ≠ 0 ∧ g'.phys.mem r = 2
      ∧ ¬ FaultMapped (k.proc 1) k.glob ((k.proc 1).vma 0) 0x140000000 r
        p' g' := by
  have hr₁ : Runs (fun _ _ _ => True) bootKernel _ :=
    Runs.step .refl 1 (.mmap 0 4096 3 1 0 0) (by decide) rfl trivial rfl
  have hr₂ := hr₁.step 1 (.munmap 0xc0001000 (-0x80000000)) (by decide) rfl
    trivial rfl
  have hr := hr₂.step 1 (.munmap 0x140001000 (-0x80000000)) (by decide) rfl
    trivial rfl
  refine ⟨_, hr, _, _, _, rfl, rfl, rfl, rfl, rfl, by decide, rfl, ?_⟩
  intro hm
  have hbyte := hm.file rfl 0 rfl 0 (by decide)
  cases hbyte

end Xv6Labs.Model
