/-
What the calls leave alone, said once per function, so that an invariant
over runs only argues about the calls that matter to it.

- `OnlyTable p p'`: the process is as before up to its page table.
- `Quiet g g'`: files, disk and pipes are as before, the inode table up to
  the `valid` flags that ilock sets, and RAM is where it was.
-/
import Xv6Labs.Model.Step
import Xv6Labs.Proofs.Phys

namespace Xv6Labs.Model

open Lib

variable {p : Proc} {g g' : Glob} {pt : PageTable} {ph : Phys} {v : Vma}
  {ip : Option Nat} {va off pa n : Nat} {read : Bool}

variable {dstva len newsz oldsz sz : Nat} {perm : Perm} {src : Nat → UInt8}

-- == the two frames

/-- The process is as before, up to its page table. -/
def OnlyTable (p p' : Proc) : Prop := ∃ pt, p' = { p with pagetable := pt }

theorem OnlyTable.refl (p : Proc) : OnlyTable p p := ⟨p.pagetable, rfl⟩

theorem OnlyTable.trans {p' p'' : Proc} (h : OnlyTable p p')
    (h' : OnlyTable p' p'') : OnlyTable p p'' := by
  obtain ⟨pt, rfl⟩ := h
  obtain ⟨pt', rfl⟩ := h'
  exact ⟨pt', rfl⟩

/-- Files, disk and pipes are as before, and every inode table slot holds
what it held. -/
structure Quiet (g g' : Glob) : Prop where
  keeps : g.phys.Keeps g'.phys
  ftable : g'.ftable = g.ftable
  disk : g'.disk = g.disk
  ninodes : g'.ninodes = g.ninodes
  pipes : g'.pipes = g.pipes
  dev : ∀ i, (g'.itable i).dev = (g.itable i).dev
  inum : ∀ i, (g'.itable i).inum = (g.itable i).inum
  ref : ∀ i, (g'.itable i).ref = (g.itable i).ref

/-- The free list, memory and the registry are outside the frame. -/
theorem Quiet.memory (phys : Phys) (shared : SharedTab)
    (h : g.phys.Keeps phys) : Quiet g { g with phys, shared } :=
  ⟨h, rfl, rfl, rfl, rfl, fun _ => rfl, fun _ => rfl, fun _ => rfl⟩

theorem Quiet.refl (g : Glob) : Quiet g g := .memory _ _ (.refl _)

theorem Quiet.trans {g'' : Glob} (h : Quiet g g') (h' : Quiet g' g'') : Quiet g g'' where
  keeps := h.keeps.trans h'.keeps
  ftable := h'.ftable.trans h.ftable
  disk := h'.disk.trans h.disk
  ninodes := h'.ninodes.trans h.ninodes
  pipes := h'.pipes.trans h.pipes
  dev i := (h'.dev i).trans (h.dev i)
  inum i := (h'.inum i).trans (h.inum i)
  ref i := (h'.ref i).trans (h.ref i)

theorem Quiet.phys (h : Quiet g g') (hk : g'.phys.Keeps ph) : Quiet g { g' with phys := ph } :=
  h.trans (.memory _ _ hk)

-- == RAM stays put

/-- What a walk that allocates does to RAM: nothing, or it fills new tables
with zeros. -/
theorem walkAlloc_phys {R : Phys → Phys → Prop} (hrefl : ∀ ph, R ph ph)
    (htrans : ∀ {a b c}, R a b → R b c → R a c)
    (hzero : ∀ {ph r ph'}, kalloc ph = (some r, ph') → R ph (ph'.zero r)) :
    Ensures (walkAlloc pt ph va) fun r => R ph r.2.2 := by
  have hmid : ∀ {pt' ph'}, walkMid pt ph va = some (pt', ph') → R ph ph' := by
    intro pt' ph' h
    simp only [walkMid] at h
    split at h
    · cases h
      exact hrefl ph
    split at h
    · cases h
    · next halloc =>
      cases h
      exact hzero halloc
  have hlow : ∀ {pt1 ph1 pt' ph'}, walkLow pt1 ph1 va = some (pt', ph') → R ph1 ph' := by
    intro pt1 ph1 pt' ph' h
    simp only [walkLow] at h
    split at h
    · cases h
      exact hrefl ph1
    split at h
    · cases h
    · next halloc =>
      cases h
      exact hzero halloc
  refine .branch .error ?_
  split
  · exact .ok (hrefl ph)
  · next hm =>
    split
    · exact .ok (hmid hm)
    · next hl => exact .ok (htrans (hmid hm) (hlow hl))

theorem walkAlloc_keeps : Ensures (walkAlloc pt ph va) fun r => ph.Keeps r.2.2 :=
  walkAlloc_phys .refl .trans kalloc_zero_keeps

theorem mappages_keeps {size : Nat} :
    Ensures (mappages pt ph va size pa perm) fun r =>
      ph.Keeps r.2.2 := by
  refine .branch .error (.branch .error (.branch .error ?_))
  refine Ensures.bind (.forRet (fun _ (t : PageTable × Phys) =>
    ph.Keeps t.2) (fun t => ph.Keeps t.2) (.refl ph) ?_) ?_
  · intro k _ t hk
    refine walkAlloc_keeps.bind ?_
    rintro ⟨o, pt1, ph1⟩ hw
    cases o with
    | none => exact .ok (hk.trans hw)
    | some m => exact .branch .error (.ok (hk.trans hw))
  · rintro (t | t) hk
    · exact .ok hk
    · exact .ok hk

theorem uvmunmap_keeps {f : Bool} : Ensures (uvmunmap pt ph va n f) fun r => ph.Keeps r.2 := by
  refine .branch .error (.forUpto (fun _ (t : PageTable × Phys) =>
    ph.Keeps t.2) (.refl ph) fun k _ t hk => .any fun o => ?_)
  cases o with
  | none => exact .ok hk
  | some a =>
    dsimp only
    split
    · exact .ok hk
    · cases f with
      | false => exact .ok hk
      | true =>
        exact kfree_keeps.bind fun _ hq => .ok (hk.trans hq)

theorem sharedDecref_keeps {t : SharedTab} :
    Ensures (sharedDecref t ph ip off) fun r => ph.Keeps r.2 := by
  unfold sharedDecref
  split
  · exact .ok (.refl ph)
  · exact .branch (kfree_keeps.bind fun _ h1 => kfree_keeps.bind fun _ h2 =>
      .ok (h1.trans h2)) (.ok (.refl ph))

theorem sharedGetOrCreate_keeps (t : SharedTab) (ph : Phys) (ip : Option Nat) (off pa : Nat) :
    ph.Keeps (sharedGetOrCreate t ph ip off pa).2.2 := by
  unfold sharedGetOrCreate
  split
  · exact .refl ph
  · split
    · next halloc => exact kalloc_keeps halloc
    · next halloc => exact kalloc_keeps halloc

-- == address spaces come and go

theorem freewalk_keeps : Ensures (freewalk pt ph) ph.Keeps := by
  refine Ensures.bind (.forUpto (fun _ => ph.Keeps) (.refl ph) ?_)
    fun _ h => kfree_keeps.mono fun _ hk => h.trans hk
  intro i _ q hq
  unfold freewalkTurn
  split
  · exact .ok hq
  refine Ensures.bind (.forUpto (fun _ => ph.Keeps) hq ?_)
    fun _ h => kfree_keeps.mono fun _ hk => h.trans hk
  intro j _ r hr
  unfold freewalkMidTurn
  split
  · exact .ok hr
  · exact .any fun _ => kfree_keeps.mono fun _ hk => hr.trans hk

theorem uvmfree_keeps : Ensures (uvmfree pt ph sz) ph.Keeps := by
  refine Ensures.bind (.branch uvmunmap_keeps (.ok (.refl ph))) ?_
  exact fun _ h => freewalk_keeps.mono fun _ hk => h.trans hk

theorem procFreepagetable_keeps : Ensures (procFreepagetable pt ph sz) ph.Keeps :=
  uvmunmap_keeps.bind fun _ h1 => uvmunmap_keeps.bind fun _ h2 =>
    uvmfree_keeps.mono fun _ h3 => h1.trans (h2.trans h3)

theorem freeproc_keeps : Ensures (freeproc p ph) fun r => ph.Keeps r.2 := by
  refine Ensures.bind (.branch (.ok (.refl ph)) kfree_keeps) fun q hq => ?_
  refine Ensures.bind (.branch (.ok hq) (procFreepagetable_keeps.mono fun _ h => hq.trans h)) ?_
  exact fun _ h => .ok h

theorem procPagetable_keeps {tf : Nat} : Ensures (procPagetable ph tf) fun r => ph.Keeps r.2 := by
  unfold procPagetable uvmcreate
  cases ha : kalloc ph with
  | mk o ph1 =>
    cases o with
    | none => exact .ok (kalloc_keeps ha)
    | some r =>
      have h1 := kalloc_zero_keeps ha
      refine mappages_keeps.bind ?_
      rintro ⟨ok, pt2, ph2⟩ h2
      have h2 := h1.trans h2
      refine .branch (mappages_keeps.bind ?_) (uvmfree_keeps.bind fun _ h => .ok (h2.trans h))
      rintro ⟨ok, pt3, ph3⟩ h3
      have h3 := h2.trans h3
      exact .branch (.ok h3) (uvmunmap_keeps.bind fun _ h4 =>
        uvmfree_keeps.bind fun _ h5 => .ok (h3.trans (h4.trans h5)))

theorem uvmdealloc_keeps : Ensures (uvmdealloc pt ph oldsz newsz) fun r => ph.Keeps r.2.2 :=
  .branch (.ok (.refl ph)) (.branch (uvmunmap_keeps.bind fun _ h => .ok h) (.ok (.refl ph)))

theorem uvmalloc_keeps : Ensures (uvmalloc pt ph oldsz newsz perm) fun r => ph.Keeps r.2.2 := by
  refine .branch (.ok (.refl ph)) (Ensures.bind (.forRet
    (fun _ (t : PageTable × Phys) => ph.Keeps t.2) (fun t => ph.Keeps t.2) (.refl ph) ?_) ?_)
  · rintro k - ⟨pt1, ph1⟩ hk
    unfold allocPage
    cases ha : kalloc ph1 with
    | mk o ph2 =>
      cases o with
      | none =>
        have h2 := hk.trans (kalloc_keeps ha)
        exact uvmdealloc_keeps.bind fun _ h => .ok (h2.trans h)
      | some mem =>
        refine mappages_keeps.bind ?_
        rintro ⟨ok, pt3, ph3⟩ h3
        have h3 := hk.trans ((kalloc_zero_keeps ha).trans h3)
        exact .branch (.ok h3) (kfree_keeps.bind fun _ h4 =>
          uvmdealloc_keeps.bind fun _ h5 => .ok (h3.trans (h4.trans h5)))
  · rintro (t | t) hk
    · exact .ok hk
    · exact .ok hk

theorem uvmcopy_keeps {new : PageTable} :
    Ensures (uvmcopy pt new ph sz) fun r => ph.Keeps r.2.2 := by
  refine Ensures.bind (.forRet (fun _ (t : PageTable × Phys) =>
    ph.Keeps t.2) (fun t => ph.Keeps t.2.2) (.refl ph) ?_) ?_
  · rintro k - ⟨pt1, ph1⟩ hk
    refine .any fun o => ?_
    cases o with
    | none => exact .ok hk
    | some e =>
      cases ha : kalloc ph1 with
      | mk o ph2 =>
        cases o with
        | none => exact .ok (hk.trans (kalloc_keeps ha))
        | some mem =>
          have h2 : ph.Keeps
              { ph2 with mem := memmove ph2.mem mem e.pa pgSize } :=
            (hk.trans (kalloc_keeps ha)).trans ⟨rfl, fun _ h => .inl h⟩
          refine mappages_keeps.bind ?_
          rintro ⟨ok, pt3, ph3⟩ h3
          have h3 := h2.trans h3
          exact .branch (.ok h3) (kfree_keeps.bind fun _ h4 =>
            .ok (h3.trans h4))
  · rintro (t | t) hk
    · exact .ok hk
    · exact uvmunmap_keeps.bind fun _ h => .ok (hk.trans h)

-- == inodes

theorem ilock_quiet {ip : Nat} : Ensures (ilock g ip) (Quiet g) := by
  refine .branch .error (.branch (.ok (.refl g)) (.branch .error
    (.ok ⟨.refl _, rfl, rfl, rfl, rfl, ?_, ?_, ?_⟩)))
  all_goals
    intro i
    simp only [Glob.setInode]
    split
    · next h => exact h ▸ rfl
    · rfl

theorem readi_quiet (g : Glob) (ip dst off n : Nat) : Quiet g (readi g ip dst off n).2 := by
  exact .memory _ _ ⟨rfl, fun _ h => .inl h⟩

theorem sharedDecref_quiet : Ensures (g.sharedDecref ip off) (Quiet g) :=
  sharedDecref_keeps.bind fun _ hk => .ok (.memory _ _ hk)

-- == faults

theorem fillPage_quiet : Ensures (fillPage g ip off) fun r => Quiet g r.2 := by
  unfold fillPage
  split
  · next halloc => exact .ok (.memory _ _ (kalloc_keeps halloc))
  · next mem ph halloc =>
    have hq : Quiet g { g with phys := ph.zero mem } := .memory _ _ (kalloc_zero_keeps halloc)
    cases ip with
    | none => exact .error
    | some ip =>
      exact ilock_quiet.bind fun g1 h1 =>
        .ok (hq.trans (h1.trans (readi_quiet ..)))

theorem faultLookup_quiet (g : Glob) (ip : Option Nat) (off : Nat) :
    Quiet g (faultLookup g ip off).2 := by
  simp only [faultLookup]
  split
  · exact .refl g
  · exact .memory _ _ (.refl _)

theorem faultInsert_quiet {mem : Nat} :
    Ensures (faultInsert g ip off mem) fun r => Quiet g r.2 := by
  have hk := sharedGetOrCreate_keeps g.shared g.phys ip off mem
  unfold faultInsert
  split
  · next hget => exact .ok (.memory _ _ (by rw [hget] at hk; exact hk))
  · next hget =>
    rw [hget] at hk
    exact kfree_keeps.bind fun ph hf =>
      .ok (.memory _ _ (hk.trans hf))

theorem faultMap_quiet : Ensures (faultMap pt g v va ip off pa) fun r => Quiet g r.2.2 := by
  refine .any fun o => ?_
  cases o with
  | some e => exact sharedDecref_quiet.bind fun _ hq => .ok hq
  | none =>
    refine mappages_keeps.bind ?_
    rintro ⟨ok, pt1, ph⟩ hk
    have hq : Quiet g { g with phys := ph } := .memory _ _ hk
    cases ok with
    | true => exact .ok hq
    | false => exact sharedDecref_quiet.bind fun _ h => .ok (hq.trans h)

theorem lazyShared_quiet : Ensures (lazyShared pt g v va) fun r => Quiet g r.2.2 := by
  have hl := faultLookup_quiet g (g.vmaIp v) (v.fileOff va)
  unfold lazyShared
  dsimp only
  split
  · next heq =>
    rw [heq] at hl
    exact faultMap_quiet.mono fun _ hq => hl.trans hq
  · next heq =>
    rw [heq] at hl
    refine fillPage_quiet.bind ?_
    rintro ⟨o, g2⟩ hq2
    cases o with
    | none => exact .ok (hl.trans hq2)
    | some mem =>
      refine faultInsert_quiet.bind ?_
      rintro ⟨o, g3⟩ hq3
      have hq := (hl.trans hq2).trans hq3
      cases o with
      | none => exact .ok hq
      | some e => exact faultMap_quiet.mono fun _ h => hq.trans h

theorem privatePage_quiet : Ensures (privatePage g v va) fun r => Quiet g r.2 := by
  unfold privatePage
  split
  · exact fillPage_quiet
  · split
    · next halloc => exact .ok (.memory _ _ (kalloc_keeps halloc))
    · next halloc => exact .ok (.memory _ _ (kalloc_zero_keeps halloc))

theorem lazyPrivate_quiet : Ensures (lazyPrivate pt g v va) fun r => Quiet g r.2.2 := by
  refine privatePage_quiet.bind ?_
  rintro ⟨o, g1⟩ hq
  cases o with
  | none => exact .ok hq
  | some mem =>
    refine .any fun o => ?_
    cases o with
    | some e =>
      exact kfree_keeps.bind fun _ h => .ok (hq.phys h)
    | none =>
      refine mappages_keeps.bind ?_
      rintro ⟨ok, pt1, ph⟩ hk
      cases ok with
      | true => exact .ok (hq.phys hk)
      | false =>
        exact kfree_keeps.bind fun _ h =>
          .ok (hq.phys (hk.trans h))

/-- A page fault changes the page table, the registry and the free list,
and nothing else. -/
def Faulted (p : Proc) (g : Glob) {α : Type} (r : α × Proc × Glob) : Prop :=
  OnlyTable p r.2.1 ∧ Quiet g r.2.2

theorem lazyMmap_frame : Ensures (lazyMmap p g va read) (Faulted p g) := by
  unfold lazyMmap
  split
  · exact .ok ⟨.refl p, .refl g⟩
  refine .any fun o => ?_
  cases o with
  | some e => exact .ok ⟨.refl p, .refl g⟩
  | none =>
    refine .branch ?_ (.ok ⟨.refl p, .refl g⟩)
    exact Ensures.bind (.branch lazyShared_quiet lazyPrivate_quiet)
      fun r hq => .ok ⟨⟨r.2.1, rfl⟩, hq⟩

theorem vmfault_frame : Ensures (vmfault p g va read) (Faulted p g) := by
  refine .branch lazyMmap_frame (.branch (.ok ⟨.refl p, .refl g⟩)
    (.any fun b => .branch (.ok ⟨.refl p, .refl g⟩) ?_))
  split
  · next halloc => exact .ok ⟨.refl p, .memory _ _ (kalloc_keeps halloc)⟩
  · next halloc =>
    refine mappages_keeps.bind ?_
    rintro ⟨ok, pt, ph⟩ h
    have hk := (kalloc_zero_keeps halloc).trans h
    cases ok with
    | true => exact .ok ⟨⟨pt, rfl⟩, .memory _ _ hk⟩
    | false =>
      exact kfree_keeps.bind fun ph' hf =>
        .ok ⟨⟨pt, rfl⟩, .memory _ _ (hk.trans hf)⟩

-- == user accesses and copyout

theorem userAccess_frame : Ensures (userAccess p g va read) (Faulted p g) := by
  unfold userAccess
  split
  · exact .ok ⟨.refl p, .refl g⟩
  refine vmfault_frame.bind ?_
  rintro ⟨r, p1, g1⟩ hf
  refine .branch (.ok hf) ?_
  split
  · exact .ok hf
  · exact .ok hf

theorem userStore_frame {b : UInt8} : Ensures (userStore p g va b) (Faulted p g) := by
  refine userAccess_frame.bind ?_
  rintro ⟨o, p1, g1⟩ hf
  cases o with
  | none => exact .ok hf
  | some a => exact .ok ⟨hf.1, hf.2.phys ⟨rfl, fun _ h => .inl h⟩⟩

theorem copyoutPage_frame
    {s : Nat × Proc × Glob} :
    Ensures (copyoutPage dstva src len n s) (Sum.elim (Faulted s.2.1 s.2.2)
      fun t => OnlyTable s.2.1 t.1 ∧ Quiet s.2.2 t.2) := by
  obtain ⟨d, p, g⟩ := s
  refine .branch (.ok ⟨.refl p, .refl g⟩) (.any fun pa => ?_)
  have hpage : Ensures (if pa = 0 then
        vmfault p g (pgRoundDown (u64 (dstva + d))) false
      else pure (pa, p, g)) (Faulted p g) :=
    .branch vmfault_frame (.ok ⟨.refl p, .refl g⟩)
  refine hpage.bind ?_
  rintro ⟨pa', p1, g1⟩ hf
  refine .branch (.ok hf) (.any fun o => ?_)
  cases o with
  | none => exact .error
  | some m => exact .branch (.ok ⟨hf.1, hf.2.phys ⟨rfl, fun _ h => .inl h⟩⟩) (.ok hf)

theorem copyout_frame : Ensures (copyout p g dstva src len) (Faulted p g) := by
  refine Ensures.bind (.forRet (fun _ => Faulted p g)
    (fun t => OnlyTable p t.1 ∧ Quiet g t.2) ⟨.refl p, .refl g⟩ ?_) ?_
  · intro k _ t hP
    refine copyoutPage_frame.mono ?_
    rintro (t' | t') hf
    · exact ⟨hP.1.trans hf.1, hP.2.trans hf.2⟩
    · exact ⟨hP.1.trans hf.1, hP.2.trans hf.2⟩
  · rintro (t | t) hP
    · exact .ok hP
    · exact .ok hP

end Xv6Labs.Model
