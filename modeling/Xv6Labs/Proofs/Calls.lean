/-
Calls that leave mappings and open files alone: `sys_sbrk` and `kexec`,
which keeps the descriptors of the process and, the defect of the source,
its mappings.
-/
import Xv6Labs.Proofs.Inodes

namespace Xv6Labs.Model

open Lib

variable {p : Proc} {g g' : Glob} {pt : PageTable} {ip n sz : Nat}
  {argv : List (List UInt8)} {path : List UInt8}
variable {phoff sp stackbase : Nat} {s : Nat × PageTable × Glob}

/-- The size, the page table and the free list changed. -/
def Grown (p : Proc) (g : Glob) {α : Type} (r : α × Proc × Glob) : Prop :=
  (∃ pagetable sz, r.2.1 = { p with pagetable, sz })
    ∧ ∃ phys, g.phys.Keeps phys ∧ r.2.2 = { g with phys }

theorem Grown.refl {α : Type} {a : α} : Grown p g (a, p, g) :=
  ⟨⟨p.pagetable, p.sz, rfl⟩, g.phys, .refl _, rfl⟩

theorem sysSbrk_frame {n : Int} {eager : Bool} : Ensures (sysSbrk p g n eager) (Grown p g) := by
  have hgrow : Ensures (growproc p g n) (Grown p g) := by
    refine .branch (uvmalloc_keeps.bind ?_) (.branch (uvmdealloc_keeps.bind ?_) (.ok .refl))
    · rintro ⟨sz, pt, ph⟩ hk
      exact .branch (.ok ⟨⟨pt, p.sz, rfl⟩, ph, hk, rfl⟩) (.ok ⟨⟨pt, sz, rfl⟩, ph, hk, rfl⟩)
    · rintro ⟨sz, pt, ph⟩ hk
      exact .ok ⟨⟨pt, sz, rfl⟩, ph, hk, rfl⟩
  refine .branch (hgrow.bind fun _ h => .ok h)
    (.branch (.ok .refl) (.ok ⟨⟨p.pagetable, _, rfl⟩, g.phys, .refl _, rfl⟩))

-- == kexec

/-- Files, inodes and the disk are as before; memory need not be. -/
structure Still (g g' : Glob) : Prop where
  keeps : g.phys.Keeps g'.phys
  ftable : g'.ftable = g.ftable
  disk : g'.disk = g.disk
  ninodes : g'.ninodes = g.ninodes
  dev : ∀ i, (g'.itable i).dev = (g.itable i).dev
  inum : ∀ i, (g'.itable i).inum = (g.itable i).inum
  ref : ∀ i, (g'.itable i).ref = (g.itable i).ref

theorem Still.memory {phys : Phys} (h : g.phys.Keeps phys) : Still g { g with phys } :=
  ⟨h, rfl, rfl, rfl, fun _ => rfl, fun _ => rfl, fun _ => rfl⟩

theorem Still.refl (g : Glob) : Still g g := .memory (.refl _)

theorem Still.trans {g'' : Glob} (h : Still g g') (h' : Still g' g'') : Still g g'' where
  keeps := h.keeps.trans h'.keeps
  ftable := h'.ftable.trans h.ftable
  disk := h'.disk.trans h.disk
  ninodes := h'.ninodes.trans h.ninodes
  dev i := (h'.dev i).trans (h.dev i)
  inum i := (h'.inum i).trans (h.inum i)
  ref i := (h'.ref i).trans (h.ref i)

theorem Quiet.still (h : Quiet g g') : Still g g' :=
  { h with }

theorem loadseg_still {va offset : Nat} :
    Ensures (loadseg pt g ip va offset sz) fun r => Still g r.2 := by
  refine Ensures.bind (.forRet (fun _ => Still g) (Still g) (.refl g) ?_) ?_
  · intro k _ t hq
    refine .any fun pa => .branch .error ?_
    generalize (if sz - k * pgSize < pgSize then sz - k * pgSize else pgSize) = m
    have h := hq.trans (readi_quiet t ip pa (offset + k * pgSize) m).still
    exact .branch (.ok h) (.ok h)
  · rintro (t | t) hq
    · exact .ok hq
    · exact .ok hq

theorem execSeg_still :
    Ensures (execSeg ip phoff n s) fun o =>
      Still s.2.2 (o.elim id id).2.2 := by
  obtain ⟨sz, pt, g⟩ := s
  have hno : Still g g := .refl g
  refine .branch (.ok hno) (.branch (.ok hno) (.branch (.ok hno)
    (.branch (.ok hno) (.branch (.ok hno) (uvmalloc_keeps.bind ?_)))))
  rintro ⟨sz1, pt1, ph1⟩ hk
  refine .branch (.ok (.memory hk)) (loadseg_still.bind ?_)
  rintro ⟨ok, g2⟩ h2
  have hf := (Still.memory hk).trans h2
  exact .branch (.ok hf) (.ok hf)

theorem execPush_still {len : Nat} {src : Nat → UInt8} :
    Ensures (execPush p pt g stackbase sp src len) fun r =>
      Still g r.2.2 := by
  refine .branch (.ok (.refl g)) (copyout_frame.bind ?_)
  exact fun _ hf => .ok hf.2.still

theorem execArgs_still {ustack : List Nat} :
    Ensures (execArgs p stackbase argv ustack sp pt g) fun r =>
      Still g r.2.2 := by
  induction argv generalizing ustack sp pt g with
  | nil => exact .ok (.refl _)
  | cons s rest ih =>
    refine .branch (.ok (.refl _)) (execPush_still.bind ?_)
    rintro ⟨o, pt1, g1⟩ hf
    cases o with
    | none => exact .ok hf
    | some sp1 => exact ih.mono fun _ h => hf.trans h

theorem execStack_still {entry : Nat} :
    Ensures (execStack p g pt sz entry argv) fun r => Still g r.2.2.2 := by
  refine uvmalloc_keeps.bind ?_
  rintro ⟨sz1, pt1, ph1⟩ hk
  refine .branch (.ok (.memory hk)) (.any fun pt2 =>
    execArgs_still.bind ?_)
  rintro ⟨o, pt3, g3⟩ h3
  have hf := (Still.memory hk).trans h3
  cases o with
  | none => exact .ok hf
  | some st =>
    refine .branch .error (execPush_still.bind ?_)
    rintro ⟨o, pt4, g4⟩ h4
    cases o with
    | none => exact .ok (hf.trans h4)
    | some sp => exact .ok (hf.trans h4)

theorem execSegs_still :
    Ensures (forRet (execSeg ip phoff) n s) fun o =>
      Still s.2.2 (o.elim id id).2.2 := by
  refine (Ensures.forRet (fun _ t => Still s.2.2 t.2.2)
    (fun t => Still s.2.2 t.2.2) (.refl _) ?_).mono ?_
  · intro k _ t hf
    refine execSeg_still.mono ?_
    rintro (t' | t') h
    · exact hf.trans h
    · exact hf.trans h
  · rintro (t | t) h
    · exact h
    · exact h

theorem iput_ftable (g : Glob) (i : Nat) : (iput g i).ftable = g.ftable := by
  obtain ⟨disk, valid, heq⟩ := iput_slot g i
  rw [heq]
  rfl

section

variable {H : List Nat → Glob → Prop} {e : List Nat} (hT : Tracks p.cwd H)
include hT

theorem Tracks.execBuild
    (hstill : ∀ {e g g'}, H e g → Still g g' → H e g') (h : H e g) :
    Ensures (execBuild p g path argv) fun r => H e r.2 := by
  refine (hT.namei h).bind ?_
  rintro ⟨o, g1⟩ h1
  cases o with
  | none => exact .ok h1
  | some ip =>
    refine (hT.ilock h1).bind fun g2 h2 => .branch (.ok (hT.iput h2)) (procPagetable_keeps.bind ?_)
    rintro ⟨o, ph3⟩ hk
    have h3 := hstill h2 (.memory hk)
    cases o with
    | none => exact .ok (hT.iput h3)
    | some pt =>
      refine execSegs_still.bind ?_
      rintro (⟨sz, pt4, g4⟩ | ⟨sz, pt4, g4⟩) h4
      · refine execStack_still.bind ?_
        rintro ⟨o, sz5, pt5, g5⟩ h5
        have hc5 := hstill (hT.iput (hstill h3 h4)) h5
        cases o with
        | none =>
          exact procFreepagetable_keeps.bind fun _ hk =>
            .ok (hstill hc5 (.memory hk))
        | some img => exact .ok hc5
      · exact procFreepagetable_keeps.bind fun _ hk =>
          .ok (hT.iput (hstill (hstill h3 h4) (.memory hk)))

theorem Tracks.kexec
    (hstill : ∀ {e g g'}, H e g → Still g g' → H e g') (h : H e g) :
    Ensures (kexec p g path argv) fun r => H e r.2.2 := by
  refine (hT.execBuild hstill h).bind ?_
  rintro ⟨o, g1⟩ h1
  cases o with
  | none => exact .ok h1
  | some img =>
    refine Ensures.bind (Q := fun r => H e r.2) ?_ fun _ h2 => .ok h2
    exact procFreepagetable_keeps.bind fun _ hk =>
      .ok (hstill h1 (.memory hk))

end

/-- Open files and the places of RAM are of no concern to inodes. -/
theorem files_tracks (cwd : Option Nat) (g0 : Glob) :
    Tracks cwd fun _ g => g.ftable = g0.ftable ∧ g0.phys.Keeps g.phys := by
  have hstep : ∀ {c g g'}, FsStep c g g' → g.ftable = g0.ftable ∧ g0.phys.Keeps g.phys →
      g'.ftable = g0.ftable ∧ g0.phys.Keeps g'.phys := fun h hg =>
    ⟨h.ftable.trans hg.1, h.phys ▸ hg.2⟩
  -- the references themselves are a bound, and nothing more is asked
  have hcov : ∀ g : Glob, Covers g fun ip => (g.itable ip).ref := fun _ _ => Int.le_refl _
  refine ⟨?_, ?_, ?_, ?_, fun h => h, fun h => h⟩
  · exact fun h _ hi => hstep (iget_covers (hcov _) hi).2 h
  · exact fun _ h => hstep (idup_covers (hcov _)).2 h
  · intro e g i h
    obtain ⟨disk, valid, heq⟩ := iput_slot g i
    rw [heq]
    exact h
  · exact fun h _ hl => hstep (ilock_covers (hcov _) hl).2 h

/-- kexec replaces the registers, the name, the size and the page table;
descriptors, mappings and open files stay. -/
theorem kexec_frame : Ensures (kexec p g path argv) fun r =>
    (∃ regs name pagetable sz, r.2.1 = { p with regs, name, pagetable, sz })
      ∧ r.2.2.ftable = g.ftable ∧ g.phys.Keeps r.2.2.phys := by
  rintro ⟨r, p', g'⟩ h
  refine ⟨?_, (files_tracks p.cwd g).kexec (e := [])
    (fun hg hs => ⟨hs.ftable.trans hg.1, hg.2.trans hs.keeps⟩) ⟨rfl, .refl _⟩ _ h⟩
  obtain ⟨⟨o, g1⟩, _, h⟩ := bind_ok h
  cases o with
  | none =>
    cases h
    exact ⟨p.regs, p.name, p.pagetable, p.sz, rfl⟩
  | some img =>
    obtain ⟨⟨p1, g2⟩, hc, h⟩ := bind_ok h
    obtain ⟨phys, _, hc⟩ := bind_ok hc
    cases hc
    cases h
    exact ⟨_, _, img.pagetable, img.sz, rfl⟩

end Xv6Labs.Model
