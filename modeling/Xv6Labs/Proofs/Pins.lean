/-
Who pins an inode.

`pins` counts the references of open files, with those of the current
directories as a parameter, and `Pinned` says that the count of every slot
covers them. Every call keeps it, and what is held keeps its inode.
-/
import Xv6Labs.Proofs.Sharing

namespace Xv6Labs.Model

open Lib Finset

variable {g g' : Glob} {c f i r : Nat} {fl : File} {p p' : Proc}
  {fd status : Int} {k k' : Kernel}

variable {g'' : Glob} {o : Option Nat} {np : Proc} {addr j room : Nat}
  {len : Int} {path : List UInt8} {omode : UInt32}

-- == the references

/-- One if the file is open on the inode in slot `ip`. -/
def File.holds (fl : File) (ip : Nat) : Nat :=
  if fl.type = .inode ∨ fl.type = .device then hits fl.ip ip else 0

/-- References to slot `ip`: those of open files, and `x`. -/
def Glob.pins (g : Glob) (x : Nat → Int) (ip : Nat) : Int :=
  ((∑ f ∈ range nfile, (g.ftable f).holds ip : Nat) : Int) + x ip

/-- The inode table covers the references to it, and every file that is
open is an entry of the file table and is on an inode. -/
structure Pinned (x : Nat → Int) (g : Glob) : Prop where
  covers : Covers g (g.pins x)
  typed : ∀ f, 1 ≤ (g.ftable f).ref → (g.ftable f).type = .inode ∨ (g.ftable f).type = .device
  inTable : ∀ f, 1 ≤ (g.ftable f).ref → f < nfile

/-- No slot changed its inode. -/
def SameInodes (g g' : Glob) : Prop :=
  ∀ ip, (g'.itable ip).dev = (g.itable ip).dev ∧ (g'.itable ip).inum = (g.itable ip).inum

theorem SameInodes.refl (g : Glob) : SameInodes g g := fun _ => ⟨rfl, rfl⟩

theorem SameInodes.trans (h : SameInodes g g')
    (h' : SameInodes g' g'') : SameInodes g g'' := fun ip =>
  ⟨(h' ip).1.trans (h ip).1, (h' ip).2.trans (h ip).2⟩

variable {x : Nat → Int}

theorem pins_congr (h : g'.ftable = g.ftable) : g'.pins x = g.pins x := by
  funext ip
  unfold Glob.pins
  rw [h]

theorem pins_bump (g : Glob) (i : Nat) : g.pins (bump x i) = bump (g.pins x) i := by
  funext ip
  simp only [Glob.pins, bump, Int.add_assoc]

/-- Rewriting one entry of the file table moves its references. -/
theorem pins_setFile (g : Glob) (fl : File) (hf : f < nfile) (ip : Nat) :
    (g.setFile f fl).pins x ip + (g.ftable f).holds ip = g.pins x ip + fl.holds ip := by
  have hx := sum_exchange (f := fun j => ((g.setFile f fl).ftable j).holds ip)
    (g := fun j => (g.ftable j).holds ip) hf (fun j _ hj => by simp only [Glob.setFile, if_neg hj])
  have hself : (g.setFile f fl).ftable f = fl := if_pos rfl
  rw [hself] at hx
  unfold Glob.pins
  omega

theorem holds_some (ht : fl.type = .inode ∨ fl.type = .device) (hip : fl.ip = some i) (ip : Nat) :
    fl.holds ip = if ip = i then 1 else 0 := by
  unfold File.holds hits
  rw [if_pos ht, hip]
  simp only [Option.some.injEq, eq_comm]

theorem holds_none (ht : fl.type = .none) (ip : Nat) : fl.holds ip = 0 := by
  unfold File.holds
  rw [ht]
  exact if_neg (by decide)

/-- Entries and slots as before. -/
theorem Pinned.congr (h : Pinned x g) (hf : g'.ftable = g.ftable)
    (hr : ∀ ip, (g.itable ip).ref ≤ (g'.itable ip).ref) : Pinned x g' := by
  refine ⟨fun ip => ?_, hf ▸ h.typed, hf ▸ h.inTable⟩
  rw [pins_congr hf]
  exact (h.covers ip).trans (hr ip)

theorem Quiet.pinned (h : Quiet g g') (hp : Pinned x g) : Pinned x g' ∧ SameInodes g g' :=
  ⟨hp.congr h.ftable fun ip => (h.ref ip).ge, fun ip => ⟨h.dev ip, h.inum ip⟩⟩

/-- A call on inodes that covers what it found covered. -/
theorem FsStep.pinned (h : FsStep (g.pins x) g g') (hp : Pinned x g)
    (hc : Covers g' (g.pins x)) : Pinned x g' := by
  refine ⟨?_, h.ftable ▸ hp.typed, h.ftable ▸ hp.inTable⟩
  rw [pins_congr h.ftable]
  exact hc

theorem iput_pinned (h : Pinned (bump x i) g) : Pinned x (iput g i) ∧ SameInodes g (iput g i) := by
  have hc := h.covers
  rw [pins_bump] at hc
  have hput := (iput_covers hc).1
  have hf := iput_ftable g i
  refine ⟨⟨?_, hf ▸ h.typed, hf ▸ h.inTable⟩, fun ip => ?_⟩
  · rw [pins_congr hf]
    exact hput
  obtain ⟨disk, valid, heq⟩ := iput_slot g i
  rw [heq]
  simp only [Glob.setInode]
  split
  · next hip =>
    rw [hip]
    exact ⟨rfl, rfl⟩
  · exact ⟨rfl, rfl⟩

theorem idup_pinned (h : Pinned x g) : Pinned (bump x i) (idup g i) ∧ SameInodes g (idup g i) := by
  refine ⟨⟨?_, h.typed, h.inTable⟩, fun ip => ?_⟩
  · rw [pins_bump]
    exact (idup_covers h.covers).1
  simp only [idup, Glob.setInode]
  split
  · next hip =>
    rw [hip]
    exact ⟨rfl, rfl⟩
  · exact ⟨rfl, rfl⟩

-- == the files

/-- One entry of the file table is rewritten; the slots it held or holds
are counted in `y`. -/
theorem setFile_pinned {y : Nat → Int} (hc : Covers g (g.pins x))
    (hrest : ∀ f', f' ≠ f → 1 ≤ (g.ftable f').ref →
      ((g.ftable f').type = .inode ∨ (g.ftable f').type = .device) ∧ f' < nfile)
    (hlt : f < nfile) (hy : ∀ ip, y ip + fl.holds ip ≤ x ip + (g.ftable f).holds ip)
    (ht : 1 ≤ fl.ref → fl.type = .inode ∨ fl.type = .device) : Pinned y (g.setFile f fl) := by
  have hothers : ∀ f', 1 ≤ ((g.setFile f fl).ftable f').ref →
      (((g.setFile f fl).ftable f').type = .inode
        ∨ ((g.setFile f fl).ftable f').type = .device) ∧ f' < nfile := by
    intro f' hf'
    simp only [Glob.setFile] at hf' ⊢
    split at hf'
    · next heq =>
      rw [if_pos heq]
      exact ⟨ht hf', heq ▸ hlt⟩
    · next heq =>
      rw [if_neg heq]
      exact hrest f' heq hf'
  refine ⟨fun ip => ?_, fun f' hf' => (hothers f' hf').1, fun f' hf' => (hothers f' hf').2⟩
  have hx := pins_setFile (x := y) g fl hlt ip
  have := hc ip
  have := hy ip
  unfold Glob.pins at *
  show _ ≤ (g.itable ip).ref
  omega

theorem Pinned.others (h : Pinned x g) (f' : Nat) (hf' : 1 ≤ (g.ftable f').ref) :
    ((g.ftable f').type = .inode ∨ (g.ftable f').type = .device)
      ∧ f' < nfile := ⟨h.typed f' hf', h.inTable f' hf'⟩

theorem filedup_pinned (h : Pinned x g) (hd : filedup g f = .ok g') :
    Pinned x g' ∧ SameInodes g g' := by
  obtain ⟨href, rfl⟩ := filedup_ok hd
  obtain ⟨ht, hlt⟩ := h.others f href
  exact ⟨setFile_pinned h.covers (fun f' _ => h.others f') hlt
    (fun _ => Int.le_refl _) fun _ => ht, .refl _⟩

theorem filedupOpt_pinned (h : Pinned x g)
    (hd : filedupOpt g o = .ok g') : Pinned x g' ∧ SameInodes g g' := by
  cases o with
  | none =>
    cases hd
    exact ⟨h, .refl _⟩
  | some f => exact filedup_pinned h hd

/-- The reference of an entry to its inode moves into the count, or out
of it. -/
theorem holds_moves {fl' : File} (ht : fl.type = .inode ∨ fl.type = .device)
    (hip : fl.ip = some i) (hn : fl'.type = .none) (ip : Nat) :
    x ip + fl.holds ip = bump x i ip + fl'.holds ip := by
  rw [holds_some ht hip, holds_none hn]
  unfold bump
  split <;> simp

/-- fileclose; `f` itself may be an entry that has no type yet. -/
theorem fileclose_pinned' (hp : NoPipes g) (hlt : f < nfile) (hc : Covers g (g.pins x))
    (hrest : ∀ f', f' ≠ f → 1 ≤ (g.ftable f').ref →
      ((g.ftable f').type = .inode ∨ (g.ftable f').type = .device) ∧ f' < nfile)
    (hself : 1 < (g.ftable f).ref → (g.ftable f).type = .inode ∨ (g.ftable f).type = .device)
    (h : fileclose g f = .ok g') : Pinned x g' ∧ SameInodes g g' := by
  have herase : ∀ y : Nat → Int, (∀ ip, y ip + 0 ≤ x ip
      + (g.ftable f).holds ip) → Pinned y
        (g.setFile f { g.ftable f with ref := 0, type := .none }) :=
    fun y hy => setFile_pinned hc hrest hlt (fun ip => by rw [holds_none rfl]; exact hy ip)
      fun hz => absurd (show (1 : Int) ≤ 0 from hz) (by decide)
  cases fileclose_closed h with
  | more href =>
    exact ⟨setFile_pinned hc hrest hlt (fun _ => Int.le_refl _) fun _ => hself href, .refl _⟩
  | inode _ ht hip =>
    -- the reference that the entry held is the one that is put
    exact iput_pinned (herase _ fun j => by
      rw [holds_moves ht hip (show File.zero.type = .none from rfl)]
      exact Int.le_refl _)
  | pipe _ ht => exact absurd ht (hp f)
  | none _ ht =>
    exact ⟨herase x fun j => by rw [holds_none ht]; exact Int.le_refl _, .refl _⟩

theorem fileclose_pinned (hg : Pinned x g) (hp : NoPipes g)
    (h : fileclose g f = .ok g') : Pinned x g' ∧ SameInodes g g' := by
  have href : 1 ≤ (g.ftable f).ref := by
    cases fileclose_closed h <;> omega
  obtain ⟨ht, hlt⟩ := hg.others f href
  exact fileclose_pinned' hp hlt hg.covers (fun f' _ => hg.others f') (fun _ => ht) h

theorem closeWhole_pinned {v : Vma} {lo hi : Nat} (hg : Pinned x g)
    (hp : NoPipes g) (h : closeWhole g v lo hi = .ok g') : Pinned x g' ∧ SameInodes g g' := by
  rcases closeWhole_cases h with ⟨_, rfl⟩ | ⟨_, f, _, hc⟩
  · exact ⟨hg, .refl _⟩
  · exact fileclose_pinned hg hp hc

theorem exitFds_pinned {n : Nat} {s s' : Proc × Glob} (hg : Pinned x s.2)
    (hp : NoPipes s.2) (h : forUpto exitFd n s = .ok s') : Pinned x s'.2 ∧ SameInodes s.2 s'.2 := by
  refine (exitFds_inv (fun t => (Pinned x t ∧ SameInodes s.2 t) ∧ NoPipes t)
    ⟨⟨hg, .refl _⟩, hp⟩ ?_ h).1
  rintro t t' f ⟨⟨hgt, hst⟩, hpt⟩ hc
  obtain ⟨hg', hs'⟩ := fileclose_pinned hgt hpt hc
  exact ⟨⟨hg', hst.trans hs'⟩, (fileclose_kept (S := fun _ => True) hpt hc).pipes⟩

theorem forkRest_pinned {np' : Proc} (hg : Pinned x g) (h : forkRest p np g i = .ok (np', g')) :
    ∃ c, p.cwd = some c ∧ Pinned (bump x c) g' ∧ SameInodes g g' := by
  obtain ⟨c, g2, hc, ⟨hg2, hs2⟩, rfl⟩ := forkRest_inv
    (fun t => Pinned x t ∧ SameInodes g t) ⟨hg, .refl _⟩
    (fun t t' f ⟨hgt, hst⟩ hd =>
      have hd' := filedup_pinned hgt hd
      ⟨hd'.1, hst.trans hd'.2⟩) h
  obtain ⟨hg3, hs3⟩ := idup_pinned hg2
  exact ⟨c, hc, hg3, hs2.trans hs3⟩

-- == the calls

/-- The slots that `c` pins keep their inodes. -/
def KeepsInodes (c : Nat → Int) (g g' : Glob) : Prop :=
  ∀ ip, 0 < c ip → (g'.itable ip).dev = (g.itable ip).dev ∧ (g'.itable ip).inum = (g.itable ip).inum

theorem SameInodes.keeps (h : SameInodes g g') (c : Nat → Int) :
    KeepsInodes c g g' := fun ip _ => h ip

theorem FsStep.keeps {c : Nat → Int} (h : FsStep c g g') :
    KeepsInodes c g g' := fun ip hc => ⟨h.dev ip hc, h.inum ip hc⟩

theorem KeepsInodes.trans_same {c : Nat → Int} (h : KeepsInodes c g g') (h' : SameInodes g' g'') :
    KeepsInodes c g g'' := fun ip hc =>
  ⟨(h' ip).1.trans (h ip hc).1, (h' ip).2.trans (h ip hc).2⟩

theorem sysMmap_pinned {offset : Nat} {prot flags : UInt32} (hg : Pinned x g)
    (h : sysMmap p g addr len prot flags fd offset = .ok (r, p', g')) :
    Pinned x g' ∧ KeepsInodes (g.pins x) g g' := by
  rcases sysMmap_cases h with
    ⟨_, rfl, _⟩ | ⟨f, j, _, _, _, _, _, _, hdup, _⟩
  · exact ⟨hg, (SameInodes.refl _).keeps _⟩
  · obtain ⟨hg', hs⟩ := filedupOpt_pinned hg hdup
    exact ⟨hg', hs.keeps _⟩

theorem sysMunmap_pinned (hg : Pinned x g)
    (hp : NoPipes g) (h : sysMunmap p g addr len = .ok (r, p', g')) :
    Pinned x g' ∧ KeepsInodes (g.pins x) g g' := by
  rcases sysMunmap_cases h with
    ⟨_, rfl, _⟩ | ⟨i, p1, g1, g2, _, _, hwb, hloop, hclose, _⟩
  · exact ⟨hg, (SameInodes.refl _).keeps _⟩
  obtain ⟨hc1, hs1⟩ := writeBack_covers hg.covers hwb
  have hg1 := hs1.pinned hg hc1
  have hp1 := (hs1.kept (S := fun _ => True) hp).pipes
  have hq := (munmapPages_frame hloop).2
  obtain ⟨hg2, hs2⟩ := hq.pinned hg1
  have hp2 : NoPipes g2 := fun f => by
    rw [hq.ftable]
    exact hp1 f
  obtain ⟨hg3, hs3⟩ := closeWhole_pinned hg2 hp2 hclose
  exact ⟨hg3, (hs1.keeps.trans_same hs2).trans_same hs3⟩

theorem sysDup_pinned (hg : Pinned x g) (h : sysDup p g fd = .ok (r, p', g')) :
    Pinned x g' ∧ KeepsInodes (g.pins x) g g' := by
  rcases sysDup_cases h with ⟨_, rfl⟩ | ⟨f, _, _, hd⟩
  · exact ⟨hg, (SameInodes.refl _).keeps _⟩
  · obtain ⟨hg1, hs1⟩ := filedup_pinned hg hd
    exact ⟨hg1, hs1.keeps _⟩

theorem sysClose_pinned (hg : Pinned x g) (hp : NoPipes g) (h : sysClose p g fd = .ok (r, p', g')) :
    Pinned x g' ∧ KeepsInodes (g.pins x) g g' := by
  rcases sysClose_cases h with ⟨_, rfl⟩ | ⟨f, _, hc, _⟩
  · exact ⟨hg, (SameInodes.refl _).keeps _⟩
  · obtain ⟨hg1, hs1⟩ := fileclose_pinned hg hp hc
    exact ⟨hg1, hs1.keeps _⟩

theorem openFile_inode (fl : File) (d : Dinode) (ip : Nat) (omode : UInt32) :
    ((openFile fl d ip omode).type = .inode ∨ (openFile fl d ip omode).type = .device)
    ∧ (openFile fl d ip omode).ip = some ip := by
  refine ⟨?_, rfl⟩
  simp only [openFile]
  split
  · exact .inr rfl
  · exact .inl rfl

/-- An entry that was taken from the table and is given back. -/
theorem dropEntry_pinned (hg : Pinned x g) (hp : NoPipes g)
    {g1 : Glob} (ha : filealloc g = some (f, g1))
    (h : fileclose g1 f = .ok g') : Pinned x g' ∧ SameInodes g g' := by
  have hpipes := (filealloc_kept (S := fun _ => False) hp ha).1.pipes
  obtain ⟨hlt, _, rfl⟩ := filealloc_some ha
  have hself : (g.setFile f { g.ftable f with ref := 1 }).ftable f
      = { g.ftable f with ref := 1 } := if_pos rfl
  -- the entry changed no slot, so the inodes are compared with those of `g`
  show Pinned x g' ∧ SameInodes (g.setFile f { g.ftable f with ref := 1 }) g'
  refine fileclose_pinned' hpipes hlt (fun j => ?_) (fun f' hf' hr => ?_) (fun hr => ?_) h
  · have hx := pins_setFile (x := x) g { g.ftable f with ref := 1 } hlt j
    have hc := hg.covers j
    have hsame : File.holds { g.ftable f with ref := 1 } j = (g.ftable f).holds j := rfl
    show _ ≤ (g.itable j).ref
    omega
  · simp only [Glob.setFile, if_neg hf'] at hr ⊢
    exact hg.others f' hr
  · rw [hself] at hr
    exact absurd hr (Int.lt_irrefl 1)

theorem setFile_setFile (g : Glob) (f : Nat) (a b : File) :
    (g.setFile f a).setFile f b = g.setFile f b := by
  simp only [Glob.setFile]
  congr 1
  funext j
  by_cases hj : j = f
  · rw [if_pos hj, if_pos hj]
  · rw [if_neg hj, if_neg hj, if_neg hj]

theorem openInode_pinned {cwd : Option Nat}
    {ip : Nat} (hg : Pinned x g) (h : openInode g cwd path omode room = .ok (some ip, g')) :
    Pinned (bump x ip) g' ∧ KeepsInodes (g.pins x) g g' := by
  obtain ⟨hc, hs⟩ := openInode_covers hg.covers h
  refine ⟨⟨?_, hs.ftable ▸ hg.typed, hs.ftable ▸ hg.inTable⟩, hs.keeps⟩
  rw [pins_bump, pins_congr hs.ftable]
  exact hc

theorem sysOpen_pinned {path : Option (List UInt8)} (hg : Pinned x g) (hp : NoPipes g)
    (h : sysOpen p g path omode room = .ok (r, p', g')) :
    Pinned x g' ∧ KeepsInodes (g.pins x) g g' := by
  cases sysOpen_opened h with
  | refused => exact ⟨hg, (SameInodes.refl _).keeps _⟩
  | missing ho =>
    obtain ⟨hc, hs⟩ := openInode_covers hg.covers ho
    exact ⟨hs.pinned hg hc, hs.keeps⟩
  | unopened ho =>
    obtain ⟨hg1, hk1⟩ := openInode_pinned hg ho
    obtain ⟨hput, hs⟩ := iput_pinned hg1
    exact ⟨hput, hk1.trans_same hs⟩
  | full ho ha hc =>
    -- no descriptor: the entry is given back
    obtain ⟨hg1, hk1⟩ := openInode_pinned hg ho
    have hp1 := (openInode_kept (S := fun _ => True) hp ho).pipes
    obtain ⟨hg3, hs3⟩ := dropEntry_pinned hg1 hp1 ha hc
    obtain ⟨hg4, hs4⟩ := iput_pinned hg3
    exact ⟨hg4, (hk1.trans_same hs3).trans_same hs4⟩
  | @opened _ _ ip f _ g1 g2 _ _ ho ha _ hg' =>
    -- the inode that was found goes to the entry that was taken
    obtain ⟨hg1, hk1⟩ := openInode_pinned hg ho
    obtain ⟨ht, hip⟩ := openFile_inode (g2.ftable f) (g1.dinode ip) ip omode
    generalize openFile (g2.ftable f) (g1.dinode ip) ip omode = fl at hg' ht hip
    obtain ⟨hlt, _, rfl⟩ := filealloc_some ha
    rw [setFile_setFile] at hg'
    have hopen : Pinned x (g1.setFile f fl) :=
      setFile_pinned hg1.covers (fun f' _ => hg1.others f') hlt
        (fun j => by
          rw [holds_moves ht hip (show File.zero.type = .none from rfl)]
          have : File.zero.holds j = 0 := holds_none rfl j
          omega) fun _ => ht
    have hs : SameInodes g1 (g1.setFile f fl) := .refl _
    rcases hg' with rfl | rfl
    · exact ⟨hopen, hk1.trans_same hs⟩
    · exact ⟨{ hopen with }, hk1.trans_same hs⟩

theorem exitSelf_pinned (hc : p.cwd = some c) (hg : Pinned (bump x c) g)
    (hp : NoPipes g) (h : exitSelf p g status = .ok (p', g')) : Pinned x g' ∧ SameInodes g g' := by
  obtain ⟨g1, _, p2, h1, hc', h2, rfl⟩ := exitSelf_ok h
  cases hc.symm.trans hc'
  obtain ⟨hg1, hs1⟩ := exitFds_pinned hg hp h1
  obtain ⟨hg2, hs2⟩ := iput_pinned hg1
  obtain ⟨hg3, hs3⟩ := (exitVmas_frame h2).2.pinned hg2
  exact ⟨hg3, (hs1.trans hs2).trans hs3⟩

-- == the kernel

/-- One if the process is live and its current directory is `ip`. -/
def Proc.cwdHolds (p : Proc) (ip : Nat) : Nat := if p.isLive then hits p.cwd ip else 0

/-- References of current directories to slot `ip`. -/
def Kernel.cwds (k : Kernel) (ip : Nat) : Int :=
  ((∑ i ∈ range nproc, (k.proc i).cwdHolds ip : Nat) : Int)

theorem cwds_exchange (k k' : Kernel) (hi : i < nproc)
    (h : ∀ j ip, j ≠ i → (k'.proc j).cwdHolds ip = (k.proc j).cwdHolds ip) (ip : Nat) :
    k'.cwds ip + (k.proc i).cwdHolds ip = k.cwds ip + (k'.proc i).cwdHolds ip := by
  have hx := sum_exchange hi (fun j _ hj => h j ip hj)
  unfold Kernel.cwds
  omega

theorem cwds_congr (h : ∀ j ip, (k'.proc j).cwdHolds ip = (k.proc j).cwdHolds ip) :
    k'.cwds = k.cwds := by
  funext ip
  unfold Kernel.cwds
  rw [sum_same fun j _ => h j ip]

theorem cwds_put (k : Kernel) (g : Glob) (hc : p.cwd = (k.proc i).cwd)
    (hl : p.isLive = (k.proc i).isLive) : (k.put i (p, g)).cwds = k.cwds := by
  refine cwds_congr fun j ip => ?_
  by_cases hj : j = i
  · subst hj
    rw [Kernel.put_self]
    unfold Proc.cwdHolds
    rw [hc, hl]
  · rw [Kernel.put_of_ne k _ hj]

theorem cwdHolds_live (hl : p.isLive = true) (hc : p.cwd = some c) (ip : Nat) :
    p.cwdHolds ip = if ip = c then 1 else 0 := by
  unfold Proc.cwdHolds hits
  rw [if_pos hl, hc]
  simp only [Option.some.injEq, eq_comm]

theorem cwdHolds_dead (hl : p.isLive = false) (ip : Nat) : p.cwdHolds ip = 0 := by
  unfold Proc.cwdHolds
  rw [hl]
  rfl

/-- A slot that was not live is rewritten and is not live. -/
theorem cwds_put_dead (k : Kernel) (g : Glob)
    (hdead : (k.proc j).isLive = false) (hp : p.isLive = false) :
    (k.put j (p, g)).cwds = k.cwds := by
  refine cwds_congr fun a ip => ?_
  by_cases ha : a = j
  · subst ha
    rw [Kernel.put_self, cwdHolds_dead hp, cwdHolds_dead hdead]
  · rw [Kernel.put_of_ne _ _ ha]

/-- A new process holds its directory. -/
theorem cwds_born (k : Kernel) (g : Glob) (hj : j < nproc) (hdead : (k.proc j).isLive = false)
    (hl : np.isLive = true) (hc : np.cwd = some c) : (k.put j (np, g)).cwds = bump k.cwds c := by
  funext ip
  have hx := cwds_exchange k (k.put j (np, g)) hj (fun a ip ha => by
    rw [Kernel.put_of_ne _ _ ha]) ip
  rw [cwdHolds_dead hdead, Kernel.put_self, cwdHolds_live hl hc] at hx
  unfold bump
  split at hx <;> split <;> omega

/-- A process that is gone holds its directory no more. -/
theorem cwds_gone (k : Kernel) (g : Glob) (hi : i < nproc)
    (hl : (k.proc i).isLive = true) (hc : (k.proc i).cwd = some c)
    (hdead : p.isLive = false) : bump (k.put i (p, g)).cwds c = k.cwds := by
  funext ip
  have hx := cwds_exchange k (k.put i (p, g)) hi (fun a ip ha => by
    rw [Kernel.put_of_ne _ _ ha]) ip
  rw [Kernel.put_self, cwdHolds_dead hdead, cwdHolds_live hl hc] at hx
  unfold bump
  split at hx <;> split <;> omega

theorem reparent_cwds (k : Kernel) (i : Nat) : (reparent k i).cwds = k.cwds := by
  refine cwds_congr fun j ip => ?_
  obtain ⟨parent, heq⟩ := reparent_proc k i j
  rw [heq]
  rfl

/-- A process that exits has a working directory, and gives it up. -/
theorem kexit_cwds (hi : i < nproc) (hl : (k.proc i).isLive = true)
    (hs : kexit k i status = .ok k') :
    ∃ p g c, exitSelf ((reparent k i).proc i) k.glob status = .ok (p, g)
      ∧ k' = (reparent k i).put i (p, g)
      ∧ ((reparent k i).proc i).cwd = some c ∧ bump k'.cwds c = k.cwds := by
  obtain ⟨_, ⟨p, g⟩, hself, rfl⟩ := kexit_ok hs
  obtain ⟨_, c, _, _, hc, _⟩ := exitSelf_ok hself
  have hlive : ((reparent k i).proc i).isLive = true := by
    obtain ⟨parent, heq⟩ := reparent_proc k i i
    rw [heq]
    exact hl
  have hdead : p.isLive = false := by
    obtain ⟨pt, rfl⟩ := exitSelf_frame hself
    rfl
  refine ⟨p, g, c, hself, rfl, hc, ?_⟩
  rw [cwds_gone (reparent k i) g hi hlive hc hdead, reparent_cwds]

theorem kfork_pinned (h : Pinned k.cwds k.glob) (hf : kfork k i = .ok (o, k')) :
    Pinned k'.cwds k'.glob ∧ SameInodes k.glob k'.glob := by
  cases o with
  | some j =>
    obtain ⟨hj, hst, tf, _, _, _, pt, ph, ⟨np, g⟩, _, _, _, hrest, rfl⟩ := kfork_some hf
    obtain ⟨ofile, hnp⟩ := forkRest_frame (fun _ => rfl) hrest
    have hph : Pinned k.cwds { k.glob with phys := ph } := h.congr rfl fun _ => Int.le_refl _
    obtain ⟨c, hc, hg, hs⟩ := forkRest_pinned hph hrest
    refine ⟨?_, hs⟩
    rw [cwds_born k.tick g hj (not_live_of_state (.inl hst))
      (by rw [hnp]; rfl) (by rw [hnp]; exact hc)]
    exact hg
  | none =>
    rcases kfork_none hf with rfl | ⟨j, hj, hst, tf, pt, ph, rfl⟩
    · exact ⟨h, .refl _⟩
    · refine ⟨?_, .refl _⟩
      rw [cwds_put_dead k.tick _ (not_live_of_state (.inl hst)) rfl]
      exact h.congr rfl fun _ => Int.le_refl _

theorem kexit_pinned (h : Pinned k.cwds k.glob) (hp : NoPipes k.glob)
    (hi : i < nproc) (hl : (k.proc i).isLive = true) (hs : kexit k i status = .ok k') :
    Pinned k'.cwds k'.glob ∧ SameInodes k.glob k'.glob := by
  obtain ⟨p, g, c, hself, rfl, hc, hcwds⟩ := kexit_cwds hi hl hs
  -- the references without that of the process's own directory
  rw [← hcwds] at h
  exact exitSelf_pinned hc h hp hself

/-- kexec gives back the reference to the program that it took. -/
theorem kexec_pinned {argv : List (List UInt8)} {r : Int}
    (hg : Pinned x g) (h : kexec p g path argv = .ok (r, p', g')) :
    Pinned x g' ∧ KeepsInodes (g.pins x) g g' := by
  have hT := covers_tracks_of (g.pins x) p.cwd
    (R := fun g1 => g1.ftable = g.ftable ∧ KeepsInodes (g.pins x) g g1)
    fun hs hR => ⟨hs.ftable.trans hR.1, fun ip hc =>
      ⟨(hs.dev ip hc).trans (hR.2 ip hc).1, (hs.inum ip hc).trans (hR.2 ip hc).2⟩⟩
  obtain ⟨hc, hf, hk⟩ := hT.kexec (e := [])
    (fun hH hs => ⟨fun ip => (hH.1 ip).trans (hs.ref ip).ge, hs.ftable.trans hH.2.1,
      hH.2.2.trans_same fun ip => ⟨hs.dev ip, hs.inum ip⟩⟩)
    ⟨hg.covers.start.1, rfl, (SameInodes.refl g).keeps _⟩ _ h
  rw [inHand_nil] at hc
  refine ⟨⟨?_, hf ▸ hg.typed, hf ▸ hg.inTable⟩, hk⟩
  rw [pins_congr hf]
  exact hc

/-- One tidy step: every slot stays covered, and what is pinned keeps its
inode. -/
theorem step_pinned {op : Op} (h : Pinned k.cwds k.glob) (hp : NoPipes k.glob)
    (hi : i < nproc) (hl : (k.proc i).isLive = true) (hc : Tidy k i op)
    (hs : step k i op = .ok k') :
    Pinned k'.cwds k'.glob ∧ KeepsInodes (k.glob.pins k.cwds) k.glob k'.glob := by
  have hput : ∀ p g, p.cwd = (k.proc i).cwd → p.isLive = (k.proc i).isLive →
      Pinned k.cwds g ∧ KeepsInodes (k.glob.pins k.cwds) k.glob g →
      Pinned (k.put i (p, g)).cwds (k.put i (p, g)).glob
        ∧ KeepsInodes (k.glob.pins k.cwds) k.glob (k.put i (p, g)).glob := by
    intro p g hcwd hlive hg
    rw [cwds_put k g hcwd hlive]
    exact hg
  have hfds : ∀ p g, OnlyFds (k.proc i) p →
      Pinned k.cwds g ∧ KeepsInodes (k.glob.pins k.cwds) k.glob g →
      Pinned (k.put i (p, g)).cwds (k.put i (p, g)).glob
        ∧ KeepsInodes (k.glob.pins k.cwds) k.glob (k.put i (p, g)).glob := by
    rintro _ g ⟨pt, o, rfl⟩ hg
    exact hput _ g rfl rfl hg
  have hquiet : ∀ p g, OnlyTable (k.proc i) p ∧ Quiet k.glob g →
      Pinned (k.put i (p, g)).cwds (k.put i (p, g)).glob
        ∧ KeepsInodes (k.glob.pins k.cwds) k.glob (k.put i (p, g)).glob := by
    rintro p g ⟨hpt, hq⟩
    obtain ⟨hg, hsame⟩ := hq.pinned h
    exact hfds _ _ hpt.onlyFds ⟨hg, hsame.keeps _⟩
  cases step_did hs with
  | mmap hm =>
    refine hput _ _ ?_ ?_ (sysMmap_pinned h hm) <;>
    rcases sysMmap_cases hm with
      ⟨rfl, _⟩ | ⟨_, _, _, _, _, _, _, _, _, _, rfl⟩ <;> rfl
  | munmap hm =>
    have hframe : ∀ {p1 g1 g2 v lo n}, forUpto (munmapPage v lo) n
        (k.proc i, g1) = .ok (p1, g2) → p1.cwd = (k.proc i).cwd
          ∧ p1.isLive = (k.proc i).isLive := by
      intro p1 g1 g2 v lo n hloop
      obtain ⟨⟨pt, hp1⟩, _⟩ := munmapPages_frame hloop
      subst hp1
      exact ⟨rfl, rfl⟩
    refine hput _ _ ?_ ?_ (sysMunmap_pinned h hp hm) <;>
    rcases sysMunmap_cases hm with
      ⟨rfl, _⟩ | ⟨_, _, _, _, _, _, _, hloop, _, rfl⟩
    · rfl
    · exact (hframe hloop).1
    · rfl
    · exact (hframe hloop).2
  | fault hm => exact hquiet _ _ (vmfault_frame _ hm)
  | store hm => exact hquiet _ _ (userStore_frame _ hm)
  | sbrk hm =>
    obtain ⟨⟨pt, sz, rfl⟩, ph, _, rfl⟩ := sysSbrk_frame _ hm
    exact hput _ _ rfl rfl ⟨h.congr rfl fun _ => Int.le_refl _, (SameInodes.refl k.glob).keeps _⟩
  | exec hm =>
    obtain ⟨⟨regs, name, pt, sz, hp'⟩, _⟩ := kexec_frame _ hm
    subst hp'
    exact hput _ _ rfl rfl (kexec_pinned h hm)
  | wait hm =>
    rcases kwait_cases hm with rfl | ⟨j, p, g, hj, hout, hk'⟩
    · exact ⟨h, (SameInodes.refl _).keeps _⟩
    obtain ⟨h1, hkeep⟩ := hquiet p g hout.frame
    rcases hk' with rfl | ⟨q, ph, hfree, rfl⟩
    · exact ⟨h1, hkeep⟩
    -- the child that is freed held no directory
    obtain ⟨_, hne, hdead⟩ := zombieChild_dead hl hj
    rw [cwds_put_dead _ _ (by rw [Kernel.put_of_ne k _ hne]; exact hdead)
      (by rw [freeproc_freed hfree]; rfl)]
    exact ⟨h1.congr rfl fun _ => Int.le_refl _, hkeep⟩
  | fork hm =>
    obtain ⟨hg, hsame⟩ := kfork_pinned h hm
    exact ⟨hg, hsame.keeps _⟩
  | exit hm =>
    obtain ⟨hg, hsame⟩ := kexit_pinned h hp hi hl hm
    exact ⟨hg, hsame.keeps _⟩
  | openFile hm =>
    exact hfds _ _ (sysOpen_balanced hm).1 (sysOpen_pinned h hp hm)
  | close hm =>
    exact hfds _ _ (sysClose_balanced hm).1 (sysClose_pinned h hp hm)
  | dup hm => exact hfds _ _ (sysDup_balanced hm).1 (sysDup_pinned h hm)
  | unlink hm =>
    obtain ⟨rfl, hcov, hfs⟩ := sysUnlink_covers h.covers hm
    exact hput _ _ rfl rfl ⟨hfs.pinned h hcov, hfs.keeps⟩
  | pipe => exact hc.elim

end Xv6Labs.Model
