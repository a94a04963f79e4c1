/-
File reference accounting over runs.

`Balanced p g p' g'`: a call moved every count `f->ref` by what the
process's own descriptors and mappings moved. Every call of the source is
balanced but kexit, which keeps the references of the mappings. So
`Accounted` survives every step but the exit of a process that maps a file.
-/
import Xv6Labs.Lib.Sum
import Xv6Labs.Proofs.Steps

namespace Xv6Labs.Model

open Lib Finset

variable {p p' : Proc} {addr f fd i r : Nat} {g g' : Glob} {o : Option Nat}
  {s s' : Proc × Glob} {d : Nat → Nat} {k k' : Kernel}

variable {fl : File} {omode : UInt32} {n room : Nat} {len status : Int}
  {op : Op}

-- == holders

/-- One if the file pointer is to `f`. -/
def hits (o : Option Nat) (f : Nat) : Nat := if o = some f then 1 else 0

@[simp] theorem hits_none (f : Nat) : hits none f = 0 := rfl

/-- One if the mapping holds the file. -/
def Vma.fileRef (v : Vma) (f : Nat) : Nat := if v.valid then hits v.file f else 0

/-- Descriptors of the process that hold the file. -/
def Proc.fdRefs (p : Proc) (f : Nat) : Nat := ∑ fd ∈ range nofile, hits (p.ofile fd) f

/-- Valid mappings of the process that hold the file. -/
def Proc.vmaRefs (p : Proc) (f : Nat) : Nat := ∑ i ∈ range nvma, (p.vma i).fileRef f

/-- Everything of the process that holds the file. -/
def Proc.fileRefs (p : Proc) (f : Nat) : Nat := p.fdRefs f + p.vmaRefs f

/-- The same for a live process, and nothing for any other. -/
def Proc.liveRefs (p : Proc) (f : Nat) : Nat := if p.isLive then p.fileRefs f else 0

theorem liveRefs_of_live (h : p.isLive = true) (f : Nat) : p.liveRefs f = p.fileRefs f := if_pos h

theorem liveRefs_of_dead (h : p.isLive = false) (f : Nat) : p.liveRefs f = 0 := if_neg (by simp [h])

/-- Everything of the live processes that holds the file. -/
def Kernel.holders (k : Kernel) (f : Nat) : Nat := ∑ i ∈ range nproc, (k.proc i).liveRefs f

theorem fileRefs_congr (ho : p'.ofile = p.ofile) (hv : p'.vma = p.vma)
    (f : Nat) : p'.fileRefs f = p.fileRefs f := by
  simp only [Proc.fileRefs, Proc.fdRefs, Proc.vmaRefs, ho, hv]

theorem fileRefs_setOfile (p : Proc) (o : Option Nat) (hfd : fd < nofile) (f : Nat) :
    (p.setOfile fd o).fileRefs f + hits (p.ofile fd) f = p.fileRefs f + hits o f := by
  have h := sum_exchange (f := fun i => hits ((p.setOfile fd o).ofile i) f)
    (g := fun i => hits (p.ofile i) f) hfd (fun i _ hi => by simp [Proc.setOfile, hi])
  have hself : (p.setOfile fd o).ofile fd = o := by simp [Proc.setOfile]
  have hv : (p.setOfile fd o).vmaRefs f = p.vmaRefs f := rfl
  simp only [hself] at h
  simp only [Proc.fileRefs, hv, Proc.fdRefs]
  omega

theorem fileRefs_setVma (p : Proc) (v : Vma) (hi : i < nvma) (f : Nat) :
    (p.setVma i v).fileRefs f + (p.vma i).fileRef f = p.fileRefs f + v.fileRef f := by
  have h := sum_exchange (f := fun j => ((p.setVma i v).vma j).fileRef f)
    (g := fun j => (p.vma j).fileRef f) hi (fun j _ hj => by simp [Proc.setVma, hj])
  have hself : (p.setVma i v).vma i = v := by simp [Proc.setVma]
  have ho : (p.setVma i v).fdRefs f = p.fdRefs f := rfl
  simp only [hself] at h
  simp only [Proc.fileRefs, ho, Proc.vmaRefs]
  omega

-- == file.c

theorem hits_setFile {n : Int} (h : fl.ref = (g.ftable f).ref + n) (f' : Nat) :
    ((g.setFile f fl).ftable f').ref = (g.ftable f').ref + n * hits (some f) f' := by
  simp only [Glob.setFile, hits, Option.some.injEq]
  rcases eq_or_ne f f' with rfl | hne
  · simp [h]
  · simp [hne, hne.symm]

theorem filedup_ref (h : filedup g f = .ok g') (f' : Nat) :
    (g'.ftable f').ref = (g.ftable f').ref + hits (some f) f' := by
  obtain ⟨_, rfl⟩ := filedup_ok h
  rw [hits_setFile rfl, Int.one_mul]

theorem filedupOpt_ref (h : filedupOpt g o = .ok g') (f : Nat) :
    (g'.ftable f).ref = (g.ftable f).ref + hits o f := by
  cases o with
  | none =>
    cases h
    simp
  | some a => exact filedup_ref h f

theorem pipeclose_ftable {pi : Nat} {w : Bool}
    (h : pipeclose g pi w = .ok g') : g'.ftable = g.ftable := by
  obtain ⟨_, rfl | ⟨_, _, rfl⟩⟩ := pipeclose_cases h <;> rfl

theorem fileclose_ref (h : fileclose g f = .ok g') (f' : Nat) :
    (g'.ftable f').ref + hits (some f) f' = (g.ftable f').ref := by
  -- whatever the last close does, the table has lost one reference
  have hset : ∀ fl : File, fl.ref + 1 = (g.ftable f).ref →
      ((g.setFile f fl).ftable f').ref + hits (some f) f' = (g.ftable f').ref := by
    intro fl hfl
    rw [hits_setFile (n := -1) (by omega)]
    omega
  cases fileclose_closed h with
  | more => exact hset _ (Int.sub_add_cancel _ _)
  | inode href =>
    rw [iput_ftable]
    exact hset _ href.symm
  | pipe href _ hclose =>
    rw [pipeclose_ftable hclose]
    exact hset _ href.symm
  | none href => exact hset _ href.symm

theorem filealloc_ref (h : filealloc g = some (f, g')) (f' : Nat) :
    (g'.ftable f').ref = (g.ftable f').ref + hits (some f) f' := by
  obtain ⟨_, hz, rfl⟩ := filealloc_some h
  rw [hits_setFile (n := 1) (by rw [hz]; rfl), Int.one_mul]

/-- Changing an entry without its count. -/
theorem setFile_ref (h : fl.ref = (g.ftable f).ref) (f' : Nat) :
    ((g.setFile f fl).ftable f').ref = (g.ftable f').ref := by
  rw [hits_setFile (h.trans (Int.add_zero _).symm), Int.zero_mul, Int.add_zero]

-- == balance

/-- The counts moved by what the process's holdings moved. -/
structure Balanced (p : Proc) (g : Glob) (p' : Proc) (g' : Glob) : Prop where
  eq : ∀ f, (g'.ftable f).ref + p.fileRefs f = (g.ftable f).ref + p'.fileRefs f

theorem Balanced.trans {p'' : Proc} {g'' : Glob} (h : Balanced p g p' g')
    (h' : Balanced p' g' p'' g'') : Balanced p g p'' g'' := by
  refine ⟨fun f => ?_⟩
  have := h.eq f
  have := h'.eq f
  omega

/-- A call that leaves descriptors, mappings and files alone. -/
theorem Balanced.of_same (ho : p'.ofile = p.ofile) (hv : p'.vma = p.vma)
    (hf : g'.ftable = g.ftable) : Balanced p g p' g' := by
  refine ⟨fun f => ?_⟩
  rw [fileRefs_congr ho hv, hf]

theorem Balanced.refl (p : Proc) (g : Glob) : Balanced p g p g := .of_same rfl rfl rfl

theorem Balanced.of_frame (h : OnlyTable p p' ∧ Quiet g g') : Balanced p g p' g' := by
  obtain ⟨⟨pt, rfl⟩, hq⟩ := h
  exact .of_same rfl rfl hq.ftable

-- == descriptors

theorem argfd_some {fd : Int} (h : argfd p fd = some f) :
    fd.toNat < nofile ∧ p.ofile fd.toNat = some f := by
  simp only [argfd] at h
  split at h
  · next hr => exact ⟨by omega, h⟩
  · cases h

/-- A descriptor that is taken for a file with a reference to spare. -/
theorem fdalloc_refs (h : fdalloc p f = some (fd, p')) (f' : Nat) :
    p'.fileRefs f' = p.fileRefs f' + hits (some f) f' := by
  obtain ⟨hfd, hnone, rfl⟩ := fdalloc_some h
  have := fileRefs_setOfile p (some f) hfd f'
  simpa [hnone] using this

/-- A call on descriptors leaves everything else of the process. -/
def OnlyFds (p p' : Proc) : Prop := ∃ pagetable ofile, p' = { p with pagetable, ofile }

theorem OnlyFds.refl (p : Proc) : OnlyFds p p := ⟨p.pagetable, p.ofile, rfl⟩

theorem OnlyFds.setOfile (p : Proc) (fd : Nat) (o : Option Nat) :
    OnlyFds p (p.setOfile fd o) := ⟨p.pagetable, _, rfl⟩

theorem OnlyTable.onlyFds (h : OnlyTable p p') : OnlyFds p p' := by
  obtain ⟨pt, rfl⟩ := h
  exact ⟨pt, p.ofile, rfl⟩

theorem sysDup_balanced {fd : Int} (h : sysDup p g fd = .ok (r, p', g')) :
    OnlyFds p p' ∧ Balanced p g p' g' := by
  rcases sysDup_cases h with ⟨rfl, rfl⟩ | ⟨f, fd', hfd, hd⟩
  · exact ⟨.refl _, .refl _ _⟩
  · refine ⟨(fdalloc_some hfd).2.2 ▸ .setOfile p _ _, ⟨fun f' => ?_⟩⟩
    rw [filedup_ref hd, fdalloc_refs hfd]
    omega

theorem sysClose_balanced {fd : Int} (h : sysClose p g fd = .ok (r, p', g')) :
    OnlyFds p p' ∧ Balanced p g p' g' := by
  rcases sysClose_cases h with ⟨rfl, rfl⟩ | ⟨f, hf, hc, rfl⟩
  · exact ⟨.refl _, .refl _ _⟩
  obtain ⟨hfd, hof⟩ := argfd_some hf
  refine ⟨.setOfile p _ _, ⟨fun f' => ?_⟩⟩
  have h1 := fileclose_ref hc f'
  have h2 := fileRefs_setOfile p none hfd f'
  rw [hof, hits_none] at h2
  omega

theorem itrunc_ftable (g : Glob) (ip : Nat) : (itrunc g ip).ftable = g.ftable := rfl

theorem openInode_ftable {cwd : Option Nat} {path : List UInt8}

    (h : openInode g cwd path omode room = .ok (o, g')) : g'.ftable = g.ftable :=
  (openInode_covers (fun _ => Int.le_refl _) h).2.ftable

theorem openFile_ref (fl : File) (di : Dinode) (ip : Nat) (omode : UInt32) :
    (openFile fl di ip omode).ref = fl.ref := by
  simp only [openFile]
  split <;> rfl

theorem sysOpen_balanced {path : Option (List UInt8)}
    (h : sysOpen p g path omode room = .ok (r, p', g')) : OnlyFds p p' ∧ Balanced p g p' g' := by
  cases sysOpen_opened h with
  | refused => exact ⟨.refl p, .refl p g⟩
  | missing ho => exact ⟨.refl p, .of_same rfl rfl (openInode_ftable ho)⟩
  | unopened ho =>
    exact ⟨.refl p, .of_same rfl rfl ((iput_ftable _ _).trans (openInode_ftable ho))⟩
  | full ho ha hc =>
    -- no descriptor: the entry is given back
    refine ⟨.refl p, ⟨fun f' => ?_⟩⟩
    have ha := filealloc_ref ha f'
    have hc := fileclose_ref hc f'
    rw [openInode_ftable ho] at ha
    rw [iput_ftable]
    omega
  | @opened _ _ ip f _ g1 g2 _ _ ho ha hfd hg =>
    have hopen := openFile_ref (g2.ftable f) (g1.dinode ip) ip omode
    refine ⟨(fdalloc_some hfd).2.2 ▸ .setOfile p _ _, ⟨fun f' => ?_⟩⟩
    have href : (g'.ftable f').ref = (g2.ftable f').ref := by
      rcases hg with rfl | rfl
      · exact setFile_ref hopen f'
      · rw [itrunc_ftable]
        exact setFile_ref hopen f'
    rw [href, filealloc_ref ha, openInode_ftable ho, fdalloc_refs hfd]
    omega

/-- pipealloc takes one reference to each of the files it returns. -/
theorem pipealloc_ref {o : Option (Nat × Nat)} (h : pipealloc g = .ok (o, g')) (f : Nat) :
    (g'.ftable f).ref = (g.ftable f).ref + hits (o.map Prod.fst) f + hits (o.map Prod.snd) f := by
  simp only [pipealloc] at h
  split at h
  · cases h
    simp
  · next f0 g1 h0 =>
    have hr0 := filealloc_ref h0 f
    split at h
    · obtain ⟨g2, h2, h⟩ := bind_ok h
      cases h
      have hc := fileclose_ref h2 f
      simp only [Option.map_none, hits_none]
      omega
    · next f1 g2 h1 =>
      have hr1 := filealloc_ref h1 f
      split at h
      · obtain ⟨g3, h3, h⟩ := bind_ok h
        obtain ⟨g4, h4, h⟩ := bind_ok h
        cases h
        have hc0 := fileclose_ref h3 f
        have hc1 := fileclose_ref h4 f
        simp only [Option.map_none, hits_none]
        dsimp only at hc0
        omega
      · cases h
        rw [setFile_ref, setFile_ref]
        · simp only [Option.map_some]
          omega
        · rfl
        · rfl

theorem sysPipe_balanced {fdarray : Nat} (h : sysPipe p g fdarray = .ok (r, p', g')) :
    OnlyFds p p' ∧ Balanced p g p' g' := by
  cases sysPipe_piped h with
  | refused ha =>
    refine ⟨.refl p, ⟨fun f => ?_⟩⟩
    have := pipealloc_ref ha f
    simp only [Option.map_none, hits_none] at this
    omega
  | @undone rf wf pt _ _ _ _ ha hq hr hw =>
    refine ⟨OnlyTable.onlyFds ⟨pt, rfl⟩, ⟨fun f => ?_⟩⟩
    have href := pipealloc_ref ha f
    have hr := fileclose_ref hr f
    have hw := fileclose_ref hw f
    have hp : ({ p with pagetable := pt } : Proc).fileRefs f
        = p.fileRefs f := fileRefs_congr rfl rfl f
    rw [hq.ftable] at hr
    simp only [Option.map_some] at href
    omega
  | @made _ _ _ _ p0 p1 pt _ _ ha h0 h1 hq =>
    constructor
    · obtain ⟨_, _, rfl⟩ := fdalloc_some h0
      obtain ⟨_, _, rfl⟩ := fdalloc_some h1
      exact ⟨pt, _, rfl⟩
    refine ⟨fun f => ?_⟩
    have href := pipealloc_ref ha f
    have hr := fdalloc_refs h0 f
    have hw := fdalloc_refs h1 f
    have hp : ({ p1 with pagetable := pt } : Proc).fileRefs f
        = p1.fileRefs f := fileRefs_congr rfl rfl f
    rw [hq.ftable]
    simp only [Option.map_some] at href
    omega

-- == mappings

theorem Vma.fileRef_invalid {v : Vma} (h : v.valid = false) (f : Nat) : v.fileRef f = 0 := by
  simp [Vma.fileRef, h]

theorem sysMmap_balanced {offset : Nat} {fd : Int} {prot flags : UInt32}
    (h : sysMmap p g addr len prot flags fd offset = .ok (r, p', g')) : Balanced p g p' g' := by
  rcases sysMmap_cases h with
    ⟨rfl, rfl, _⟩ | ⟨o, i, _, _, _, _, _, hi, hdup, _, rfl⟩
  · exact .refl _ _
  obtain ⟨hlt, hfree⟩ := freeSlot_some hi
  refine ⟨fun f => ?_⟩
  have hset := fileRefs_setVma p (newVma p len prot flags fd o) hlt f
  have hnew : (newVma p len prot flags fd o).fileRef f = hits o f := rfl
  have hcur : ({ p.setVma i (newVma p len prot flags fd o) with
      curVmaStart := mmapEnd p len } : Proc).fileRefs f
        = (p.setVma i (newVma p len prot flags fd o)).fileRefs f :=
    fileRefs_congr rfl rfl f
  rw [Vma.fileRef_invalid hfree] at hset
  rw [filedupOpt_ref hdup]
  omega

theorem shrink_fileRef (v : Vma) (lo hi f : Nat) :
    (shrink v lo hi).fileRef f = if v.start = lo ∧ v.stop = hi then 0 else v.fileRef f := by
  simp only [shrink]
  split
  · rfl
  · split
    · rfl
    · split <;> rfl

theorem sysMunmap_balanced (h : sysMunmap p g addr len = .ok (r, p', g')) : Balanced p g p' g' := by
  rcases sysMunmap_cases h with
    ⟨rfl, rfl, _⟩ | ⟨i, p1, g1, g2, _, hi, hwb, hloop, hclose, rfl⟩
  · exact .refl _ _
  obtain ⟨hlt, hvalid, _, _⟩ := vmaHolding_some hi
  generalize u64 (addr + len) = hi' at *
  have hf1 := (writeBack_covers (fun _ => Int.le_refl _) hwb).2.ftable
  obtain ⟨⟨pt, hp1⟩, hq⟩ := munmapPages_frame hloop
  dsimp only at hp1 hq
  subst hp1
  refine ⟨fun f => ?_⟩
  have hset := fileRefs_setVma { p with pagetable := pt } (shrink (p.vma i) addr hi') hlt f
  have hpt : ({ p with pagetable := pt } : Proc).fileRefs f = p.fileRefs f :=
    fileRefs_congr rfl rfl f
  rw [shrink_fileRef] at hset
  dsimp only at hset
  rcases closeWhole_cases hclose with ⟨hpart, rfl⟩ | ⟨hwhole, f0, hfile, hc⟩
  · rw [if_neg hpart] at hset
    rw [hq.ftable, hf1]
    omega
  rw [if_pos hwhole] at hset
  have hc := fileclose_ref hc f
  have hv : (p.vma i).fileRef f = hits (some f0) f := by
    simp [Vma.fileRef, hvalid, hfile]
  rw [hq.ftable, hf1] at hc
  omega

-- == fork and exit

theorem forkVma_balanced (h : forkVma p n s = .ok s') : Balanced s.1 s.2 s'.1 s'.2 := by
  simp only [forkVma] at h
  split at h
  · split at h
    · cases h
      exact .refl _ _
    · next hv j hj =>
      obtain ⟨g1, hdup, h⟩ := bind_ok h
      cases h
      obtain ⟨hlt, hfree⟩ := freeSlot_some hj
      refine ⟨fun f => ?_⟩
      have hset := fileRefs_setVma s.1 ((p.vma n).copyTo (s.1.vma j)) hlt f
      have hnew : ((p.vma n).copyTo (s.1.vma j)).fileRef f = hits (p.vma n).file f := rfl
      rw [Vma.fileRef_invalid hfree] at hset
      rw [filedupOpt_ref hdup]
      dsimp only
      omega
  · cases h
    exact .refl _ _

theorem forkFds_balanced (hn : n ≤ nofile) (hnone : ∀ fd, fd < nofile → s.1.ofile fd = none)
    (h : forUpto (forkFd p) n s = .ok s') : Balanced s.1 s.2 s'.1 s'.2 := by
  -- descriptors the loop has not reached are still free
  refine (forUpto_inv (fun m t => Balanced s.1 s.2 t.1 t.2
    ∧ ∀ fd, m ≤ fd → fd < nofile → t.1.ofile fd = none) ⟨.refl _ _, fun fd _ => hnone fd⟩ ?_ h).1
  rintro m hm t t' ⟨hb, hfree⟩ hf
  simp only [forkFd] at hf
  split at hf
  · cases hf
    exact ⟨hb, fun fd hfd hlt => hfree fd (by omega) hlt⟩
  · next f0 _ =>
    obtain ⟨g1, hdup, hf⟩ := bind_ok hf
    cases hf
    have hlt : m < nofile := by omega
    refine ⟨hb.trans ⟨fun f => ?_⟩, fun fd hfd hlt' => ?_⟩
    · have hset := fileRefs_setOfile t.1 (some f0) hlt f
      rw [hfree m (Nat.le_refl m) hlt, hits_none] at hset
      rw [filedup_ref hdup]
      dsimp only
      omega
    · simp only [Proc.setOfile]
      rw [if_neg (by omega)]
      exact hfree fd (by omega) hlt'

theorem forkRest_balanced {np np' : Proc} (hnone : ∀ fd, fd < nofile → np.ofile fd = none)
    (hnew : ∀ j, (np.vma j).valid = false)
    (h : forkRest p np g i = .ok (np', g')) : Balanced np g np' g' := by
  obtain ⟨⟨np1, g1⟩, h1, h⟩ := bind_ok h
  obtain ⟨⟨np2, g2⟩, h2, h⟩ := bind_ok h
  have hb1 : Balanced np g np1 g1 := by
    have hstart : Balanced np g
        { np with sz := p.sz, curVmaStart := p.curVmaStart } g :=
      .of_same rfl rfl rfl
    exact hstart.trans (forUpto_inv (fun _ t => Balanced _ g t.1 t.2)
      (.refl _ _) (fun _ _ _ _ hb hf => hb.trans (forkVma_balanced hf)) h1)
  have ho1 : ∀ fd, fd < nofile → np1.ofile fd = none := by
    rw [forkVma_loop (Nat.le_refl _) (by exact hnew) h1]
    exact hnone
  have hb2 : Balanced np g np2 g2 :=
    hb1.trans (.trans (by exact .of_same rfl rfl rfl)
      (forkFds_balanced (Nat.le_refl _) (by exact ho1) h2))
  dsimp only at h
  split at h
  · cases h
  · cases h
    exact hb2.trans (.of_same rfl rfl rfl)

theorem exitFd_balanced (hfd : fd < nofile) (h : exitFd fd s = .ok s') :
    Balanced s.1 s.2 s'.1 s'.2 := by
  simp only [exitFd] at h
  split at h
  · cases h
    exact .refl _ _
  · next f0 hf0 =>
    obtain ⟨g1, hclose, h⟩ := bind_ok h
    cases h
    refine ⟨fun f => ?_⟩
    have hset := fileRefs_setOfile s.1 none hfd f
    have hc := fileclose_ref hclose f
    rw [hf0, hits_none] at hset
    dsimp only
    omega

theorem dropFds_fileRefs (p : Proc) (f : Nat) : (p.dropFds nofile).fileRefs f = p.vmaRefs f := by
  have h : (p.dropFds nofile).fdRefs f = 0 := by
    refine sum_zero fun fd hfd => ?_
    simp [Proc.dropFds, hfd]
  have hv : (p.dropFds nofile).vmaRefs f = p.vmaRefs f := rfl
  rw [Proc.fileRefs, h, hv, Nat.zero_add]

/-- kexit closes the descriptors and keeps the references of the
mappings. -/
theorem exitSelf_refs (h : exitSelf p g status = .ok (p', g')) (f : Nat) :
    (g'.ftable f).ref + p.fileRefs f = (g.ftable f).ref + p.vmaRefs f := by
  obtain ⟨g1, c, p2, h1, _, h2, rfl⟩ := exitSelf_ok h
  have hb : Balanced p g (p.dropFds nofile) g1 :=
    forUpto_inv (fun _ t => Balanced p g t.1 t.2) (.refl _ _)
      (fun _ hm _ _ hb hf => hb.trans (exitFd_balanced hm hf)) h1
  have heq := hb.eq f
  rw [dropFds_fileRefs] at heq
  rw [(exitVmas_frame h2).2.ftable, iput_ftable]
  exact heq

-- == the invariant

/-- The process holds no file. -/
structure Proc.Idle (p : Proc) : Prop where
  ofile : ∀ fd, fd < nofile → p.ofile fd = none
  vma : ∀ i, i < nvma → (p.vma i).valid = false

theorem Proc.Idle.fileRefs (h : p.Idle) (f : Nat) : p.fileRefs f = 0 := by
  have h1 : p.fdRefs f = 0 := sum_zero fun fd hfd => by
    rw [h.ofile fd hfd, hits_none]
  have h2 : p.vmaRefs f = 0 := sum_zero fun i hi =>
    Vma.fileRef_invalid (h.vma i hi) f
  rw [Proc.fileRefs, h1, h2]

theorem Proc.Idle.congr (h : p.Idle) (ho : p'.ofile = p.ofile) (hv : p'.vma = p.vma) : p'.Idle :=
  ⟨fun fd => ho ▸ h.ofile fd, fun i => hv ▸ h.vma i⟩

theorem holders_exchange (k k' : Kernel) (hi : i < nproc)
    (h : ∀ j f, j ≠ i → (k'.proc j).liveRefs f = (k.proc j).liveRefs f) (f : Nat) :
    k'.holders f + (k.proc i).liveRefs f = k.holders f + (k'.proc i).liveRefs f :=
  sum_exchange (g := fun j => (k.proc j).liveRefs f) hi (fun j _ hj => h j f hj)

/-- Every count is the number of live holders plus `d`, the references
that no one holds any more; and a process that is not live is idle. -/
structure Accounted (d : Nat → Nat) (k : Kernel) : Prop where
  ref : ∀ f, (k.glob.ftable f).ref = k.holders f + d f
  idle : ∀ i, (k.proc i).isLive = false → (k.proc i).Idle

/-- A slot is rewritten: a slot that is not live is idle, and the counts
moved with what the slot holds but for `e` references, left behind. -/
theorem Accounted.move {e : Nat → Nat} (h : Accounted d k) (hi : i < nproc)
    (href : ∀ f, (g.ftable f).ref + (k.proc i).liveRefs f
      = (k.glob.ftable f).ref + p.liveRefs f + e f)
    (hidle : p.isLive = false → p.Idle) : Accounted (fun f => d f + e f) (k.put i (p, g)) := by
  refine ⟨fun f => ?_, fun j hj => ?_⟩
  · have hx := holders_exchange k (k.put i (p, g)) hi
      (fun j f hj => by rw [Kernel.put_of_ne k _ hj]) f
    have := h.ref f
    have := href f
    rw [Kernel.put_self] at hx
    rw [Kernel.put_glob]
    dsimp only at hx ⊢
    omega
  · rcases eq_or_ne j i with rfl | hne
    · rw [Kernel.put_self] at hj ⊢
      exact hidle hj
    · rw [Kernel.put_of_ne k _ hne] at hj ⊢
      exact h.idle j hj

/-- A balanced call of a live process. -/
theorem Accounted.put (h : Accounted d k) (hi : i < nproc)
    (hl : (k.proc i).isLive = true) (hp : p.isLive = true)
    (hb : Balanced (k.proc i) k.glob p g) : Accounted d (k.put i (p, g)) := by
  refine h.move (e := fun _ => 0) hi (fun f => ?_) fun hdead => ?_
  · have := hb.eq f
    rw [liveRefs_of_live hl, liveRefs_of_live hp]
    omega
  · rw [hp] at hdead
    cases hdead

/-- A slot that was not live is rewritten, and is idle or came with its
references. -/
theorem Accounted.put_dead (h : Accounted d k) (hi : i < nproc) (hl : (k.proc i).isLive = false)
    (href : ∀ f, (g.ftable f).ref = (k.glob.ftable f).ref + p.liveRefs f)
    (hidle : p.isLive = false → p.Idle) : Accounted d (k.put i (p, g)) := by
  refine h.move (e := fun _ => 0) hi (fun f => ?_) hidle
  have := href f
  rw [liveRefs_of_dead hl]
  omega

-- == steps

theorem OnlyTable.isLive (h : OnlyTable p p') : p'.isLive = p.isLive := by
  obtain ⟨pt, rfl⟩ := h
  rfl

theorem OnlyFds.isLive (h : OnlyFds p p') : p'.isLive = p.isLive := by
  obtain ⟨pt, o, rfl⟩ := h
  rfl

theorem not_live_of_state (h : p.state = .unused ∨ p.state = .zombie) : p.isLive = false := by
  rcases h with h | h <;> simp [Proc.isLive, h]

theorem used_of_live (h : p.isLive = true) : p.state ≠ .unused := by
  intro hst
  rw [not_live_of_state (.inl hst)] at h
  cases h

/-- The child that kwait reaps is a zombie, so not the caller. -/
theorem zombieChild_dead {j : Nat} (hl : (k.proc i).isLive = true) (h : zombieChild k i = some j) :
    j < nproc ∧ j ≠ i ∧ (k.proc j).isLive = false := by
  obtain ⟨hlt, _, hz⟩ := zombieChild_some h
  have hdead := not_live_of_state (.inr hz)
  refine ⟨hlt, ?_, hdead⟩
  rintro rfl
  rw [hl] at hdead
  cases hdead

theorem Accounted.tick (h : Accounted d k) : Accounted d k.tick := ⟨h.ref, h.idle⟩

theorem kfork_accounted (h : Accounted d k) (hf : kfork k i = .ok (o, k')) : Accounted d k' := by
  cases o with
  | some j =>
    obtain ⟨hj, hst, tf, _, _, _, pt, ph, ⟨np, g⟩, _, _, _, hrest, rfl⟩ := kfork_some hf
    have hdead := not_live_of_state (.inl hst)
    have hidle := h.idle j hdead
    have hnew : ∀ s, (((k.proc j).allocated k.nextpid tf pt).vma s).valid = false := fun _ => rfl
    have hempty : ((k.proc j).allocated k.nextpid tf pt).Idle := ⟨hidle.ofile, fun s _ => hnew s⟩
    have hb := forkRest_balanced hempty.ofile hnew hrest
    obtain ⟨ofile, rfl⟩ := forkRest_frame hnew hrest
    refine h.tick.put_dead hj hdead (fun f => ?_) (fun hl => ?_)
    · have href := hb.eq f
      rw [hempty.fileRefs] at href
      exact (Int.add_zero _).symm.trans href
    · cases hl
  | none =>
    rcases kfork_none hf with rfl | ⟨j, hj, hst, tf, pt, ph, rfl⟩
    · exact h
    have hdead := not_live_of_state (.inl hst)
    have hidle := h.idle j hdead
    refine h.tick.put_dead hj hdead (fun f => ?_) (fun _ => ?_)
    · exact (Int.add_zero _).symm
    · exact ⟨hidle.ofile, fun _ _ => rfl⟩

theorem reparent_accounted (i : Nat) (h : Accounted d k) : Accounted d (reparent k i) := by
  refine ⟨fun f => ?_, fun j hj => ?_⟩
  · have hsame : (reparent k i).holders f = k.holders f := by
      refine sum_same fun j _ => ?_
      obtain ⟨parent, heq⟩ := reparent_proc k i j
      rw [heq]
      rfl
    rw [hsame]
    exact h.ref f
  · obtain ⟨parent, heq⟩ := reparent_proc k i j
    rw [heq] at hj ⊢
    exact (h.idle j hj).congr rfl rfl

theorem dropped_idle (p : Proc) : ((p.dropFds nofile).dropMaps nvma).Idle := by
  refine ⟨fun fd hfd => ?_, fun i hi => ?_⟩
  · simp only [Proc.dropMaps, Proc.dropFds, if_pos hfd]
  · simp only [Proc.dropMaps, if_pos hi]

/-- An exit leaves the references of the mappings behind. -/
theorem kexit_accounted (h : Accounted d k) (hi : i < nproc)
    (hl : (k.proc i).isLive = true) (he : kexit k i status = .ok k') :
    Accounted (fun f => d f + (k.proc i).vmaRefs f) k' := by
  obtain ⟨_, ⟨p, g⟩, hs, rfl⟩ := kexit_ok he
  obtain ⟨parent, heq⟩ := reparent_proc k i i
  have hrefs := exitSelf_refs hs
  obtain ⟨pt, rfl⟩ := exitSelf_frame hs
  refine (reparent_accounted i h).move hi (fun f => ?_) fun _ => ?_
  · rw [liveRefs_of_live (by rw [heq]; exact hl), hrefs f,
      liveRefs_of_dead rfl, Int.natCast_zero, Int.add_zero, heq]
    rfl
  · exact (dropped_idle _).congr rfl rfl

theorem kwait_accounted {o : Option (Nat ⊕ Unit)} (h : Accounted d k)
    (hi : i < nproc) (hl : (k.proc i).isLive = true)
    (hw : kwait k i addr = .ok (o, k')) : Accounted d k' := by
  rcases kwait_cases hw with rfl | ⟨j, p, g, hj, hout, hk'⟩
  · exact h
  have hput : Accounted d (k.put i (p, g)) :=
    h.put hi hl (hout.frame.1.isLive.trans hl) (.of_frame hout.frame)
  rcases hk' with rfl | ⟨q, ph, hfree, rfl⟩
  · exact hput
  -- the child is a zombie, so it is not the caller and holds nothing
  obtain ⟨hlt, hne, hdead⟩ := zombieChild_dead hl hj
  have hidle := h.idle j hdead
  refine hput.put_dead hlt ?_ (fun f => ?_) (fun _ => ?_)
  · rw [Kernel.put_of_ne k _ hne]
    exact hdead
  · rw [freeproc_freed hfree]
    exact (Int.add_zero _).symm
  · rw [freeproc_freed hfree]
    exact hidle.congr rfl rfl

/-- The references a call leaves behind: those of the mappings of a
process that exits. -/
def leaked (k : Kernel) (i : Nat) (op : Op) (f : Nat) : Nat :=
  match op with
  | .exit _ => (k.proc i).vmaRefs f
  | _ => 0

theorem step_accounted (h : Accounted d k) (hi : i < nproc)
    (hl : (k.proc i).isLive = true) (hs : step k i op = .ok k') :
    Accounted (fun f => d f + leaked k i op f) k' := by
  have hfds : ∀ p g, OnlyFds (k.proc i) p ∧ Balanced (k.proc i) k.glob p g →
      Accounted d (k.put i (p, g)) :=
    fun p g ⟨hp, hb⟩ => h.put hi hl (hp.isLive.trans hl) hb
  have hframe : ∀ p g, OnlyTable (k.proc i) p ∧ Quiet k.glob g → Accounted d (k.put i (p, g)) :=
    fun p g hf => hfds p g ⟨hf.1.onlyFds, .of_frame hf⟩
  cases step_did hs with
  | exit hc => exact kexit_accounted h hi hl hc
  | fork hc => exact kfork_accounted h hc
  | wait hc => exact kwait_accounted h hi hl hc
  | mmap hc =>
    refine h.put hi hl ?_ (sysMmap_balanced hc)
    rcases sysMmap_cases hc with
      ⟨rfl, _⟩ | ⟨_, _, _, _, _, _, _, _, _, _, rfl⟩ <;> exact hl
  | munmap hc =>
    refine h.put hi hl ?_ (sysMunmap_balanced hc)
    rcases sysMunmap_cases hc with
      ⟨rfl, _⟩ | ⟨_, _, _, _, _, _, _, hloop, _, rfl⟩
    · exact hl
    · exact (munmapPages_frame hloop).1.isLive.trans hl
  | fault hc => exact hframe _ _ (vmfault_frame _ hc)
  | store hc => exact hframe _ _ (userStore_frame _ hc)
  | sbrk hc =>
    obtain ⟨⟨pt, sz, rfl⟩, ph, _, rfl⟩ := sysSbrk_frame _ hc
    exact h.put hi hl hl (.of_same rfl rfl rfl)
  | exec hc =>
    obtain ⟨⟨regs, name, pt, sz, rfl⟩, hf, _⟩ := kexec_frame _ hc
    exact h.put hi hl hl (.of_same rfl rfl hf)
  | openFile hc => exact hfds _ _ (sysOpen_balanced hc)
  | close hc => exact hfds _ _ (sysClose_balanced hc)
  | dup hc => exact hfds _ _ (sysDup_balanced hc)
  | pipe hc => exact hfds _ _ (sysPipe_balanced hc)
  | unlink hc =>
    obtain ⟨rfl, _, hf⟩ := sysUnlink_covers (fun _ => Int.le_refl _) hc
    exact h.put hi hl hl (.of_same rfl rfl hf.ftable)

-- == over runs

/-- The exit condition: no valid mapping of the process has a file. -/
def NoFileMapped (p : Proc) : Prop := ∀ i, i < nvma → (p.vma i).valid = true → (p.vma i).file = none

instance (p : Proc) : Decidable (NoFileMapped p) := inferInstanceAs (Decidable (∀ i, i < nvma → _))

/-- Only processes that map no file exit. -/
def ExitsUnmapped (k : Kernel) (i : Nat) : Op → Prop
  | .exit _ => NoFileMapped (k.proc i)
  | _ => True

theorem leaked_zero (h : ExitsUnmapped k i op) (f : Nat) : leaked k i op f = 0 := by
  cases op with
  | exit status =>
    refine sum_zero fun j hj => ?_
    simp only [Vma.fileRef]
    split
    · next hv => rw [h j hj hv, hits_none]
    · rfl
  | _ => rfl

/-- The file is in no descriptor and no valid mapping of a live process. -/
def Unheld (k : Kernel) (f : Nat) : Prop :=
  ∀ i, i < nproc → (k.proc i).isLive = true →
    (∀ fd, fd < nofile → (k.proc i).ofile fd ≠ some f)
      ∧ ∀ j, j < nvma → ((k.proc i).vma j).valid = true → ((k.proc i).vma j).file ≠ some f

theorem fileRefs_eq_zero :
    p.fileRefs f = 0 ↔ (∀ fd, fd < nofile → p.ofile fd ≠ some f)
      ∧ ∀ j, j < nvma → (p.vma j).valid = true → (p.vma j).file ≠ some f := by
  simp only [Proc.fileRefs, Proc.fdRefs, Proc.vmaRefs, Nat.add_eq_zero_iff,
    Finset.sum_eq_zero_iff, mem_range, hits, Vma.fileRef]
  refine and_congr (forall₂_congr fun fd _ => by simp) (forall₂_congr fun j _ => ?_)
  cases (p.vma j).valid <;> simp

theorem holders_eq_zero : k.holders f = 0 ↔ Unheld k f := by
  simp only [Kernel.holders, Finset.sum_eq_zero_iff, mem_range, Unheld,
    ← fileRefs_eq_zero, Proc.liveRefs]
  refine forall₂_congr fun i _ => ?_
  cases (k.proc i).isLive <;> simp

/-- A file in a valid mapping is open. -/
theorem Accounted.mapped (h : Accounted d k) {s : Nat} (hi : i < nproc)
    (hs : s < nvma) (hv : ((k.proc i).vma s).valid = true)
    (hf : ((k.proc i).vma s).file = some f) : 1 ≤ (k.glob.ftable f).ref := by
  have hl : (k.proc i).isLive = true := by
    by_contra hn
    rw [Bool.not_eq_true] at hn
    rw [(h.idle i hn).vma s hs] at hv
    cases hv
  have hpos : k.holders f ≠ 0 := fun hz =>
    (holders_eq_zero.mp hz i hi hl).2 s hs hv hf
  have := h.ref f
  omega

/-- A file in a descriptor is open. -/
theorem Accounted.opened (h : Accounted d k) (hi : i < nproc)
    (hl : (k.proc i).isLive = true) (hfd : fd < nofile)
    (hf : (k.proc i).ofile fd = some f) : 1 ≤ (k.glob.ftable f).ref := by
  have hpos : k.holders f ≠ 0 := fun hz =>
    (holders_eq_zero.mp hz i hi hl).1 fd hfd hf
  have := h.ref f
  omega

/-- In a run whose processes exit only when they map no file, every
open-file entry counts its holders, and is free exactly when it has none. -/
theorem file_refs_count_holders {k₀ k : Kernel}
    (h0 : Accounted (fun _ => 0) k₀) (hr : Runs ExitsUnmapped k₀ k)
    (f : Nat) :
    (k.glob.ftable f).ref = k.holders f
      ∧ ((k.glob.ftable f).ref = 0 ↔ Unheld k f) := by
  have hinv : Accounted (fun _ => 0) k := by
    refine hr.inv (Accounted fun _ => 0) h0 fun k k' i op hi hl hc h hs => ?_
    have hk' := step_accounted h hi hl hs
    simpa only [leaked_zero hc] using hk'
  have href : (k.glob.ftable f).ref = k.holders f := by
    have := hinv.ref f
    omega
  rw [href, Int.natCast_eq_zero]
  exact ⟨rfl, holders_eq_zero⟩

set_option maxRecDepth 10000

/-- After boot the two open files are held by their descriptors. -/
theorem boot_accounted : Accounted (fun _ => 0) bootKernel := by
  refine ⟨fun f => ?_, fun i hi => ?_⟩
  · match f with
    | 0 => decide
    | 1 => decide
    | f + 2 =>
      -- the shell holds 0 and 1, and init holds nothing
      have hz : bootKernel.holders (f + 2) = 0 := by
        refine holders_eq_zero.mpr fun i _ hl => ?_
        match i with
        | 0 => exact ⟨fun _ _ h => (nomatch h), fun _ _ h => (nomatch h)⟩
        | 1 =>
          refine ⟨fun fd _ h => ?_, fun _ _ h => (nomatch h)⟩
          change (if fd < 2 then some fd else none) = some (f + 2) at h
          split at h
          · injection h
            omega
          · cases h
        | i + 2 => cases hl
      rw [hz]
      rfl
  · match i with
    | 0 => cases hi
    | 1 => cases hi
    | i + 2 => exact ⟨fun _ _ => rfl, fun _ _ => rfl⟩

/-- A file is mapped, unmapped and left by an exit: its count is 0. -/
theorem file_refs_count_holders_boot :
    ∃ k, Runs ExitsUnmapped bootKernel k ∧ (k.proc 1).state = .zombie
      ∧ ∀ f, (k.glob.ftable f).ref = k.holders f
        ∧ ((k.glob.ftable f).ref = 0 ↔ Unheld k f) :=
  have hr := (((Runs.step .refl 1 (.mmap 0 4096 3 1 0 0) (by decide) rfl
    trivial rfl).step 1 (.munmap 0x40000000 4096) (by decide) rfl trivial
    rfl).step 1 (.exit 0) (by decide) rfl (show NoFileMapped _ by decide) rfl)
  ⟨_, hr, rfl, file_refs_count_holders boot_accounted hr⟩

/-- A process maps a file and exits: the entry keeps the reference of the
mapping and no one holds it. -/
theorem exit_leaks_file_ref :
    ∃ k, runAs bootKernel 1 [.mmap 0 4096 3 1 0 0, .exit 0] = .ok k
      ∧ (k.glob.ftable 0).ref = 1 ∧ k.holders 0 = 0 ∧ Unheld k 0 :=
  ⟨_, rfl, rfl, by decide, holders_eq_zero.mp (by decide)⟩

/-- The counts fit an `int`, with room for what one call can add: a
reference for every descriptor and every mapping, in fork. -/
def RefsFit (k : Kernel) (_ : Nat) (_ : Op) : Prop :=
  ∀ f, f < nfile → (k.glob.ftable f).ref + nofile + nvma < 2 ^ 31

instance (op : Op) : Decidable (RefsFit k i op) := inferInstanceAs (Decidable (∀ f, f < nfile → _))

/-- In every run of all the calls, whatever kexit leaves behind, as long as
that is not so much that a count wraps: the files that a live process has
open or mapped are open, so the panics of filedup and fileclose are not met
on them. -/
theorem files_open_of_runs {k₀ k : Kernel} (h0 : Accounted d k₀)
    (hr : Runs RefsFit k₀ k) (hi : i < nproc)
    (hl : (k.proc i).isLive = true) :
    (∀ fd f, fd < nofile → (k.proc i).ofile fd = some f →
      1 ≤ (k.glob.ftable f).ref)
    ∧ ∀ s f, s < nvma → ((k.proc i).vma s).valid = true →
      ((k.proc i).vma s).file = some f → 1 ≤ (k.glob.ftable f).ref := by
  obtain ⟨d', h⟩ : ∃ d', Accounted d' k := by
    refine hr.inv (fun k => ∃ d', Accounted d' k) ⟨d, h0⟩ ?_
    rintro k k' i op hi hl _ ⟨d', h⟩ hs
    exact ⟨_, step_accounted h hi hl hs⟩
  exact ⟨fun fd f hfd hf => h.opened hi hl hfd hf,
    fun s f hs hv hf => h.mapped hi hs hv hf⟩

/-- A process maps a file and forks. The child exits, with the reference of
its mapping; the parent's file is open for its descriptor and its mapping. -/
theorem files_open_boot : ∃ k, Runs RefsFit bootKernel k
    ∧ (k.proc 2).state = .zombie ∧ (k.glob.ftable 0).ref = 3
    ∧ k.holders 0 = 2 ∧ ((k.proc 1).vma 0).file = some 0
    ∧ 1 ≤ (k.glob.ftable 0).ref := by
  have hr₁ : Runs RefsFit bootKernel _ := Runs.step .refl 1
    (.mmap 0 4096 3 1 0 0) (by decide) rfl (by decide) rfl
  have hr₂ := hr₁.step 1 .fork (by decide) rfl (by decide) rfl
  have hr := hr₂.step 2 (.exit 0) (by decide) rfl (by decide) rfl
  exact ⟨_, hr, rfl, rfl, by decide, rfl, (files_open_of_runs (i := 1)
    boot_accounted hr (by decide) rfl).2 0 0 (by decide) rfl rfl⟩

end Xv6Labs.Model
