/-
kexit, and the same exit after sys_munmap of every mapping.

sys_munmap writes the pages of a shared mapping back and closes its file;
kexit's loop over the mappings does neither. The two runs are compared on
the files: a file without links may be freed by one of them alone, so the
mapped files have links, and what happens to the others is the same step
by step (`SameOn`).
-/
import Xv6Labs.Proofs.Beside
import Xv6Labs.Proofs.FreePages
import Xv6Labs.Proofs.WriteBack

namespace Xv6Labs.Model

open Lib

variable {p p' : Proc} {g g' g1 g1' : Glob} {v : Vma} {P : Nat → Prop}
  {ino ip f i j s : Nat}

variable {hi lo n : Nat} {d d' : Dinode} {g'' : Glob} {nd : Inode}
  {q : Proc × Glob} {status : Int} {k k' : Kernel}

-- == files that are the same

/-- The same file: its links, its size and its bytes. -/
structure Dinode.Same (d d' : Dinode) : Prop where
  nlink : d'.nlink = d.nlink
  size : d'.size = d.size
  data : ∀ pos, pos < d.size → d'.data pos = d.data pos

theorem Dinode.Same.of_eq (h : d' = d) : d.Same d' := by
  rw [h]
  exact ⟨rfl, rfl, fun _ _ => rfl⟩

theorem Dinode.Same.trans {d'' : Dinode} (h : d.Same d') (h' : d'.Same d'') : d.Same d'' :=
  ⟨h'.nlink.trans h.nlink, h'.size.trans h.size, fun pos hpos =>
    (h'.data pos (h.size ▸ hpos)).trans (h.data pos hpos)⟩

/-- The inodes in `P` are the same on the disk, and so are their slots of
the inode table and the files that are open on these. -/
structure SameOn (P : Nat → Prop) (g g' : Glob) : Prop where
  disk : ∀ ino, P ino → g'.disk ino = g.disk ino
  inum : ∀ j, (g'.itable j).inum = (g.itable j).inum
  slot : ∀ j, P (g.itable j).inum → g'.itable j = g.itable j
  ip : ∀ f, (g'.ftable f).ip = (g.ftable f).ip
  file : ∀ f j, (g.ftable f).ip = some j → P (g.itable j).inum → g'.ftable f = g.ftable f

theorem SameOn.refl (P : Nat → Prop) (g : Glob) : SameOn P g g :=
  ⟨fun _ _ => rfl, fun _ => rfl, fun _ _ => rfl, fun _ => rfl, fun _ _ _ _ => rfl⟩

theorem SameOn.symm (h : SameOn P g g') : SameOn P g' g :=
  ⟨fun ino hino => (h.disk ino hino).symm, fun j => (h.inum j).symm,
    fun j hj => (h.slot j (h.inum j ▸ hj)).symm, fun f => (h.ip f).symm,
    fun f j hf hj => (h.file f j (h.ip f ▸ hf) (h.inum j ▸ hj)).symm⟩

theorem SameOn.trans (h : SameOn P g g') (h' : SameOn P g' g'') : SameOn P g g'' where
  disk ino hino := (h'.disk ino hino).trans (h.disk ino hino)
  inum j := (h'.inum j).trans (h.inum j)
  slot j hj := (h'.slot j (h.inum j ▸ hj)).trans (h.slot j hj)
  ip f := (h'.ip f).trans (h.ip f)
  file f j hf hj := (h'.file f j (h.ip f ▸ hf) (h.inum j ▸ hj)).trans (h.file f j hf hj)

/-- A slot of another inode. -/
theorem setInode_apart (hnd : nd.inum = (g.itable j).inum)
    (h : ¬ P (g.itable j).inum) : SameOn P g (g.setInode j nd) := by
  refine ⟨fun _ _ => rfl, fun i => ?_, fun i hi => if_neg ?_, fun _ => rfl, fun _ _ _ _ => rfl⟩
  · simp only [Glob.setInode]
    split
    · next hij => rw [hij, hnd]
    · rfl
  · rintro rfl
    exact h hi

theorem setDisk_apart (h : ¬ P ino) : SameOn P g (g.setDisk ino d) := by
  refine { SameOn.refl P g with disk := fun i hi => if_neg ?_ }
  rintro rfl
  exact h hi

theorem SameOn.setInode (h : SameOn P g g') (hnd : nd.inum = (g.itable j).inum) :
    SameOn P (g.setInode j nd) (g'.setInode j nd) := by
  have hsame : ∀ i, ((g.setInode j nd).itable i).inum = (g.itable i).inum := by
    intro i
    simp only [Glob.setInode]
    split
    · next hij => rw [hij, hnd]
    · rfl
  refine ⟨h.disk, fun i => ?_, fun i hi => ?_, h.ip, fun f i hf hi =>
    h.file f i hf (hsame i ▸ hi)⟩
  · simp only [Glob.setInode]
    split
    · rfl
    · exact h.inum i
  rw [hsame] at hi
  simp only [Glob.setInode]
  split
  · rfl
  · exact h.slot i hi

theorem SameOn.setDisk (h : SameOn P g g') (ino : Nat) (d : Dinode) :
    SameOn P (g.setDisk ino d) (g'.setDisk ino d) := by
  refine { h with disk := fun i hi => ?_ }
  simp only [Glob.setDisk]
  split
  · rfl
  · exact h.disk i hi

/-- iput frees the inode of its slot, and only one without links. -/
theorem iput_linked (h : (g.disk ino).nlink ≠ 0) : (iput g j).disk ino = g.disk ino := by
  simp only [iput]
  split
  · next hc =>
    have hne : ino ≠ (g.itable j).inum := by
      rintro rfl
      exact h hc.2.2
    simp only [Glob.setInode, Glob.setDisk, itrunc, if_neg hne]
  · rfl

theorem iput_apart (h : ¬ P (g.itable j).inum) : SameOn P g (iput g j) := by
  simp only [iput]
  split
  · exact ((setDisk_apart h).trans (setDisk_apart h)).trans (setInode_apart rfl h)
  · exact setInode_apart rfl h

/-- The slot is put in both states. -/
theorem SameOn.iput (h : SameOn P g g') (j : Nat) : SameOn P (iput g j) (iput g' j) := by
  by_cases hP : P (g.itable j).inum
  · have hslot := h.slot j hP
    have hd : g'.dinode j = g.dinode j := by
      unfold Glob.dinode
      rw [hslot]
      exact h.disk _ hP
    have htrunc : SameOn P (itrunc g j) (itrunc g' j) := by
      simp only [itrunc, hd, hslot]
      exact h.setDisk _ _
    have hd' : (itrunc g' j).dinode j = (itrunc g j).dinode j := by
      have hdisk := htrunc.disk _ hP
      simp only [itrunc, Glob.dinode, Glob.setDisk, hslot] at hdisk ⊢
      exact hdisk
    simp only [Model.iput, hslot, hd, hd']
    split
    · exact (htrunc.setDisk _ _).setInode rfl
    · exact h.setInode rfl
  · exact (iput_apart hP).symm.trans (h.trans (iput_apart ((h.inum j).symm ▸ hP)))

/-- A file that is open on another inode. -/
theorem setFile_apart {fl : File} (hip : fl.ip = (g.ftable f).ip)
    (h : ∀ j, (g.ftable f).ip = some j → ¬ P (g.itable j).inum) : SameOn P g (g.setFile f fl) := by
  refine ⟨fun _ _ => rfl, fun _ => rfl, fun _ _ => rfl, fun f' => ?_, fun f' j hf' hj => if_neg ?_⟩
  · simp only [Glob.setFile]
    split
    · next heq => rw [heq, hip]
    · rfl
  · rintro rfl
    exact h j hf' hj

theorem SameOn.setFile (h : SameOn P g g') (f : Nat) (fl : File) :
    SameOn P (g.setFile f fl) (g'.setFile f fl) := by
  refine ⟨h.disk, h.inum, h.slot, fun f' => ?_, fun f' j hf' hj => ?_⟩
  · simp only [Glob.setFile]
    split
    · rfl
    · exact h.ip f'
  simp only [Glob.setFile] at hf' ⊢
  split
  · rfl
  · next hne =>
    rw [if_neg hne] at hf'
    exact h.file f' j hf' hj

theorem pipeclose_sameOn {pi : Nat} {w : Bool} (h : pipeclose g pi w = .ok g') : SameOn P g g' := by
  rcases pipeclose_cases h with ⟨_, rfl | ⟨_, _, rfl⟩⟩
  · exact { SameOn.refl P g with }
  · exact { SameOn.refl P g with }

theorem fileclose_linked (h : (g.disk ino).nlink ≠ 0)
    (hc : fileclose g f = .ok g') : g'.disk ino = g.disk ino := by
  cases fileclose_closed hc with
  | more => rfl
  | inode => exact iput_linked h
  | pipe _ _ hclose =>
    exact (pipeclose_sameOn (P := fun _ => True) hclose).disk ino trivial
  | none => rfl

theorem fileclose_apart (h : ∀ j, (g.ftable f).ip = some j → ¬ P (g.itable j).inum)
    (hc : fileclose g f = .ok g') : SameOn P g g' := by
  have hset : ∀ n t, SameOn P g (g.setFile f { g.ftable f with ref := n, type := t }) :=
    fun _ _ => setFile_apart rfl h
  cases fileclose_closed hc with
  | more => exact hset _ _
  | inode _ _ hip => exact (hset _ _).trans (iput_apart (h _ hip))
  | pipe _ _ hclose => exact (hset _ _).trans (pipeclose_sameOn hclose)
  | none => exact hset _ _

/-- The file is closed in both states. -/
theorem SameOn.fileclose (h : SameOn P g g') (hc : fileclose g f = .ok g1)
    (hc' : fileclose g' f = .ok g1') : SameOn P g1 g1' := by
  by_cases hon : ∃ j, (g.ftable f).ip = some j ∧ P (g.itable j).inum
  · -- the entries are equal, so both calls go the same way
    obtain ⟨j, hj, hP⟩ := hon
    simp only [Model.fileclose, h.file f j hj hP] at hc hc'
    generalize g.ftable f = fl at hc hc'
    split at hc
    · cases hc
    · next href =>
      rw [if_neg href] at hc'
      split at hc
      · next hmore =>
        rw [if_pos hmore] at hc'
        cases hc
        cases hc'
        exact h.setFile f _
      · next hmore =>
        rw [if_neg hmore] at hc'
        have hshut := h.setFile f { fl with ref := 0, type := .none }
        obtain ⟨type, _, _, _, _, ip, _, _⟩ := fl
        cases type with
        | pipe =>
          exact (pipeclose_sameOn hc).symm.trans (hshut.trans (pipeclose_sameOn hc'))
        | none =>
          cases hc
          cases hc'
          exact hshut
        | _ =>
          cases ip with
          | none => cases hc
          | some ip =>
            cases hc
            cases hc'
            exact hshut.iput ip
  · have hne : ∀ j, (g.ftable f).ip = some j → ¬ P (g.itable j).inum :=
      fun j hj hP => hon ⟨j, hj, hP⟩
    exact (fileclose_apart hne hc).symm.trans (h.trans (fileclose_apart
      (fun j hj => (h.inum j).symm ▸ hne j (h.ip f ▸ hj)) hc'))

-- == kexit

theorem exitFds_linked (h : (g.disk ino).nlink ≠ 0) (hc : forUpto exitFd n (p, g) = .ok q) :
    q.2.disk ino = g.disk ino := by
  refine forUpto_inv (fun _ t => t.2.disk ino = g.disk ino) rfl ?_ hc
  rintro fd _ ⟨t, gt⟩ t' hP hturn
  simp only [exitFd] at hturn
  split at hturn
  · cases hturn
    exact hP
  · obtain ⟨g1, hclose, hturn⟩ := bind_ok hturn
    cases hturn
    rw [← hP] at h
    exact (fileclose_linked h hclose).trans hP

theorem exitFds_sameOn {q' : Proc × Glob} (h : SameOn P g g')
    (hof : p'.ofile = p.ofile) (hc : forUpto exitFd n (p, g) = .ok q)
    (hc' : forUpto exitFd n (p', g') = .ok q') : SameOn P q.2 q'.2 := by
  induction n generalizing q q' with
  | zero =>
    cases hc
    cases hc'
    exact h
  | succ n ih =>
    obtain ⟨⟨t, gt⟩, hrun, hc⟩ := bind_ok hc
    obtain ⟨⟨t', gt'⟩, hrun', hc'⟩ := bind_ok hc'
    have hP := ih hrun hrun'
    have ht : t = p.dropFds n := exitFds_frame hrun
    have ht' : t' = p'.dropFds n := exitFds_frame hrun'
    have hfd : t.ofile n = p.ofile n := by
      rw [ht]
      exact if_neg (Nat.lt_irrefl n)
    have hfd' : t'.ofile n = p.ofile n := by
      rw [ht', ← hof]
      exact if_neg (Nat.lt_irrefl n)
    simp only [exitFd, hfd, hfd'] at hc hc'
    cases hf : p.ofile n with
    | none =>
      rw [hf] at hc hc'
      cases hc
      cases hc'
      exact hP
    | some f =>
      rw [hf] at hc hc'
      obtain ⟨g1, hclose, hc⟩ := bind_ok hc
      obtain ⟨g1', hclose', hc'⟩ := bind_ok hc'
      cases hc
      cases hc'
      exact hP.fileclose hclose hclose'

theorem exitSelf_linked (h : (g.disk ino).nlink ≠ 0) (hx : exitSelf p g status = .ok (p', g')) :
    g'.disk ino = g.disk ino := by
  obtain ⟨g1, c, p2, h1, _, h2, _⟩ := exitSelf_ok hx
  have hfd : g1.disk ino = g.disk ino := exitFds_linked h h1
  rw [(exitVmas_frame h2).2.disk, iput_linked (hfd ▸ h), hfd]

/-- Every file is the same, and those in `P` are used by the same slots and
open files. -/
structure Calm (P : Nat → Prop) (g g' : Glob) : Prop where
  same : ∀ ino, (g.disk ino).Same (g'.disk ino)
  sameOn : SameOn P g g'

theorem Calm.refl (P : Nat → Prop) (g : Glob) : Calm P g g := ⟨fun _ => .of_eq rfl, .refl P g⟩

theorem Calm.trans (h : Calm P g g') (h' : Calm P g' g'') : Calm P g g'' :=
  ⟨fun ino => (h.same ino).trans (h'.same ino), h.sameOn.trans h'.sameOn⟩

/-- kexit of two processes with the same descriptors and directory, where
the files without links are used alike. -/
theorem Calm.exitSelf {q q' : Proc} (h : Calm (fun ino => (g.disk ino).nlink = 0) g g')
    (hof : p'.ofile = p.ofile) (hcwd : p'.cwd = p.cwd) (hx : exitSelf p g status = .ok (q, g1))
    (hx' : exitSelf p' g' status = .ok (q', g1')) (ino : Nat) :
    (g1.disk ino).Same (g1'.disk ino) := by
  by_cases h0 : (g.disk ino).nlink = 0
  · obtain ⟨g2, c, p2, hfd, hc, hvm, _⟩ := exitSelf_ok hx
    obtain ⟨g2', c', p2', hfd', hc', hvm', _⟩ := exitSelf_ok hx'
    cases (hcwd.symm.trans hc').symm.trans hc
    have hend := (exitFds_sameOn h.sameOn hof hfd hfd').iput c
    rw [(exitVmas_frame hvm).2.disk, (exitVmas_frame hvm').2.disk]
    exact .of_eq (hend.disk ino h0)
  · rw [exitSelf_linked h0 hx, exitSelf_linked ((h.same ino).nlink.trans_ne h0) hx']
    exact h.same ino

-- == sys_munmap

theorem ilock_apart (h : ¬ P (g.itable ip).inum) (hl : ilock g ip = .ok g') : SameOn P g g' := by
  simp only [ilock] at hl
  split at hl
  · cases hl
  split at hl
  · cases hl
    exact .refl P g
  · split at hl
    · cases hl
    · cases hl
      exact setInode_apart rfl h

theorem writei_apart {off room : Nat} {src : Nat → UInt8} (h : ¬ P (g.itable ip).inum) :
    SameOn P g (writei g ip src off n room).2 := by
  simp only [writei]
  split
  · exact .refl P g
  · split
    · exact .refl P g
    · exact setDisk_apart h

theorem writeBackPage_apart {o : Glob ⊕ Glob} {k : Nat}
    {ip : Option Nat} (h : ∀ a, ip = some a → ¬ P (g.itable a).inum)
    (hw : writeBackPage p v ip hi lo k g = .ok o) : SameOn P g (o.elim id id) := by
  obtain ⟨o1, _, hw⟩ := bind_ok hw
  cases o1 with
  | none =>
    cases hw
    exact .refl P g
  | some e =>
    cases ip with
    | none => cases hw
    | some a =>
      dsimp only at hw
      split at hw
      · cases hw
        exact .refl P g
      · obtain ⟨g1, hlock, hw⟩ := bind_ok hw
        cases hw
        have hl := ilock_apart (h a rfl) hlock
        exact hl.trans (writei_apart ((hl.inum a).symm ▸ h a rfl))

/-- The write-back touches the file of the mapping only. -/
theorem writeBack_apart (h : ∀ ip, g.vmaIp v = some ip → ¬ P (g.itable ip).inum)
    (hw : writeBack p g v lo hi = .ok g') : SameOn P g g' := by
  simp only [writeBack] at hw
  split at hw
  · obtain ⟨o, ho, hw⟩ := bind_ok hw
    have hloop := Ensures.forRet (fun _ t => SameOn P g t) (SameOn P g)
      (.refl P g) (fun _ _ t hP o hk => by
        have hpage := hP.trans (writeBackPage_apart (fun a ha => (hP.inum a).symm ▸ h a ha) hk)
        cases o <;> exact hpage) o ho
    cases o <;> cases hw <;> exact hloop
  · cases hw
    exact .refl P g

/-- Writing bytes that are there already. -/
theorem WrittenAt.same {w : Nat → Nat} (h : WrittenAt w p g ip lo hi d)
    (hin : ∀ va b, lo ≤ va → va < hi → memAt p g va = some b →
      w va < (g.dinode ip).size → (g.dinode ip).data (w va) = b)
    {pos : Nat} (hpos : pos < (g.dinode ip).size) : d.data pos = (g.dinode ip).data pos := by
  by_cases hex : ∃ va b, lo ≤ va ∧ va < hi ∧ memAt p g va = some b ∧ w va = pos
  · obtain ⟨va, b, hlo, hhi, hb, rfl⟩ := hex
    rw [h.range va b hlo hhi hb hpos, hin va b hlo hhi hb hpos]
  · refine h.rest pos hpos fun va hlo hhi hw => ?_
    cases hb : memAt p g va with
    | none => rfl
    | some b => exact absurd ⟨va, b, hlo, hhi, hb, hw⟩ hex

/-- A mapping of a file that has a link, at positions that fit in a uint. -/
structure Vma.Linked (v : Vma) (g : Glob) (f ip : Nat) : Prop where
  file : v.file = some f
  onIp : (g.ftable f).ip = some ip
  nlink : (g.dinode ip).nlink ≠ 0
  size : (g.dinode ip).size ≤ maxFile * bsize
  fits : v.offset + (v.stop - v.start) ≤ 2 ^ 32

theorem Vma.Linked.calm (h : v.Linked g f ip) (hc : Calm P g g') : v.Linked g' f ip := by
  have hd : (g.dinode ip).Same (g'.dinode ip) := by
    unfold Glob.dinode
    rw [hc.sameOn.inum]
    exact hc.same _
  exact ⟨h.file, (hc.sameOn.ip f).trans h.onIp, hd.nlink.trans_ne h.nlink,
    hd.size.trans_le h.size, h.fits⟩

/-- A byte of a resident page of a writable shared mapping, at a position
below the size of its file. -/
def Proc.MapByte (p : Proc) (g : Glob) (ip pos : Nat) (b : UInt8) : Prop :=
  ∃ s f va, s < nvma ∧ (p.vma s).valid = true
    ∧ hasBit (p.vma s).flags mapShared = true
    ∧ hasBit (p.vma s).prot protWrite = true ∧ (p.vma s).file = some f
    ∧ (g.ftable f).ip = some ip ∧ (p.vma s).start ≤ va ∧ va < (p.vma s).stop
    ∧ memAt p g va = some b ∧ (p.vma s).fileOff va = pos
    ∧ pos < (g.dinode ip).size

/-- The bytes that the process has in its mappings are in the files of
`g'`. -/
def InFiles (p : Proc) (g g' : Glob) : Prop :=
  ∀ ip pos b, p.MapByte g ip pos b →
    pos < (g'.disk (g.itable ip).inum).size ∧ (g'.disk (g.itable ip).inum).data pos = b

/-- The write-back of a mapping whose bytes are in the file. -/
theorem writeBack_calm (hok : VmaOk p.curVmaStart (p.vma s)) (hs : s < nvma)
    (hv : (p.vma s).valid = true) (htop : p.curVmaStart < mmapTop)
    (hlink : (p.vma s).Linked g f ip) (hin : InFiles p g g)
    (hP : ∀ ino, P ino → (g.disk ino).nlink = 0)
    (hwb : writeBack p g (p.vma s) (p.vma s).start (p.vma s).stop = .ok g') : Calm P g g' := by
  have hvip : g.vmaIp (p.vma s) = some ip := by
    rw [Glob.vmaIp, hlink.file]
    exact hlink.onIp
  have hapart : ∀ {Q : Nat → Prop}, ¬ Q (g.itable ip).inum → SameOn Q g g' :=
    fun hQ => writeBack_apart (fun a ha => by
      cases hvip.symm.trans ha
      exact hQ) hwb
  refine ⟨fun ino => ?_, hapart fun h => hlink.nlink (hP _ h)⟩
  by_cases hino : (g.itable ip).inum = ino
  · subst hino
    by_cases hc : ((p.vma s).isShared && hasBit (p.vma s).prot protWrite) = true
    · obtain ⟨hsh, hw⟩ := Bool.and_eq_true_iff.mp hc
      have hle := hok.le_cur
      have hlt := hok.lt
      have hdown : pgRoundDown (p.vma s).stop = (p.vma s).stop :=
        pgRoundDown_of_aligned hok.stop_mod
      have htop' : mmapTop = 2 ^ 31 := rfl
      obtain ⟨hon, hback, _⟩ := writeBack_bytes hsh hw hvip hok.start_mod
        hlt.le (by omega) hlink.size hwb
      rw [hdown] at hback
      have hd : g'.disk (g.itable ip).inum = g'.dinode ip := by
        rw [Glob.dinode, hon.inum]
      rw [hd]
      refine ⟨?_, hon.size, fun pos hpos => hback.same ?_ hpos⟩
      · rw [hon.dinode]
        rfl
      intro va b hlo hhi hb hlow
      have hw' : (p.vma s).writePos va = (p.vma s).fileOff va := by
        have hfit := hlink.fits
        have hmod := hok.start_mod
        unfold Vma.writePos Vma.fileOff pgRoundDown u32 u64
        unfold pgSize at *
        omega
      rw [hw'] at hlow ⊢
      refine (hin ip _ b ⟨s, f, va, hs, hv, ?_, hw, hlink.file, hlink.onIp,
        hlo, hhi, hb, rfl, hlow⟩).2
      exact (Bool.and_eq_true_iff.mp hsh).1
    · simp only [writeBack, if_neg hc] at hwb
      cases hwb
      exact .of_eq rfl
  · exact .of_eq ((hapart (Q := (· = ino)) hino).disk ino rfl)

theorem closeWhole_calm (hlink : v.Linked g f ip) (hP : ∀ ino, P ino → (g.disk ino).nlink = 0)
    (h : closeWhole g v lo hi = .ok g') : Calm P g g' := by
  rcases closeWhole_cases h with ⟨_, rfl⟩ | ⟨_, f', hf', hc⟩
  · exact .refl P _
  cases hlink.file.symm.trans hf'
  have hapart : ∀ {Q : Nat → Prop}, ¬ Q (g.itable ip).inum →
      SameOn Q g g' := fun hQ => fileclose_apart (fun j hj => by
    cases hlink.onIp.symm.trans hj
    exact hQ) hc
  refine ⟨fun ino => .of_eq ?_, hapart fun h => hlink.nlink (hP _ h)⟩
  by_cases h0 : (g.disk ino).nlink = 0
  · exact (hapart (Q := fun i => (g.disk i).nlink = 0) hlink.nlink).disk ino h0
  · exact fileclose_linked h0 hc

/-- sys_munmap of a whole mapping whose bytes are in the file. -/
theorem Layout.munmap_calm (hl : Layout p) (hs : s < nvma)
    (hv : (p.vma s).valid = true) (hn : 0 < n)
    (hstop : (p.vma s).stop = (p.vma s).start + n * pgSize)
    (hlink : (p.vma s).Linked g f ip) (hin : InFiles p g g)
    (hP : ∀ ino, P ino → (g.disk ino).nlink = 0)
    (hm : sysMunmap p g (p.vma s).start (n * pgSize : Nat) = .ok (0, p', g')) : Calm P g g' := by
  obtain ⟨hu, hhold, -⟩ := sysMunmap_process hl hs hv hn (Nat.le_refl _) hstop.ge hm
  rcases sysMunmap_cases hm with
    ⟨_, _, hr⟩ | ⟨j, p1, g1, g2, _, hj, hwb, hloop, hclose, _⟩
  · cases hr
  rw [hu, ← hstop] at hj hwb hloop hclose
  rw [← hstop] at hhold
  cases hhold.symm.trans hj
  have hwrite := writeBack_calm (hl.ok s hs hv) hs hv hl.cur_top hlink hin hP hwb
  have hq := (munmapPages_frame hloop).2
  have hit := munmapPages_itable hloop
  have hpages : Calm P g1 g2 :=
    ⟨fun _ => .of_eq (by rw [hq.disk]), fun _ _ => by rw [hq.disk],
      fun _ => by rw [hit], fun _ _ => by rw [hit],
      fun _ => by rw [hq.ftable], fun _ _ _ _ => by rw [hq.ftable]⟩
  have hmid := hwrite.trans hpages
  exact hmid.trans (closeWhole_calm (hlink.calm hmid)
    (fun ino hino => (hmid.same ino).nlink.trans (hP ino hino)) hclose)

/-- The process after sys_munmap of a whole mapping. -/
theorem Layout.munmap_rest (hl : Layout p) (hs : s < nvma)
    (hv : (p.vma s).valid = true) (hn : 0 < n)
    (hstop : (p.vma s).stop = (p.vma s).start + n * pgSize)
    (hm : sysMunmap p g (p.vma s).start (n * pgSize : Nat) = .ok (0, p', g')) :
    (∃ pagetable vma, p' = { p with pagetable, vma })
      ∧ (∀ t, (p'.vma t).valid = true → t ≠ s ∧ p'.vma t = p.vma t)
      ∧ ∀ m e, p'.pagetable.entry m = some e → p.pagetable.entry m = some e := by
  obtain ⟨-, -, -, hvma, hent⟩ := sysMunmap_process hl hs hv hn (Nat.le_refl _) hstop.ge hm
  refine ⟨?_, fun t ht => ?_, fun m e he => ?_⟩
  · rcases sysMunmap_cases hm with
      ⟨_, _, hr⟩ | ⟨j, p1, _, _, _, _, _, hloop, _, rfl⟩
    · cases hr
    · obtain ⟨⟨pt, hp1⟩, _⟩ := munmapPages_frame hloop
      dsimp only at hp1
      rw [hp1]
      exact ⟨_, _, rfl⟩
  · rw [hvma] at ht ⊢
    simp only [Proc.setVma] at ht ⊢
    by_cases hts : t = s
    · rw [if_pos hts, shrink, if_pos ⟨rfl, hstop⟩] at ht
      cases ht
    · exact ⟨hts, if_neg hts⟩
  · rw [hent] at he
    split at he
    · cases he
    · exact he

-- == the two runs

/-- A process unmaps each of its mappings, in the order of the slots. -/
def munmapAll (k : Kernel) (i : Nat) : Except Panic Kernel :=
  forUpto (fun s k =>
    let v := (k.proc i).vma s
    if v.valid then step k i (.munmap (.ofNat v.start) (.ofInt v.len))
    else .ok k) nvma k

/-- A process in a kernel that keeps its books: each of its mappings is of
a file with a link, with nothing mapped on the page behind it. -/
structure ExitLinked (k : Kernel) (i : Nat) : Prop where
  tallied : Tallied k
  coherent : Coherent k
  lt : i < nproc
  live : (k.proc i).isLive = true
  trapframe : ∀ e, (k.proc i).pagetable.leaf tfPage = some e → e.pa = (k.proc i).trapframe
  trampoline : ∀ e, (k.proc i).pagetable.leaf trampPage = some e →
    e.pa < k.glob.phys.kend ∧ e.pa % pgSize = 0
  linked : ∀ s, s < nvma → ((k.proc i).vma s).valid = true →
    ∃ f ip, ((k.proc i).vma s).Linked k.glob f ip
  clear : ∀ s, s < nvma → ((k.proc i).vma s).valid = true →
    (k.proc i).pagetable.leaf (((k.proc i).vma s).stop / pgSize) = none

/-- The range of a whole mapping, as the arguments of the call. -/
theorem Layout.whole (hl : Layout p) (hs : s < nvma)
    (hv : (p.vma s).valid = true) : ∃ n, 0 < n ∧ (p.vma s).stop = (p.vma s).start + n * pgSize
      ∧ (p.vma s).stop < 2 ^ 31 ∧ (UInt64.ofNat (p.vma s).start).toNat = (p.vma s).start
      ∧ (Int32.ofInt (p.vma s).len).toInt = (n * pgSize : Nat) := by
  have hok := hl.ok s hs hv
  have hmod := hok.start_mod
  have hmod' := hok.stop_mod
  have hlt := hok.lt
  have hle := hok.le_cur
  have htop := hl.cur_top
  have htop' : mmapTop = 2 ^ 31 := rfl
  refine ⟨((p.vma s).stop - (p.vma s).start) / pgSize, ?_, ?_, by omega,
    UInt64.toNat_ofNat_of_lt' (show _ < 2 ^ 64 by omega), ?_⟩
  · unfold pgSize at *
    omega
  · unfold pgSize at *
    omega
  · rw [hok.len, Int32.toInt_ofInt_of_le (by omega) (by omega)]
    unfold pgSize at *
    omega

theorem sysMunmap_found {addr r : Nat} {len : Int} (hlen : len ≠ 0)
    (hhold : vmaHolding p addr (u64 (addr + len)) = some i)
    (h : sysMunmap p g addr len = .ok (r, p', g')) : r = 0 := by
  simp only [sysMunmap, if_neg hlen, hhold] at h
  obtain ⟨g1, _, h⟩ := bind_ok h
  obtain ⟨⟨p1, g2⟩, _, h⟩ := bind_ok h
  obtain ⟨g3, _, h⟩ := bind_ok h
  cases h
  rfl

theorem ExitLinked.munmap (h : ExitLinked k i) (hs : s < nvma)
    (hv : ((k.proc i).vma s).valid = true) (hin : InFiles (k.proc i) k.glob k.glob)
    (hP : ∀ ino, P ino → (k.glob.disk ino).nlink = 0)
    (hstep : step k i (.munmap (.ofNat ((k.proc i).vma s).start)
      (.ofInt ((k.proc i).vma s).len)) = .ok k') :
    ExitLinked k' i ∧ InFiles (k'.proc i) k'.glob k'.glob
      ∧ Calm P k.glob k'.glob ∧ (k'.proc i).ofile = (k.proc i).ofile
      ∧ (k'.proc i).cwd = (k.proc i).cwd := by
  have hl := h.tallied.layout h.live
  obtain ⟨n, hn, hstop, htop, haddr, hlen⟩ := hl.whole hs hv
  have hok := hl.ok s hs hv
  have hspace := h.tallied.ownSpace h.coherent h.lt h.live h.trapframe h.trampoline
  have hleaf := hspace.fits.table.entry_eq
  have hu : u64 ((((k.proc i).vma s).start : Int) + (n * pgSize : Nat))
      = ((k.proc i).vma s).stop := u64_of_lt (by omega) (by omega)
  have hhold := hl.holding hs hv (Nat.le_refl _) (Nat.le_refl _) hok.lt
  have htidy : Tidy k i (.munmap (.ofNat ((k.proc i).vma s).start)
      (.ofInt ((k.proc i).vma s).len)) := by
    show MunmapTidy _ _ _
    rw [haddr, hlen]
    refine ⟨hok.start_mod, ?_, ?_, by omega, fun j hj hend hsome => ?_⟩
    · unfold pgSize
      omega
    · unfold pgSize
      omega
    · rw [hu] at hj
      cases hhold.symm.trans hj
      rw [h.clear s hs hv] at hsome
      cases hsome
  obtain ⟨htally, hstepped⟩ := step_tallied h.tallied h.lt h.live htidy hstep
  obtain ⟨⟨r, p', g'⟩, hm, hk'⟩ := bind_ok hstep
  cases hk'
  rw [haddr, hlen] at hm
  cases sysMunmap_found (by unfold pgSize; omega) (hu ▸ hhold) hm
  obtain ⟨f, ip, hlink⟩ := h.linked s hs hv
  have hcalm := hl.munmap_calm hs hv hn hstop hlink hin hP hm
  obtain ⟨⟨pt, vma, hp'⟩, hvma, hent⟩ := hl.munmap_rest hs hv hn hstop hm
  have hself : (k.put i (p', g')).proc i = p' := Kernel.put_self ..
  have hlive : p'.isLive = true := by
    rw [hp']
    exact h.live
  have hsub : ∀ m e, p'.pagetable.leaf m = some e → (k.proc i).pagetable.leaf m = some e := by
    have hfits := htally.fits h.lt (hself.symm ▸ hlive)
    rw [hself] at hfits
    rw [← hfits.table.entry_eq, ← hleaf]
    exact hent
  rw [hself]
  refine ⟨⟨htally, hstepped.coherent htally h.coherent, h.lt, ?_, ?_, ?_, ?_,
    ?_⟩, ?_, hcalm, ?_, ?_⟩
  · rw [hself]
    exact hlive
  · rw [hself]
    intro e he
    rw [h.trapframe e (hsub _ _ he), hp']
  · rw [hself]
    intro e he
    rw [show (k.put i (p', g')).glob = g' from rfl, (sysMunmap_keeps _ hm).kend]
    exact h.trampoline e (hsub _ _ he)
  · rw [hself]
    intro t ht hvt
    obtain ⟨-, heq⟩ := hvma t hvt
    obtain ⟨f', ip', hlink'⟩ := h.linked t ht (heq ▸ hvt)
    exact ⟨f', ip', heq ▸ hlink'.calm hcalm⟩
  · rw [hself]
    intro t ht hvt
    obtain ⟨-, heq⟩ := hvma t hvt
    rw [heq] at hvt ⊢
    cases he : p'.pagetable.leaf (((k.proc i).vma t).stop / pgSize) with
    | none => rfl
    | some e =>
      have := hsub _ _ he
      rw [h.clear t ht hvt] at this
      cases this
  · rintro ip' pos b ⟨t, f', va, ht, hvt, hsh, hw, hf, hip, hlo, hhi, hb, hoff, hpos⟩
    obtain ⟨hts, heq⟩ := hvma t hvt
    rw [heq] at hvt hsh hw hf hlo hhi hoff
    have hd : (k.glob.disk (k.glob.itable ip').inum).Same (g'.disk (g'.itable ip').inum) := by
      rw [hcalm.sameOn.inum]
      exact hcalm.same _
    have hout : va < ((k.proc i).vma s).start ∨ ((k.proc i).vma s).start + n * pgSize ≤ va := by
      have := hl.disjoint s t hs ht hts.symm hv hvt
      omega
    have hmem : memAt p' g' va = memAt (k.proc i) k.glob va := by
      obtain ⟨hentry, hbytes⟩ := hspace.munmap_spares hs hv
        (fun f _ => h.tallied.pipes f) hok.start_mod hn (Nat.le_refl _)
        hstop.ge hm (by
          rw [hleaf, ← page_add, ← hstop]
          exact h.clear s hs hv) hout
      unfold memAt
      rw [hentry]
      exact Option.map_congr fun e he => hbytes e he
    obtain ⟨hlt, hdata⟩ := hin ip' pos b ⟨t, f', va, ht, hvt, hsh, hw, hf,
      (hcalm.sameOn.ip f').symm.trans hip, hlo, hhi, hmem ▸ hb, hoff, hd.size.symm ▸ hpos⟩
    exact ⟨hd.size.symm ▸ hlt, (hd.data pos hlt).trans hdata⟩
  · rw [hp']
  · rw [hp']

/-- The whole run of sys_munmaps, for a process whose bytes are in the
files. -/
theorem ExitLinked.munmapAll (h : ExitLinked k i) (hin : InFiles (k.proc i) k.glob k.glob)
    (hP : ∀ ino, P ino → (k.glob.disk ino).nlink = 0) (hall : munmapAll k i = .ok k') :
    Calm P k.glob k'.glob ∧ (k'.proc i).ofile = (k.proc i).ofile
      ∧ (k'.proc i).cwd = (k.proc i).cwd := by
  refine (forUpto_inv (fun _ t => ExitLinked t i
    ∧ InFiles (t.proc i) t.glob t.glob ∧ Calm P k.glob t.glob
    ∧ (t.proc i).ofile = (k.proc i).ofile ∧ (t.proc i).cwd = (k.proc i).cwd)
    ⟨h, hin, .refl P _, rfl, rfl⟩ ?_ hall).2.2
  rintro s hs t t' ⟨hready, hint, hcalm, hof, hcwd⟩ hturn
  dsimp only at hturn
  split at hturn
  · next hv =>
    obtain ⟨hready', hin', hcalm', hof', hcwd'⟩ := hready.munmap hs hv hint
      (fun ino hino => (hcalm.same ino).nlink.trans (hP ino hino)) hturn
    exact ⟨hready', hin', hcalm.trans hcalm', hof'.trans hof, hcwd'.trans hcwd⟩
  · cases hturn
    exact ⟨hready, hint, hcalm, hof, hcwd⟩

set_option maxRecDepth 10000

/-- A mapped file whose last name is gone: the exit keeps it, since the
reference of the mapping stays; sys_munmap and the exit free it. -/
theorem exit_keeps_unlinked : ∃ k k' k₁ k₂,
    runAs bootKernel 1 [.openFile (some [47, 115, 104]) 0 0,
        .mmap 0 4096 1 1 2 0, .close 2, .unlink (some [47, 115, 104])] = .ok k
      ∧ kexit k 1 0 = .ok k' ∧ (k'.glob.disk 4).size = 64
      ∧ munmapAll k 1 = .ok k₁ ∧ kexit k₁ 1 0 = .ok k₂ ∧ (k₂.glob.disk 4).size = 0 :=
  ⟨_, _, _, _, rfl, rfl, rfl, rfl, rfl, rfl⟩

end Xv6Labs.Model
