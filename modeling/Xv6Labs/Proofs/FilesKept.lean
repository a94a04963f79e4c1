/-
The calls on files, seen from memory: they move no page and touch no entry
of the registry, as long as no file is a pipe, and an open file keeps its
inode.
-/
import Xv6Labs.Proofs.FileRefs

namespace Xv6Labs.Model

open Lib

variable {g g' : Glob} {f r : Nat} {p p' : Proc}

variable {o : Option Nat} {v : Vma} {hi lo room : Nat} {fd : Int}
  {omode : UInt32}

/-- No open-file entry is or was last a pipe. -/
def NoPipes (g : Glob) : Prop := ∀ f, (g.ftable f).type ≠ .pipe

/-- Memory and registry are as before, no pipe came up, and every file of
`S` has the inode it had. -/
structure FilesKept (S : Nat → Prop) (g g' : Glob) : Prop where
  phys : g'.phys = g.phys
  shared : g'.shared = g.shared
  ip : ∀ f, S f → (g'.ftable f).ip = (g.ftable f).ip
  pipes : NoPipes g'

variable {S : Nat → Prop}

theorem FilesKept.refl (h : NoPipes g) : FilesKept S g g := ⟨rfl, rfl, fun _ _ => rfl, h⟩

theorem FilesKept.trans {g'' : Glob} (h : FilesKept S g g')
    (h' : FilesKept S g' g'') : FilesKept S g g'' :=
  ⟨h'.phys.trans h.phys, h'.shared.trans h.shared,
    fun f hf => (h'.ip f hf).trans (h.ip f hf), h'.pipes⟩

/-- A call on inodes. -/
theorem FsStep.kept {c : Nat → Int} (h : FsStep c g g') (hp : NoPipes g) : FilesKept S g g' :=
  ⟨h.phys, h.shared, fun f _ => by rw [h.ftable], fun f => by rw [h.ftable]; exact hp f⟩

theorem setFile_kept {fl : File} (hp : NoPipes g)
    (hip : S f → fl.ip = (g.ftable f).ip) (ht : fl.type ≠ .pipe) :
    FilesKept S g (g.setFile f fl) := by
  refine ⟨rfl, rfl, fun f' hf' => ?_, fun f' => ?_⟩
  · simp only [Glob.setFile]
    split
    · next heq =>
      subst heq
      exact hip hf'
    · rfl
  · simp only [Glob.setFile]
    split
    · exact ht
    · exact hp f'

theorem iput_kept (ip : Nat) (hp : NoPipes g) : FilesKept S g (iput g ip) := by
  obtain ⟨disk, valid, heq⟩ := iput_slot g ip
  rw [heq]
  exact ⟨rfl, rfl, fun _ _ => rfl, hp⟩

theorem idup_kept (ip : Nat) (hp : NoPipes g) : FilesKept S g (idup g ip) :=
  ⟨rfl, rfl, fun _ _ => rfl, hp⟩

theorem filedup_kept (hp : NoPipes g) (h : filedup g f = .ok g') : FilesKept S g g' := by
  obtain ⟨_, rfl⟩ := filedup_ok h
  exact setFile_kept hp (fun _ => rfl) (hp f)

theorem filedupOpt_kept (hp : NoPipes g) (h : filedupOpt g o = .ok g') : FilesKept S g g' := by
  cases o with
  | none =>
    cases h
    exact .refl hp
  | some f => exact filedup_kept hp h

theorem fileclose_kept (hp : NoPipes g) (h : fileclose g f = .ok g') : FilesKept S g g' := by
  have hset : FilesKept S g (g.setFile f { g.ftable f with ref := 0, type := .none }) :=
    setFile_kept hp (fun _ => rfl) (fun ht => by cases ht)
  cases fileclose_closed h with
  | more => exact setFile_kept hp (fun _ => rfl) (hp f)
  | inode => exact hset.trans (iput_kept _ hset.pipes)
  | pipe _ ht => exact absurd ht (hp f)
  | none => exact hset

theorem filealloc_kept (hp : NoPipes g) (h : filealloc g = some (f, g')) :
    FilesKept S g g' ∧ (g.ftable f).ref = 0 := by
  obtain ⟨_, hz, rfl⟩ := filealloc_some h
  exact ⟨setFile_kept hp (fun _ => rfl) (hp f), hz⟩

theorem closeWhole_kept (hp : NoPipes g)
    (h : closeWhole g v lo hi = .ok g') : FilesKept S g g' := by
  rcases closeWhole_cases h with ⟨_, rfl⟩ | ⟨_, f, _, hc⟩
  · exact .refl hp
  · exact fileclose_kept hp hc

theorem writeBack_kept (hp : NoPipes g) (h : writeBack p g v lo hi = .ok g') : FilesKept S g g' :=
  (writeBack_covers (fun _ => Int.le_refl _) h).2.kept hp

theorem exitFds_kept {n : Nat} {s s' : Proc × Glob} (hp : NoPipes s.2)
    (h : forUpto exitFd n s = .ok s') : FilesKept S s.2 s'.2 :=
  exitFds_inv (FilesKept S s.2) (.refl hp)
    (fun _ _ _ hk hc => hk.trans (fileclose_kept hk.pipes hc)) h

theorem forkRest_kept {np np' : Proc} {i : Nat} (hp : NoPipes g)
    (h : forkRest p np g i = .ok (np', g')) : FilesKept S g g' := by
  obtain ⟨c, g2, _, hk, rfl⟩ := forkRest_inv (FilesKept S g) (.refl hp)
    (fun t t' f hk hd => hk.trans (filedup_kept hk.pipes hd)) h
  exact hk.trans (idup_kept c hk.pipes)

-- == the calls

/-- Nothing of the process changed but its descriptors. -/
def OnlyOfile (p p' : Proc) : Prop := ∃ ofile, p' = { p with ofile }

theorem OnlyOfile.refl (p : Proc) : OnlyOfile p p := ⟨p.ofile, rfl⟩

theorem sysDup_kept (hp : NoPipes g) (h : sysDup p g fd = .ok (r, p', g')) :
    OnlyOfile p p' ∧ FilesKept S g g' := by
  rcases sysDup_cases h with ⟨rfl, rfl⟩ | ⟨f, fd', hfd, hd⟩
  · exact ⟨.refl _, .refl hp⟩
  · exact ⟨⟨_, (fdalloc_some hfd).2.2⟩, filedup_kept hp hd⟩

theorem sysClose_kept (hp : NoPipes g) (h : sysClose p g fd = .ok (r, p', g')) :
    OnlyOfile p p' ∧ FilesKept S g g' := by
  rcases sysClose_cases h with ⟨rfl, rfl⟩ | ⟨f, _, hc, rfl⟩
  · exact ⟨.refl _, .refl hp⟩
  · exact ⟨⟨_, rfl⟩, fileclose_kept hp hc⟩

theorem openFile_type (fl : File) (d : Dinode) (ip : Nat) (omode : UInt32) :
    (openFile fl d ip omode).type ≠ .pipe := by
  simp only [openFile]
  split <;> intro h <;> cases h

theorem openInode_kept {cwd : Option Nat} {path : List UInt8} (hp : NoPipes g)
    (h : openInode g cwd path omode room = .ok (o, g')) : FilesKept S g g' :=
  (openInode_covers (fun _ => Int.le_refl _) h).2.kept hp

/-- sys_open gives an inode only to an entry that was free. -/
theorem sysOpen_kept {path : Option (List UInt8)}
    (hp : NoPipes g) (h : sysOpen p g path omode room = .ok (r, p', g')) :
    OnlyOfile p p' ∧ FilesKept (fun f => (g.ftable f).ref ≠ 0) g g' := by
  cases sysOpen_opened h with
  | refused => exact ⟨.refl p, .refl hp⟩
  | missing ho => exact ⟨.refl p, openInode_kept hp ho⟩
  | unopened ho =>
    have hk := openInode_kept (S := fun f => (g.ftable f).ref ≠ 0) hp ho
    exact ⟨.refl p, hk.trans (iput_kept _ hk.pipes)⟩
  | full ho ha hc =>
    have hk1 := openInode_kept (S := fun f => (g.ftable f).ref ≠ 0) hp ho
    have hk2 := hk1.trans (filealloc_kept hk1.pipes ha).1
    have hk3 := hk2.trans (fileclose_kept hk2.pipes hc)
    exact ⟨.refl p, hk3.trans (iput_kept _ hk3.pipes)⟩
  | @opened _ _ ip f _ g1 g2 _ _ ho ha hfd hg =>
    have hk1 := openInode_kept (S := fun f => (g.ftable f).ref ≠ 0) hp ho
    obtain ⟨hk2, hz⟩ := filealloc_kept hk1.pipes ha
    rw [openInode_ftable ho] at hz
    -- the entry that gets the inode had no reference
    have hk3 := hk1.trans (hk2.trans (setFile_kept hk2.pipes (fun hne => absurd hz hne)
      (openFile_type (g2.ftable f) (g1.dinode ip) ip omode)))
    refine ⟨⟨_, (fdalloc_some hfd).2.2⟩, ?_⟩
    rcases hg with rfl | rfl
    · exact hk3
    · exact { hk3 with }

end Xv6Labs.Model
