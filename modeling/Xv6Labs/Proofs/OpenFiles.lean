/-
An open file stays the file it is.

Type, modes and inode of an entry are written only while it has no
references, and erased with the last one. So an entry that has references
before and after a call is the same file (`step_files`): every call first
opens (`Opens`) and then closes (`Closes`).
-/
import Xv6Labs.Proofs.FilesKept

namespace Xv6Labs.Model

open Lib

variable {t t' : Nat → File} {f i r : Nat} {g g' : Glob} {p p' : Proc}
  {fd : Int}
variable {t'' : Nat → File} {o : Option Nat} {addr : Nat} {len : Int} {k k' : Kernel}

-- == the relations

/-- What is fixed for the life of an open file. -/
def File.ident (fl : File) : FdType × Bool × Bool × Option Nat :=
  (fl.type, fl.readable, fl.writable, fl.ip)

/-- Files on inodes and devices have their inode. -/
def HasInode (t : Nat → File) : Prop :=
  ∀ f, (t f).type = .inode ∨ (t f).type = .device → (t f).ip.isSome = true

/-- Files are opened or duplicated. -/
structure Opens (t t' : Nat → File) : Prop where
  keep : ∀ f, 1 ≤ (t f).ref → (t' f).ident = (t f).ident ∧ 1 ≤ (t' f).ref
  inode : HasInode t → HasInode t'

/-- References are dropped. -/
structure Closes (t t' : Nat → File) : Prop where
  keep : ∀ f, 1 ≤ (t' f).ref → (t' f).ident = (t f).ident ∧ 1 ≤ (t f).ref
  inode : HasInode t → HasInode t'

theorem Opens.refl (t : Nat → File) : Opens t t := ⟨fun _ h => ⟨rfl, h⟩, id⟩

theorem Opens.trans (h : Opens t t') (h' : Opens t' t'') : Opens t t'' := by
  refine ⟨fun f hf => ?_, fun hi => h'.inode (h.inode hi)⟩
  obtain ⟨hid, href⟩ := h.keep f hf
  obtain ⟨hid', href'⟩ := h'.keep f href
  exact ⟨hid'.trans hid, href'⟩

theorem Closes.refl (t : Nat → File) : Closes t t := ⟨fun _ h => ⟨rfl, h⟩, id⟩

theorem Closes.trans (h : Closes t t') (h' : Closes t' t'') : Closes t t'' := by
  refine ⟨fun f hf => ?_, fun hi => h'.inode (h.inode hi)⟩
  obtain ⟨hid', href'⟩ := h'.keep f hf
  obtain ⟨hid, href⟩ := h.keep f href'
  exact ⟨hid'.trans hid, href⟩

/-- What a call does to the file table. -/
def FileStep (t t' : Nat → File) : Prop := ∃ m, Opens t m ∧ Closes m t'

theorem Opens.files (h : Opens t t') : FileStep t t' := ⟨t', h, .refl t'⟩

theorem Closes.files (h : Closes t t') : FileStep t t' := ⟨t, .refl t, h⟩

theorem FileStep.refl (t : Nat → File) : FileStep t t := (Opens.refl t).files

theorem FileStep.of_eq (h : t' = t) : FileStep t t' := h ▸ .refl t

theorem FileStep.keep (h : FileStep t t') (hf : 1 ≤ (t f).ref)
    (hf' : 1 ≤ (t' f).ref) : (t' f).ident = (t f).ident := by
  obtain ⟨m, ho, hc⟩ := h
  exact (hc.keep f hf').1.trans (ho.keep f hf).1

theorem FileStep.inode (h : FileStep t t') (hi : HasInode t) : HasInode t' := by
  obtain ⟨m, ho, hc⟩ := h
  exact hc.inode (ho.inode hi)

-- == files one by one

/-- An entry is rewritten that is new, or stays itself. -/
theorem setFile_opens {v : File} (h : Opens t g.ftable)
    (hself : 1 ≤ (t f).ref → v.ident = (t f).ident ∧ 1 ≤ v.ref)
    (hip : HasInode g.ftable → v.type = .inode ∨ v.type = .device →
      v.ip.isSome = true) : Opens t (g.setFile f v).ftable := by
  refine ⟨fun a ha => ?_, fun hi a hty => ?_⟩
  · simp only [Glob.setFile]
    split
    · next haf =>
      subst haf
      exact hself ha
    · exact h.keep a ha
  · simp only [Glob.setFile] at hty ⊢
    split at hty
    · next haf =>
      rw [if_pos haf]
      exact hip (h.inode hi) hty
    · next haf =>
      rw [if_neg haf]
      exact h.inode hi a hty

theorem filedup_opens (h : filedup g f = .ok g') : Opens g.ftable g'.ftable := by
  obtain ⟨_, rfl⟩ := filedup_ok h
  refine setFile_opens (.refl _) (fun hf => ⟨rfl, ?_⟩) fun hi hty => hi f hty
  show (1 : Int) ≤ (g.ftable f).ref + 1
  omega

theorem filedupOpt_opens (h : filedupOpt g o = .ok g') : Opens g.ftable g'.ftable := by
  cases o with
  | none =>
    cases h
    exact .refl _
  | some f => exact filedup_opens h

/-- filealloc takes an entry that had no reference. -/
theorem filealloc_opens (ht : Opens t g.ftable) (h : filealloc g = some (f, g')) :
    Opens t g'.ftable ∧ (t f).ref < 1 ∧ (g'.ftable f).ref = 1 := by
  obtain ⟨_, hz, rfl⟩ := filealloc_some h
  have hnew : (t f).ref < 1 := by
    by_contra hge
    have := (ht.keep f (by omega)).2
    omega
  refine ⟨setFile_opens ht (fun hf => ?_) (fun hi hty => hi f hty), hnew, ?_⟩
  · omega
  · exact congrArg File.ref (if_pos rfl)

theorem fileclose_closes (h : fileclose g f = .ok g') : Closes g.ftable g'.ftable := by
  have hset : ∀ fl : File, fl.ref ≤ (g.ftable f).ref →
      (1 ≤ fl.ref → fl.ident = (g.ftable f).ident) →
      (fl.type = .inode ∨ fl.type = .device → fl.type = (g.ftable f).type
        ∧ fl.ip = (g.ftable f).ip) →
      Closes g.ftable (g.setFile f fl).ftable := by
    intro fl hle hid hty
    refine ⟨fun a ha => ?_, fun hi a hta => ?_⟩
    · simp only [Glob.setFile] at ha ⊢
      split at ha
      · next haf =>
        subst haf
        rw [if_pos rfl]
        exact ⟨hid ha, by omega⟩
      · next haf =>
        rw [if_neg haf]
        exact ⟨rfl, ha⟩
    · simp only [Glob.setFile] at hta ⊢
      split at hta
      · next haf =>
        rw [if_pos haf]
        obtain ⟨hsame, hip⟩ := hty hta
        rw [hsame] at hta
        rw [hip]
        exact hi f hta
      · next haf =>
        rw [if_neg haf]
        exact hi a hta
  -- the last reference: the entry is erased, and then only the inode or
  -- the pipe is touched
  have hlast : (g.ftable f).ref = 1 → Closes g.ftable
      (g.setFile f { g.ftable f with ref := 0, type := .none }).ftable := by
    intro href
    refine hset _ ?_ (fun hge => ?_) (fun hty => ?_)
    · show (0 : Int) ≤ (g.ftable f).ref
      omega
    · exact absurd (show (1 : Int) ≤ 0 from hge) (by omega)
    · rcases hty with hty | hty <;> cases hty
  cases fileclose_closed h with
  | more =>
    refine hset _ ?_ (fun _ => rfl) (fun _ => ⟨rfl, rfl⟩)
    show (g.ftable f).ref - 1 ≤ (g.ftable f).ref
    omega
  | inode href =>
    rw [iput_ftable]
    exact hlast href
  | pipe href _ hclose =>
    rw [pipeclose_ftable hclose]
    exact hlast href
  | none href => exact hlast href

-- == the calls

theorem closeWhole_closes {v : Vma} {lo hi : Nat}
    (h : closeWhole g v lo hi = .ok g') : Closes g.ftable g'.ftable := by
  rcases closeWhole_cases h with ⟨_, rfl⟩ | ⟨_, f, _, hc⟩
  · exact .refl _
  · exact fileclose_closes hc

theorem sysMmap_files {offset : Nat} {prot flags : UInt32}
    (h : sysMmap p g addr len prot flags fd offset = .ok (r, p', g')) :
    FileStep g.ftable g'.ftable := by
  rcases sysMmap_cases h with
    ⟨_, rfl, _⟩ | ⟨f, i, _, _, _, _, _, _, hdup, _, _⟩
  · exact .refl _
  · exact (filedupOpt_opens hdup).files

theorem sysMunmap_files (h : sysMunmap p g addr len = .ok (r, p', g')) :
    FileStep g.ftable g'.ftable := by
  rcases sysMunmap_cases h with
    ⟨_, rfl, _⟩ | ⟨i, p1, g1, g2, _, _, hwb, hloop, hclose, _⟩
  · exact .refl _
  have h1 := (writeBack_covers (fun _ => Int.le_refl _) hwb).2.ftable
  have h2 := (munmapPages_frame hloop).2.ftable
  have hc := closeWhole_closes hclose
  rw [h2, h1] at hc
  exact hc.files

theorem forkRest_files {np np' : Proc}
    (h : forkRest p np g i = .ok (np', g')) : Opens g.ftable g'.ftable := by
  obtain ⟨c, g2, _, hopen, rfl⟩ := forkRest_inv (fun t => Opens g.ftable t.ftable) (.refl _)
    (fun t t' f hopen hd => hopen.trans (filedup_opens hd)) h
  exact hopen

theorem kfork_files (h : kfork k i = .ok (o, k')) : FileStep k.glob.ftable k'.glob.ftable := by
  cases o with
  | some j =>
    obtain ⟨_, _, _, _, _, _, _, _, ⟨np, g⟩, _, _, _, hrest, rfl⟩ := kfork_some h
    exact (forkRest_files hrest).files
  | none =>
    rcases kfork_none h with rfl | ⟨j, _, _, tf, pt, ph, rfl⟩
    · exact .refl _
    · exact .refl _

theorem exitSelf_files {status : Int} (h : exitSelf p g status = .ok (p', g')) :
    FileStep g.ftable g'.ftable := by
  obtain ⟨g1, c, p2, h1, _, h2, rfl⟩ := exitSelf_ok h
  have hfds : Closes g.ftable g1.ftable :=
    exitFds_inv (fun t => Closes g.ftable t.ftable) (.refl _)
      (fun _ _ _ hk hc => hk.trans (fileclose_closes hc)) h1
  rw [(exitVmas_frame h2).2.ftable, iput_ftable]
  exact hfds.files

theorem sysDup_files (h : sysDup p g fd = .ok (r, p', g')) : FileStep g.ftable g'.ftable := by
  rcases sysDup_cases h with ⟨_, rfl⟩ | ⟨f, _, _, hd⟩
  · exact .refl _
  · exact (filedup_opens hd).files

theorem sysClose_files (h : sysClose p g fd = .ok (r, p', g')) : FileStep g.ftable g'.ftable := by
  rcases sysClose_cases h with ⟨_, rfl⟩ | ⟨f, _, hc, _⟩
  · exact .refl _
  · exact (fileclose_closes hc).files

theorem sysOpen_files {path : Option (List UInt8)} {omode : UInt32}
    {room : Nat} (h : sysOpen p g path omode room = .ok (r, p', g')) :
    FileStep g.ftable g'.ftable := by
  cases sysOpen_opened h with
  | refused => exact .refl _
  | missing ho => exact .of_eq (openInode_ftable ho)
  | unopened ho =>
    exact .of_eq ((iput_ftable _ _).trans (openInode_ftable ho))
  | full ho ha hc =>
    have hopen := (filealloc_opens (.refl _) ha).1
    rw [openInode_ftable ho] at hopen
    rw [iput_ftable]
    exact ⟨_, hopen, fileclose_closes hc⟩
  | @opened _ _ ip f _ g1 g2 _ _ ho ha _ hg =>
    obtain ⟨hopen, hnew, _⟩ := filealloc_opens (.refl _) ha
    rw [openInode_ftable ho] at hopen hnew
    have hset := setFile_opens (f := f) (v := openFile (g2.ftable f) (g1.dinode ip) ip omode) hopen
      (fun hf => absurd hf (by omega)) (fun _ _ => rfl)
    rcases hg with rfl | rfl
    · exact hset.files
    · exact hset.files

theorem pipealloc_files {o : Option (Nat × Nat)} (h : pipealloc g = .ok (o, g')) :
    FileStep g.ftable g'.ftable ∧ (o.isSome = true → Opens g.ftable g'.ftable) := by
  simp only [pipealloc] at h
  split at h
  · cases h
    exact ⟨.refl _, fun hs => by cases hs⟩
  · next f0 g1 h0 =>
    obtain ⟨ho0, hnew0, _⟩ := filealloc_opens (.refl _) h0
    split at h
    · obtain ⟨g2, hc, h⟩ := bind_ok h
      cases h
      exact ⟨⟨_, ho0, fileclose_closes hc⟩, fun hs => by cases hs⟩
    · next f1 g2 h1 =>
      obtain ⟨ho1, hnew1, _⟩ := filealloc_opens ho0 h1
      split at h
      · obtain ⟨g3, hc0, h⟩ := bind_ok h
        obtain ⟨g4, hc1, h⟩ := bind_ok h
        cases h
        have hc := fileclose_closes hc0
        exact ⟨⟨_, ho1, hc.trans (fileclose_closes hc1)⟩, fun hs => by cases hs⟩
      · cases h
        have hset : ∀ (t : Glob) (f : Nat) (fl : File),
            Opens g.ftable t.ftable → (g.ftable f).ref < 1 →
            fl.type = .pipe → Opens g.ftable (t.setFile f fl).ftable := by
          intro t f fl ht hnew hty
          refine setFile_opens ht (fun hf => absurd hf (by omega)) ?_
          rintro _ (hc | hc) <;> rw [hty] at hc <;> cases hc
        suffices hall : Opens g.ftable _ from ⟨hall.files, fun _ => hall⟩
        exact hset _ f1 _ (hset _ f0 _ ho1 hnew0 rfl) hnew1 rfl

theorem sysPipe_files {fdarray : Nat} (h : sysPipe p g fdarray = .ok (r, p', g')) :
    FileStep g.ftable g'.ftable := by
  cases sysPipe_piped h with
  | refused ha => exact (pipealloc_files ha).1
  | undone ha hq hr hw =>
    have hc := (fileclose_closes hr).trans (fileclose_closes hw)
    rw [hq.ftable] at hc
    exact ⟨_, (pipealloc_files ha).2 rfl, hc⟩
  | made ha _ _ hq =>
    rw [hq.ftable]
    exact (pipealloc_files ha).1

/-- Every step keeps the files that are open before and after it. -/
theorem step_files {op : Op} (hstep : step k i op = .ok k') :
    FileStep k.glob.ftable k'.glob.ftable := by
  cases step_did hstep with
  | mmap h => exact sysMmap_files h
  | munmap h => exact sysMunmap_files h
  | fault h => exact .of_eq (vmfault_frame _ h).2.ftable
  | store h => exact .of_eq (userStore_frame _ h).2.ftable
  | sbrk h =>
    obtain ⟨_, ph, _, rfl⟩ := sysSbrk_frame _ h
    exact .refl _
  | fork h => exact kfork_files h
  | exec h => exact .of_eq (kexec_frame _ h).2.1
  | exit h =>
    obtain ⟨_, ⟨p, g⟩, hself, rfl⟩ := kexit_ok h
    exact exitSelf_files hself
  | wait h =>
    rcases kwait_cases h with rfl | ⟨j, p, g, _, hout, rfl | ⟨q, ph, _, rfl⟩⟩
    · exact .refl _
    · exact .of_eq hout.frame.2.ftable
    · exact .of_eq hout.frame.2.ftable
  | openFile h => exact sysOpen_files h
  | close h => exact sysClose_files h
  | dup h => exact sysDup_files h
  | pipe h => exact sysPipe_files h
  | unlink h =>
    exact .of_eq (sysUnlink_covers (fun _ => Int.le_refl _) h).2.2.ftable

end Xv6Labs.Model
