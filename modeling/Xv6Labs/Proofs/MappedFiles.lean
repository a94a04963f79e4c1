/-
The files behind the mappings.

`VmaInv I`: every mapping and its file satisfy `I`, a property that lasts
as long as the mapping does (`step_vmaInv`). If sys_mmap is called with
descriptors of open inode files only, every mapping is on such a file, and
no null pointer is dereferenced (`mapped_files_of_runs`).
-/
import Xv6Labs.Proofs.OpenFiles
import Xv6Labs.Proofs.Mappings
import Xv6Labs.Proofs.Panics

namespace Xv6Labs.Model

open Lib

variable {g : Glob} {p : Proc} {fd len : Int} {d : Nat → Nat} {k : Kernel}
  {addr f i lo : Nat} {flags prot : UInt32} {v : Vma}

-- == the invariant rule

/-- What is fixed of the file of a mapping. -/
def Vma.fileIdent (v : Vma) (t : Nat → File) : Option (FdType × Bool × Bool × Option Nat) :=
  v.file.map fun f => (t f).ident

/-- Every valid mapping satisfies `I`, with its file. -/
def VmaInv (I : Option (FdType × Bool × Bool × Option Nat) → UInt32 → UInt32 →
    Prop) (k : Kernel) : Prop :=
  ∀ j, j < nproc → (k.proc j).state ≠ .unused → ∀ s, s < nvma →
    ((k.proc j).vma s).valid = true →
    I (((k.proc j).vma s).fileIdent k.glob.ftable) ((k.proc j).vma s).prot ((k.proc j).vma s).flags

theorem ofileAt_ok {o : Option Nat} (h : ofileAt p fd = .ok o) :
    0 ≤ fd ∧ fd < nofile ∧ p.ofile fd.toNat = o := by
  unfold ofileAt at h
  split at h
  · next hfd => exact ⟨hfd.1, hfd.2, Except.ok.inj h⟩
  · cases h

theorem step_vmaInv {I : Option (FdType × Bool × Bool × Option Nat) → UInt32 →
    UInt32 → Prop} {k' : Kernel} {op : Op} (h : VmaInv I k) (hacc : Accounted d k) (hi : i < nproc)
    (hl : (k.proc i).isLive = true)
    (hnew : ∀ addr len prot flags fd offset f,
      op = .mmap addr len prot flags fd offset → len.toInt ≠ 0 →
      offset.toNat % pgSize = 0 → ofileAt (k.proc i) fd.toInt = .ok f →
      mmapMode k.glob f prot flags = .ok true →
      I (f.map fun f => (k.glob.ftable f).ident) prot flags)
    (hstep : step k i op = .ok k') : VmaInv I k' := by
  intro j hj hused s hs hv
  have hacc' := step_accounted hacc hi hl hstep
  have hfiles := step_files hstep
  have hui : (k.proc i).state ≠ .unused := used_of_live hl
  -- the file had a reference before, and has one in this mapping
  have hsame : ∀ v : Vma, v.file = ((k'.proc j).vma s).file →
      (∀ f, v.file = some f → 1 ≤ (k.glob.ftable f).ref) →
      ((k'.proc j).vma s).fileIdent k'.glob.ftable = v.fileIdent k.glob.ftable := by
    intro v hfile hold
    unfold Vma.fileIdent
    rw [← hfile]
    cases hf : v.file with
    | none => rfl
    | some f =>
      rw [hf] at hfile
      exact congrArg some (hfiles.keep (hold f hf) (hacc'.mapped hj hs hv hfile.symm))
  have horigin := step_origin hl hstep hused hs hv
  generalize hvma : (k'.proc j).vma s = v at horigin hsame
  cases horigin with
  | @kept _ s' hu hs' hv' =>
    rw [hsame _ rfl fun f hf => hacc.mapped hj hs' hv' hf]
    exact h j hj hu s' hs' hv'
  | @cut _ _ s' hhold =>
    obtain ⟨hs', hv', _, _⟩ := vmaHolding_some hhold
    obtain ⟨hfl, hf, hp⟩ := shrink_same ((k.proc i).vma s') _ _
    rw [hsame _ hf.symm fun f hf => hacc.mapped hi hs' hv' hf, hp, hfl]
    exact h i hi hui s' hs' hv'
  | @forked s' _ hs' hv' _ =>
    rw [hsame ((k.proc i).vma s') rfl fun f hf => hacc.mapped hi hs' hv' hf]
    exact h i hi hui s' hs' hv'
  | @made _ _ len fd prot flags f hlen hoff hf hmode =>
    obtain ⟨_, hlt, hfd⟩ := ofileAt_ok hf
    rw [hsame (newVma (k.proc i) len.toInt prot flags fd.toInt f) rfl fun f' hf' => ?_]
    · exact hnew _ _ _ _ _ _ f rfl hlen hoff hf hmode
    · have hf'' : f = some f' := hf'
      subst hf''
      exact hacc.opened hi hl (by omega) hfd

-- == inode files

/-- The mapping is on an open FD_INODE file, with its inode. -/
def Vma.OnInode (v : Vma) (t : Nat → File) : Prop :=
  ∃ f ip, v.file = some f ∧ (t f).type = .inode ∧ (t f).ip = some ip

/-- The condition on a step: a sys_mmap that gets past its argument tests
names an open FD_INODE file. -/
def MapsInode (k : Kernel) (i : Nat) : Op → Prop
  | .mmap _ len _ _ fd offset =>
    len.toInt ≠ 0 → offset.toNat % pgSize = 0 →
      ∃ f, ofileAt (k.proc i) fd.toInt = .ok (some f) ∧ (k.glob.ftable f).type = .inode
  | _ => True

theorem mmapMode_avoids : Avoids [.undefined] (mmapMode g (some f) prot flags) := by
  unfold mmapMode
  split <;> exact .ok _

theorem sysMmap_avoids {offset : Nat}

    (h : len ≠ 0 → offset % pgSize = 0 → ∃ f, ofileAt p fd = .ok (some f)) :
    Avoids [.undefined] (sysMmap p g addr len prot flags fd offset) := by
  unfold sysMmap
  split
  · exact .ok _
  · next hargs =>
    rw [not_or, not_not] at hargs
    obtain ⟨f, hf⟩ := h hargs.1 hargs.2
    rw [hf]
    refine mmapMode_avoids.bind fun mode _ => ?_
    split
    · exact .ok _
    split
    · exact .ok _
    split
    · exact .ok _
    refine .bind ?_ fun _ _ => .ok _
    unfold filedupOpt filedup
    dsimp only
    split
    · exact .error (by decide)
    · exact .ok _

theorem writeBack_avoids {hi : Nat}
    (h : v.OnInode g.ftable) : Avoids [.undefined] (writeBack p g v lo hi) := by
  obtain ⟨f, ip, hf, _, hip⟩ := h
  have hvip : g.vmaIp v = some ip := by
    unfold Glob.vmaIp
    rw [hf]
    exact hip
  unfold writeBack
  rw [hvip]
  split
  · refine .bind (.forRet (fun _ _ => True) trivial (fun k _ t _ => ?_)
      (fun _ _ _ _ _ _ => trivial)) fun o _ => ?_
    · refine (walkValid_avoids fun h => absurd h (by decide)).bind fun o _ => ?_
      cases o with
      | none => exact .ok _
      | some e =>
        dsimp only
        split
        · exact .ok _
        · exact (ilock_avoids (by decide) (by decide)).bind fun _ _ => .ok _
    · cases o <;> exact .ok _
  · exact .ok _

theorem munmapPages_avoids {n : Nat} {s : Proc × Glob} :
    Avoids [.undefined] (forUpto (munmapPage v lo) n s) := by
  refine .forUpto (fun _ _ => True) trivial (fun k _ t _ => ?_) (fun _ _ _ _ _ _ => trivial)
  refine (walkValid_avoids fun h => absurd h (by decide)).bind fun o _ => ?_
  cases o with
  | none => exact .ok _
  | some e =>
    dsimp only
    split
    · exact (sharedDecref_avoids (by decide)).bind fun _ _ =>
        (uvmunmap_avoids (by decide) (by decide)
          fun h => absurd h (by decide)).bind fun _ _ => .ok _
    · exact (uvmunmap_avoids (by decide) (by decide)
        fun h => absurd h (by decide)).bind fun _ _ => .ok _

theorem fileclose_avoids {ip : Nat}
    (ht : (g.ftable f).type = .inode) (hip : (g.ftable f).ip = some ip) :
    Avoids [.undefined] (fileclose g f) := by
  unfold fileclose
  dsimp only
  split
  · exact .error (by decide)
  · split
    · exact .ok _
    · rw [ht, hip]
      exact .ok _

theorem sysMunmap_avoids (h : ∀ s, s < nvma → (p.vma s).valid = true → (p.vma s).OnInode g.ftable) :
    Avoids [.undefined] (sysMunmap p g addr len) := by
  unfold sysMunmap
  dsimp only
  split
  · exact .ok _
  split
  · exact .ok _
  · next i hi =>
    obtain ⟨hs, hv, _, _⟩ := vmaHolding_some hi
    have hon := h i hs hv
    refine (writeBack_avoids hon).bind fun g1 h1 => ?_
    refine munmapPages_avoids.bind fun s2 h2 => ?_
    refine .bind ?_ fun _ _ => .ok _
    -- the file table is still the one of the call's start
    have hf1 := (writeBack_covers (fun _ => Int.le_refl _) h1).2.ftable
    have hf2 := (munmapPages_frame h2).2.ftable
    obtain ⟨f, ip, hf, hty, hip⟩ := hon
    unfold closeWhole
    split
    · rw [hf]
      refine fileclose_avoids ?_ (show _ = some ip from ?_)
      · rw [hf2, hf1]
        exact hty
      · rw [hf2, hf1]
        exact hip
    · exact .ok _

/-- The files of the mappings are still open when kexit gets to them,
after it has closed the descriptors. -/
theorem exitFds_onInode (hacc : Accounted d k) (hi : i < nproc) (hl : (k.proc i).isLive = true)
    (h : ∀ s, s < nvma → ((k.proc i).vma s).valid = true → ((k.proc i).vma s).OnInode k.glob.ftable)
    {p' : Proc} {g' : Glob}
    (hfds : forUpto exitFd nofile ((reparent k i).proc i, k.glob) = .ok (p', g')) :
    ∀ s, s < nvma → (p'.vma s).valid = true → (p'.vma s).OnInode g'.ftable := by
  intro s hs hv
  obtain ⟨parent, hproc⟩ := reparent_proc k i i
  have hframe := exitFds_frame hfds
  have hb : Balanced ((reparent k i).proc i) k.glob p' g' :=
    forUpto_inv (fun _ t => Balanced ((reparent k i).proc i) k.glob t.1 t.2)
      (.refl _ _) (fun _ hm _ _ hb hf => hb.trans (exitFd_balanced hm hf)) hfds
  have hcl : Closes k.glob.ftable g'.ftable :=
    exitFds_inv (fun t => Closes k.glob.ftable t.ftable) (.refl _)
      (fun _ _ _ hk hc => hk.trans (fileclose_closes hc)) hfds
  dsimp only at hframe
  rw [hproc] at hframe hb
  have hvma : p'.vma s = (k.proc i).vma s := by
    rw [hframe]
    rfl
  rw [hvma] at hv ⊢
  obtain ⟨f, ip, hf, hty, hip⟩ := h s hs hv
  -- the mapping's own reference is left
  have href : 1 ≤ (g'.ftable f).ref := by
    have hrow : (k.proc i).liveRefs f ≤ k.holders f :=
      Finset.single_le_sum (f := fun j => (k.proc j).liveRefs f)
        (fun _ _ => Nat.zero_le _) (Finset.mem_range.mpr hi)
    have hown : 1 ≤ (k.proc i).vmaRefs f := by
      have hone : ((k.proc i).vma s).fileRef f = 1 := by
        unfold Vma.fileRef hits
        rw [if_pos hv, if_pos hf]
      rw [← hone]
      exact Finset.single_le_sum (f := fun a => ((k.proc i).vma a).fileRef f)
        (fun _ _ => Nat.zero_le _) (Finset.mem_range.mpr hs)
    have hlive := liveRefs_of_live hl f
    have hcount := hacc.ref f
    have heq := hb.eq f
    rw [hframe, dropFds_fileRefs] at heq
    have hsame : ({ k.proc i with parent := parent } : Proc).fileRefs f
        = (k.proc i).fileRefs f := fileRefs_congr rfl rfl f
    have hsame' : ({ k.proc i with parent := parent } : Proc).vmaRefs f
        = (k.proc i).vmaRefs f := rfl
    omega
  have hid := (hcl.keep f href).1
  simp only [File.ident, Prod.mk.injEq] at hid
  exact ⟨f, ip, hf, hid.1.trans hty, hid.2.2.2.trans hip⟩

/-- From a start without mappings, in every run whose sys_mmaps name open
inode files: every mapping is on such a file, also when kexit drops it,
and sys_mmap (so called) and sys_munmap (with any arguments) use neither a
null pointer nor a descriptor outside the table. -/
theorem mapped_files_of_runs {k₀ k : Kernel}
    (h0 : Accounted (fun _ => 0) k₀) (hfresh : FreshMaps k₀)
    (hino : HasInode k₀.glob.ftable) (hr : Runs MapsInode k₀ k) {i : Nat}
    (hi : i < nproc) (hl : (k.proc i).isLive = true) :
    (∀ s, s < nvma → ((k.proc i).vma s).valid = true →
        ((k.proc i).vma s).OnInode k.glob.ftable)
      ∧ (∀ addr len prot flags fd offset,
        MapsInode k i (.mmap addr len prot flags fd offset) →
        sysMmap (k.proc i) k.glob addr.toNat len.toInt prot flags fd.toInt
          offset.toNat ≠ .error .undefined)
      ∧ (∀ addr len, sysMunmap (k.proc i) k.glob addr len
        ≠ .error .undefined)
      ∧ ∀ p' g', forUpto exitFd nofile ((reparent k i).proc i, k.glob)
          = .ok (p', g') →
        ∀ s, s < nvma → (p'.vma s).valid = true →
          (p'.vma s).OnInode g'.ftable := by
  have hinv : (∃ d, Accounted d k) ∧ HasInode k.glob.ftable
      ∧ VmaInv (fun o _ _ => ∃ r w ip, o = some (.inode, r, w, some ip)) k := by
    refine hr.inv (fun k => (∃ d, Accounted d k) ∧ HasInode k.glob.ftable
      ∧ VmaInv (fun o _ _ => ∃ r w ip, o = some (.inode, r, w, some ip)) k)
      ⟨⟨_, h0⟩, hino, ?_⟩ ?_
    · intro j _ hu s hs hv
      rw [(hfresh j hu).2 s hs] at hv
      cases hv
    rintro k k' i op hi hl hc ⟨⟨d, hacc⟩, hnode, hmaps⟩ hstep
    refine ⟨⟨_, step_accounted hacc hi hl hstep⟩,
      (step_files hstep).inode hnode, ?_⟩
    refine step_vmaInv hmaps hacc hi hl ?_ hstep
    rintro addr len prot flags fd offset f rfl hlen hoff hf _
    obtain ⟨f', hf', hty⟩ := hc hlen hoff
    cases hf.symm.trans hf'
    obtain ⟨ip, hip⟩ := Option.isSome_iff_exists.mp (hnode f' (.inl hty))
    refine ⟨(k.glob.ftable f').readable, (k.glob.ftable f').writable, ip, ?_⟩
    simp only [Option.map_some, File.ident, hty, hip]
  obtain ⟨⟨d, hacc⟩, _, hmaps⟩ := hinv
  have hon : ∀ s, s < nvma → ((k.proc i).vma s).valid = true →
      ((k.proc i).vma s).OnInode k.glob.ftable := by
    intro s hs hv
    have hu : (k.proc i).state ≠ .unused := used_of_live hl
    obtain ⟨r, w, ip, hid⟩ := hmaps i hi hu s hs hv
    obtain ⟨f, hf, hid⟩ := Option.map_eq_some_iff.mp hid
    simp only [File.ident, Prod.mk.injEq] at hid
    exact ⟨f, ip, hf, hid.1, hid.2.2.2⟩
  refine ⟨hon, fun addr len prot flags fd offset hc he => ?_,
    fun addr len he => ?_,
    fun p' g' hfds => exitFds_onInode hacc hi hl hon hfds⟩
  · refine sysMmap_avoids (fun hlen hoff => ?_) _ he (by decide)
    obtain ⟨f, hf, _⟩ := hc hlen hoff
    exact ⟨f, hf⟩
  · exact sysMunmap_avoids hon _ he (by decide)

theorem boot_hasInode : HasInode bootKernel.glob.ftable := by
  intro f hty
  change ((if f < 2 then bootOpen f else .zero : File).type = .inode
    ∨ (if f < 2 then bootOpen f else .zero : File).type = .device) at hty
  show (if f < 2 then bootOpen f else .zero : File).ip.isSome = true
  split
  · rfl
  · next hf =>
    rw [if_neg hf] at hty
    rcases hty with h | h <;> cases h

set_option maxRecDepth 10000

/-- A file is mapped and the process forks: the child's mapping is on an
inode file. -/
theorem mapped_files_of_runs_boot : ∃ k, Runs MapsInode bootKernel k
    ∧ ((k.proc 2).vma 0).valid = true
    ∧ ((k.proc 2).vma 0).OnInode k.glob.ftable :=
  have hr := (Runs.step .refl 1 (.mmap 0 4096 3 1 0 0) (by decide) rfl
    (fun _ _ => ⟨0, rfl, rfl⟩) rfl).step 1 .fork (by decide) rfl trivial rfl
  ⟨_, hr, rfl, (mapped_files_of_runs boot_accounted boot_fresh boot_hasInode
    hr (by decide) rfl).1 0 (by decide) rfl⟩

/-- A descriptor past the table; a closed one, for a shared mapping; a
closed one, for a private mapping that is unmapped later; and a pipe. -/
theorem mmap_bad_descriptors :
    sysMmap (bootKernel.proc 1) bootKernel.glob 0 4096 3 2 100 0
        = .error .undefined
      ∧ sysMmap (bootKernel.proc 1) bootKernel.glob 0 4096 3 1 5 0
        = .error .undefined
      ∧ (∃ k, Runs (fun _ _ _ => True) bootKernel k
        ∧ ((k.proc 1).vma 0).valid = true ∧ ((k.proc 1).vma 0).file = none
        ∧ sysMunmap (k.proc 1) k.glob 0x40000000 4096 = .error .undefined)
      ∧ ∃ k, Runs (fun _ _ _ => True) bootKernel k
        ∧ ((k.proc 1).vma 0).valid = true
        ∧ ((k.proc 1).vma 0).file = some 2
        ∧ (k.glob.ftable 2).type = .pipe :=
  have hnull := Runs.step .refl 1 (.mmap 0 4096 3 2 5 0) (by decide) rfl
    trivial rfl
  have hpipe := ((Runs.step .refl 1 (.sbrk 4096 true) (by decide) rfl trivial
    rfl).step 1 (.pipe 0) (by decide) rfl trivial rfl).step 1
    (.mmap 0 4096 1 1 2 0) (by decide) rfl trivial rfl
  ⟨rfl, rfl, ⟨_, hnull, rfl, rfl, rfl⟩, _, hpipe, rfl, rfl, rfl⟩

end Xv6Labs.Model
