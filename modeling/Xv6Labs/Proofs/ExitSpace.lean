/-
kexit and the address space, up to the parent's kwait.

freeproc frees what is left below the size and panics on a page above it.
A page of a private mapping is in no case both unmapped and freed;
processes without such pages exit cleanly.
-/
import Xv6Labs.Proofs.Coherent
import Xv6Labs.Proofs.ExitLoops
import Xv6Labs.Proofs.MappedFiles

namespace Xv6Labs.Model

variable {k k0 : Kernel}

open Lib Finset

-- == closing the descriptors

/-- References were dropped: the registry is the same, and the pages that
were freed are pipes. -/
structure PipesFreed (g g' : Glob) : Prop where
  shared : g'.shared = g.shared
  kend : g'.phys.kend = g.phys.kend
  pipe : ∀ f, (g'.ftable f).type = .pipe →
    (g.ftable f).type = .pipe ∧ (g'.ftable f).pipe = (g.ftable f).pipe
  free : ∀ x, x ∈ g'.phys.freelist → x ∈ g.phys.freelist
    ∨ ∃ f, (g.ftable f).type = .pipe ∧ (g.ftable f).pipe = x

section

variable {g g' g'' : Glob} {p : Proc} {f : Nat}
variable {fd : Nat} {s s' : Proc × Glob}

theorem PipesFreed.refl (g : Glob) : PipesFreed g g :=
  ⟨rfl, rfl, fun _ h => ⟨h, rfl⟩, fun _ h => .inl h⟩

theorem PipesFreed.trans (h : PipesFreed g g') (h' : PipesFreed g' g'') : PipesFreed g g'' := by
  refine ⟨h'.shared.trans h.shared, h'.kend.trans h.kend, fun f hf => ?_, fun x hx => ?_⟩
  · obtain ⟨h1, h2⟩ := h'.pipe f hf
    obtain ⟨h3, h4⟩ := h.pipe f h1
    exact ⟨h3, h2.trans h4⟩
  · rcases h'.free x hx with hold | ⟨f, hf, heq⟩
    · exact h.free x hold
    · obtain ⟨h1, h2⟩ := h.pipe f hf
      exact .inr ⟨f, h1, h2.symm.trans heq⟩

theorem iput_pipesFreed (g : Glob) (ip : Nat) : PipesFreed g (iput g ip) := by
  obtain ⟨disk, valid, heq⟩ := iput_slot g ip
  rw [heq]
  exact ⟨rfl, rfl, fun _ h => ⟨h, rfl⟩, fun _ h => .inl h⟩

/-- An entry that stays the pipe it was, or becomes none. -/
theorem setFile_pipesFreed {fl : File} (h : fl.type = .pipe →
    (g.ftable f).type = .pipe ∧ fl.pipe = (g.ftable f).pipe) : PipesFreed g (g.setFile f fl) := by
  refine ⟨rfl, rfl, fun a ha => ?_, fun _ h => .inl h⟩
  simp only [Glob.setFile] at ha ⊢
  split at ha
  · next haf =>
    rw [if_pos haf, haf]
    exact h ha
  · next haf =>
    rw [if_neg haf]
    exact ⟨ha, rfl⟩

theorem pipeclose_total {pi : Nat} (w : Bool) (h : g.phys.isPage pi) :
    ∃ g', pipeclose g pi w = .ok g' := by
  unfold pipeclose
  dsimp only
  generalize (if w = true then { g.pipes pi with writeopen := false }
    else { g.pipes pi with readopen := false } : Pipe) = q
  split
  · obtain ⟨ph, hk⟩ := kfree_total h
    rw [hk]
    exact ⟨_, rfl⟩
  · exact ⟨_, rfl⟩

theorem fileclose_pipesFreed (h : fileclose g f = .ok g') : PipesFreed g g' := by
  have hset : PipesFreed g (g.setFile f { g.ftable f with ref := 0, type := .none }) :=
    setFile_pipesFreed fun ht => nomatch ht
  cases fileclose_closed h with
  | more => exact setFile_pipesFreed fun ht => ⟨ht, rfl⟩
  | inode => exact hset.trans (iput_pipesFreed _ _)
  | pipe _ ht hclose =>
    rcases pipeclose_cases hclose with ⟨_, rfl | ⟨ph, hk, rfl⟩⟩
    · exact { hset with }
    refine ⟨hset.shared, (kfree_keeps _ hk).kend, hset.pipe, fun x hx => ?_⟩
    obtain ⟨_, rfl⟩ := kfree_ok hk
    rcases List.mem_cons.mp hx with rfl | hold
    · exact .inr ⟨f, ht, rfl⟩
    · exact .inl hold
  | none => exact hset

/-- The files of a process as fileclose needs them: counted, on their
inodes, and a pipe in a page of the allocator. -/
structure Closable (p : Proc) (g : Glob) : Prop where
  refs : ∀ f, (p.fileRefs f : Int) ≤ (g.ftable f).ref
  inode : HasInode g.ftable
  pipe : ∀ f, (g.ftable f).type = .pipe → g.phys.isPage (g.ftable f).pipe

theorem fileclose_total (href : 1 ≤ (g.ftable f).ref) (hino : HasInode g.ftable)
    (hpipe : (g.ftable f).type = .pipe → g.phys.isPage (g.ftable f).pipe) :
    ∃ g', fileclose g f = .ok g' := by
  have hip := hino f
  simp only [fileclose]
  rw [if_neg (by omega)]
  split
  · exact ⟨_, rfl⟩
  split
  · next ht => exact pipeclose_total _ (hpipe ht)
  · exact ⟨_, rfl⟩
  · exact ⟨_, rfl⟩
  · next ht hnone =>
    rw [hnone] at hip
    exact absurd (hip (.inl ht)) Bool.false_ne_true
  · next ht hnone =>
    rw [hnone] at hip
    exact absurd (hip (.inr ht)) Bool.false_ne_true
  · exact ⟨_, rfl⟩

theorem exitFd_pipesFreed (h : exitFd fd s = .ok s') :
    PipesFreed s.2 s'.2 ∧ Closes s.2.ftable s'.2.ftable := by
  simp only [exitFd] at h
  split at h
  · cases h
    exact ⟨.refl _, .refl _⟩
  · obtain ⟨g1, hc, h⟩ := bind_ok h
    cases h
    exact ⟨fileclose_pipesFreed hc, fileclose_closes hc⟩

theorem Closable.exitFd (h : Closable s.1 s.2) (hfd : fd < nofile)
    (hturn : exitFd fd s = .ok s') : Closable s'.1 s'.2 := by
  have hb := exitFd_balanced hfd hturn
  obtain ⟨hfree, hcl⟩ := exitFd_pipesFreed hturn
  refine ⟨fun f => ?_, hcl.inode h.inode, fun f hf => ?_⟩
  · have := hb.eq f
    have := h.refs f
    omega
  · obtain ⟨hold, hsame⟩ := hfree.pipe f hf
    rw [Phys.isPage_congr hfree.kend, hsame]
    exact h.pipe f hold

/-- A held file has a reference. -/
theorem Closable.ref_pos (h : Closable p g) (hfd : fd < nofile)
    (hf : p.ofile fd = some f) : 1 ≤ (g.ftable f).ref := by
  have hrow := row_le_sum (f := fun fd => hits (p.ofile fd) f) hfd
  have hone : hits (p.ofile fd) f = 1 := by
    rw [hf]
    exact if_pos rfl
  have := h.refs f
  unfold Proc.fileRefs Proc.fdRefs at this
  omega

/-- All descriptors are closed. -/
theorem exitFds_total (h : Closable p g) :
    ∃ g', forUpto exitFd nofile (p, g) = .ok (p.dropFds nofile, g') ∧ PipesFreed g g' := by
  have htotal := forUpto_total (f := exitFd) (n := nofile) (s := (p, g))
    (fun _ t => Closable t.1 t.2 ∧ PipesFreed g t.2) ⟨h, .refl g⟩ ?_
  · obtain ⟨⟨p', g'⟩, hrun, _, hfree⟩ := htotal
    have hp : p' = p.dropFds nofile := exitFds_frame hrun
    rw [hp] at hrun
    exact ⟨g', hrun, hfree⟩
  rintro fd hfd ⟨t, gt⟩ ⟨hc, hfree⟩
  have hturn : ∃ t', exitFd fd (t, gt) = .ok t' := by
    simp only [exitFd]
    split
    · exact ⟨_, rfl⟩
    · next f hf =>
      obtain ⟨g', hg'⟩ := fileclose_total (hc.ref_pos hfd hf) hc.inode (hc.pipe f)
      exact ⟨_, by rw [hg']; rfl⟩
  obtain ⟨t', ht'⟩ := hturn
  exact ⟨t', ht', hc.exitFd hfd ht', hfree.trans (exitFd_pipesFreed ht').1⟩

end

-- == the start

/-- A mapped page of a private mapping. -/
def Proc.PrivatePage (p : Proc) (n : Nat) (e : Pte) : Prop :=
  ∃ s, s < nvma ∧ (p.vma s).valid = true ∧ (p.vma s).isShared = false
    ∧ (p.vma s).start ≤ n * pgSize ∧ n * pgSize < (p.vma s).stop
    ∧ p.pagetable.leaf n = some e

/-- A process that may exit: its mappings are in order and above the heap,
its pages are pages, each used once, and its files can be closed. -/
structure ExitStart (p : Proc) (g : Glob) : Prop where
  layout : Layout p
  above : ∀ s, s < nvma → (p.vma s).valid = true → pgRoundUp p.sz ≤ (p.vma s).start
  placed : p.Placed
  kend : 0 < g.phys.kend
  valid : p.pagetable.Valid g.phys
  trapframe : g.phys.isPage p.trapframe
  registry : ∀ x, 0 < g.shared.pages x → g.phys.isPage x
  once : ∀ x, p.uses x + g.uses x ≤ 1
  files : Closable p g
  pipes : ∀ f, (g.ftable f).type = .pipe → p.uses (g.ftable f).pipe = 0
  cwd : p.cwd.isSome = true

/-- The processes of a tidy run are such. -/
theorem Tallied.exitStart (h : Tallied k) (hc : Coherent k)
    {i : Nat} (hi : i < nproc) (hl : (k.proc i).isLive = true) (hkend : 0 < k.glob.phys.kend)
    (hpage : ∀ x, 0 < k.uses x → k.glob.phys.isPage x)
    (hino : HasInode k.glob.ftable) (hcwd : (k.proc i).cwd.isSome = true) :
    ExitStart (k.proc i) k.glob := by
  have hle := k.uses_row hi hl
  have hused : ∀ x, 0 < (k.proc i).uses x + k.glob.uses x → k.glob.phys.isPage x :=
    fun x hx => hpage x (Nat.lt_of_lt_of_le hx (hle x))
  have hseat := h.seat i hl
  have hlay := h.layout hl
  have hreg : ∀ x, 0 < k.glob.shared.pages x → k.glob.phys.isPage x := by
    intro x hx
    refine hused x ?_
    unfold Glob.uses
    omega
  refine ⟨hlay, fun s hs hv => ?_, hseat.placed, hkend,
    ⟨hseat.table, fun x hx => hused x ?_, fun n e he h1 h2 => ?_⟩,
    hused _ ?_, hreg, fun x => (hle x).trans (h.once x),
    ⟨fun f => ?_, hino, fun f hf => absurd hf (h.pipes f)⟩,
    fun f hf => absurd hf (h.pipes f), hcwd⟩
  · have hbase := (hlay.ok s hs hv).base
    have hsz := hseat.small
    have hround : pgRoundUp (k.proc i).sz ≤ mmapBase := by
      have hlt : (k.proc i).sz + 4095 < 2 ^ 64 := by
        unfold mmapBase at hsz
        omega
      rw [pgRoundUp_eq hlt]
      unfold mmapBase at hsz ⊢
      omega
    omega
  · unfold Proc.uses
    omega
  · cases hat : (k.proc i).sharedAt n with
    | none =>
      have hn : n < 2 ^ 26 := hseat.table.leaf_lt (by rw [he]; rfl)
      have hown := ownPages_pos hn ⟨h2, h1⟩ hat he
      refine hused _ ?_
      unfold Proc.uses
      omega
    | some s =>
      obtain ⟨s0, hs0, hpa⟩ := hc.pages i hi n e
        (k.glob.ftable s.1).ip s.2 he (by rw [Proc.sharedKey, hat]; rfl)
      rw [← hpa]
      exact hreg _ (pages_pos_of_lookup hs0).1
  · unfold Proc.uses
    rw [points_some, if_pos rfl]
    omega
  obtain ⟨d, hacc⟩ := h.files
  have hrow := row_le_sum (f := fun j => (k.proc j).liveRefs f) hi
  have hown := liveRefs_of_live hl f
  have hsum := hacc.ref f
  unfold Kernel.holders at hsum
  omega

-- == what is returned

section

variable {p : Proc} {g : Glob} {n : Nat} {e : Pte}
variable {ph : Phys}

theorem Proc.PrivatePage.own (hp : p.PrivatePage n e) (hl : Layout p) :
    n ≠ 0 ∧ n < 2 ^ 26 ∧ UserPage n ∧ p.sharedAt n = none ∧ p.pagetable.leaf n = some e := by
  obtain ⟨s, hs, hv, hpriv, hlo, hhi, he⟩ := hp
  have hok := hl.ok s hs hv
  have hbase := hok.base
  have hle := hok.le_cur
  have htop := hl.cur_top
  obtain ⟨hn, hu⟩ := userPage_of_lt (show n * pgSize < mmapTop by omega)
  refine ⟨?_, hn, hu, sharedAt_none_of_private (vmaAt_eq hl hs hv hlo hhi) hpriv, he⟩
  unfold mmapBase at hbase
  rintro rfl
  omega

/-- A page of the process's own is used for nothing else. -/
theorem ExitStart.alone (h : ExitStart p g) (hp : p.PrivatePage n e) :
    e.pa ∉ g.phys.freelist ∧ g.shared.pages e.pa = 0
      ∧ p.pagetable.tables e.pa = 0 ∧ points (some p.trapframe) e.pa = 0
      ∧ ∀ m e', m ≠ n → UserPage m → p.sharedAt m = none →
          p.pagetable.leaf m = some e' → e'.pa ≠ e.pa := by
  obtain ⟨_, hn, hu, hat, he⟩ := hp.own h.layout
  have hown := ownPages_pos hn hu hat he
  have honce := h.once e.pa
  unfold Proc.uses Glob.uses at honce
  refine ⟨fun hmem => ?_, by omega, by omega, by omega, fun m e' hne hum hatm hem heq => ?_⟩
  · have := List.count_pos_iff.mpr hmem
    omega
  -- two leaves of one page
  have hm : m < 2 ^ 26 := h.valid.wf.leaf_lt (by rw [hem]; rfl)
  have htwo := two_rows_le_sum (f := fun j => ptePoints (p.ownLeaf j) e.pa) hm hn hne
  have h1 : ptePoints (p.ownLeaf m) e.pa = 1 := by
    rw [ownLeaf_of_user hum, hatm, hem, ← heq]
    exact if_pos rfl
  have h2 : ptePoints (p.ownLeaf n) e.pa = 1 := by
    rw [ownLeaf_of_user hu, hat, he]
    exact if_pos rfl
  unfold Proc.ownPages at hown honce
  omega

/-- A page in a shared mapping is unmapped by the loop. -/
theorem exitCleared_of_sharedAt {m : Nat}
    (h : (p.sharedAt m).isSome = true) : ExitCleared p nvma m := by
  obtain ⟨s, hs⟩ := Option.isSome_iff_exists.mp h
  obtain ⟨i, hi, hs⟩ := Option.bind_eq_some_iff.mp hs
  obtain ⟨hlt, hv, hlo, hhi⟩ := vmaAt_some hi
  split at hs
  · next hbit =>
    obtain ⟨f, hf, _⟩ := Option.map_eq_some_iff.mp hs
    refine ⟨i, hlt, hv, ?_, hlo, hhi.le⟩
    unfold Vma.isShared
    rw [hbit, hf]
    rfl
  · cases hs

/-- What the process looks like when freeproc gets it. -/
structure ExitLeft (p : Proc) (g : Glob) (p' : Proc) (g' : Glob) : Prop where
  sz : p'.sz = p.sz
  trapframe : p'.trapframe = p.trapframe
  passes : ExitPasses p nvma
  residue : ∃ g₁, PipesFreed g g₁ ∧ Residue (ExitCleared p nvma) p.pagetable g₁ p'.pagetable g'

theorem ExitLeft.kend (h : ExitLeft p g p' g') : g'.phys.kend = g.phys.kend := by
  obtain ⟨g1, hfree, hr⟩ := h.residue
  exact hr.kend.trans hfree.kend

theorem ExitLeft.valid (h : ExitLeft p g p' g')
    (hs : ExitStart p g) : p'.pagetable.Valid g'.phys := by
  obtain ⟨g1, hfree, hr⟩ := h.residue
  exact hr.valid (hs.valid.congr hfree.kend)

/-- A page of a private mapping that the loop unmapped, as the page after
a shared mapping, is never freed. -/
theorem ExitLeft.lost {q : Proc}
    (h : ExitLeft p g p' g') (hs : ExitStart p g) (hp : p.PrivatePage n e)
    (hgone : p'.pagetable.leaf n = none) (hf : freeproc p' g'.phys = .ok (q, ph)) :
    e.pa ∉ ph.freelist := by
  obtain ⟨hfree, hreg, htab, htf, hone⟩ := hs.alone hp
  obtain ⟨g1, hpipes, hr⟩ := h.residue
  obtain ⟨hn0, hn, hu, hat, he⟩ := hp.own hs.layout
  have hown := ownPages_pos hn hu hat he
  have hkend := hs.kend
  have hroot : p'.pagetable.root ≠ 0 := by
    rw [hr.root]
    have := hs.valid.tables _ (tables_pos_root p.pagetable)
    have := this.2.1
    omega
  have htf0 : p'.trapframe ≠ 0 := by
    rw [h.trapframe]
    have := hs.trapframe.2.1
    omega
  have hcount := freeproc_ledger hr.wf htf0 hroot hf e.pa
  rw [h.trapframe, htf, hr.tables, htab] at hcount
  -- kexit did not free it
  have hbefore : e.pa ∉ g'.phys.freelist := by
    intro hmem
    rcases hr.free _ hmem with h1 | h1 | ⟨e0, he0, hpa⟩
    · rcases hpipes.free _ h1 with h2 | ⟨f, hf, hpa⟩
      · exact hfree h2
      · have := hs.pipes f hf
        rw [hpa] at this
        unfold Proc.uses at this
        omega
    · rw [hpipes.shared, hreg] at h1
      exact absurd h1 (Nat.lt_irrefl 0)
    · exact hone 0 e0 hn0.symm ⟨by decide, by decide⟩ (sharedAt_low hs.layout (by decide)) he0 hpa
  -- and no page that is left is this one
  have hpages : p'.pagetable.pages e.pa = 0 := by
    by_contra hne
    obtain ⟨m, e', htop, hem, hpa⟩ := exists_leaf_of_pages (Nat.pos_of_ne_zero hne)
    have hmn : m ≠ n := by
      rintro rfl
      rw [hgone] at hem
      cases hem
    cases hatm : p.sharedAt m with
    | none => exact hone m e' hmn (not_or.mp htop) hatm (hr.old hem) hpa
    | some s =>
      rw [hr.gone m (exitCleared_of_sharedAt (by rw [hatm]; rfl))] at hem
      cases hem
  rw [hpages, List.count_eq_zero_of_not_mem hbefore] at hcount
  exact List.count_eq_zero.mp hcount

-- == exit and wait

variable {k k' : Kernel} {i : Nat} {status : Int} {p' : Proc} {g' : Glob}

theorem ExitStart.reparented (h : ExitStart p g) (parent : Option Nat) :
    ExitStart { p with parent } g :=
  { h with
    layout := h.layout.congr rfl rfl
    files := ⟨h.files.refs, h.files.inode, h.files.pipe⟩ }

theorem exitSelf_left (h : ExitStart p g)
    (hs : exitSelf p g status = .ok (p', g')) : ExitLeft p g p' g' := by
  obtain ⟨pt, hp'⟩ := exitSelf_frame hs
  obtain ⟨g1, c, p2, h1, _, h2, rfl⟩ := exitSelf_ok hs
  obtain ⟨g1', h1', hfree⟩ := exitFds_total h.files
  rw [h1] at h1'
  cases h1'
  obtain ⟨hr, hpass⟩ := exitVmas_residue (p := { p.dropFds nofile with cwd := none })
    (h.layout.congr rfl rfl) h.valid.wf h2
  refine ⟨by rw [hp']; rfl, by rw [hp']; rfl, hpass, iput g1 c,
    hfree.trans (iput_pipesFreed g1 c), hr⟩

theorem exitSelf_total (h : ExitStart p g) (hpass : ExitPasses p nvma) :
    ∃ s, exitSelf p g status = .ok s := by
  obtain ⟨g1, h1, hfree⟩ := exitFds_total h.files
  obtain ⟨c, hc⟩ := Option.isSome_iff_exists.mp h.cwd
  have hall := hfree.trans (iput_pipesFreed g1 c)
  have hcwd : (p.dropFds nofile).cwd = some c := hc
  obtain ⟨s, hs⟩ := exitVmas_total (p := { p.dropFds nofile with cwd := none })
    (h.layout.congr rfl rfl) h.valid.wf
    (fun x hx => by
      rw [Phys.isPage_congr hall.kend]
      rw [hall.shared] at hx
      exact h.registry x hx)
    (fun e he => by
      rw [Phys.isPage_congr hall.kend]
      exact h.valid.leaf 0 e he (by decide) (by decide)) hpass
  simp only [exitSelf]
  rw [h1, ok_bind]
  rw [hcwd]
  dsimp only
  rw [hs]
  exact ⟨_, rfl⟩

/-- freeproc of a process whose pages are pages finishes exactly when no
page is left above the size. -/
theorem freeproc_iff (hk : 0 < ph.kend)
    (hv : p.pagetable.Valid ph) (htf : ph.isPage p.trapframe) :
    (∃ s, freeproc p ph = .ok s) ↔ pgRoundUp p.sz ≤ maxVa ∧ p.pagetable.Below p.sz := by
  have hroot : p.pagetable.root ≠ 0 := by
    have := (hv.tables _ (tables_pos_root p.pagetable)).2.1
    omega
  have htf0 : p.trapframe ≠ 0 := by
    have := htf.2.1
    omega
  obtain ⟨ph1, h1⟩ := kfree_total htf
  rw [← procFreepagetable_iff (hv.congr (kfree_keeps _ h1).kend)]
  simp only [freeproc]
  rw [if_neg htf0, h1, ok_bind, if_neg hroot]
  constructor
  · rintro ⟨s, hs⟩
    obtain ⟨ph', h', _⟩ := bind_ok hs
    exact ⟨ph', h'⟩
  · rintro ⟨ph', h'⟩
    rw [h']
    exact ⟨_, rfl⟩

/-- No page of a private mapping is mapped; the page after a private
mapping above slot 0 is not mapped when the loop comes to it; and the size
is one uvmfree can loop over. -/
structure ExitReady (p : Proc) : Prop where
  untouched : ∀ n e, ¬ p.PrivatePage n e
  passes : ExitPasses p nvma
  size : pgRoundUp p.sz ≤ maxVa

/-- kexit, and then the parent's kwait: both finish, after kexit every
page is below the size or on top, and freeproc has returned each mapped
page of a private mapping once. A kwait that finds the process finishes,
whatever address its caller gave, if the status can be copied there. -/
def ExitClean (k : Kernel) (i : Nat) (status : Int) : Prop :=
  ∃ k' q ph, kexit k i status = .ok k'
    ∧ (k'.proc i).pagetable.Below (k.proc i).sz
    ∧ freeproc (k'.proc i) k'.glob.phys = .ok (q, ph)
    ∧ (∀ n e, (k.proc i).PrivatePage n e → ph.freelist.count e.pa
        = k.glob.phys.freelist.count e.pa + 1)
    ∧ ∀ j addr, zombieChild k' j = some i →
        (addr ≠ 0 → ∃ s, copyout (k'.proc j) k'.glob addr
          (statusByte (k'.proc i).xstate) 4 = .ok s) →
        ∃ o k'', kwait k' j addr = .ok (o, k'')

/-- After the loop, what is left above the size is private. -/
theorem ExitLeft.below (h : ExitLeft p g p' g') (hs : ExitStart p g)
    (hpriv : ∀ n e, ¬ p.PrivatePage n e) : p'.pagetable.Below p.sz := by
  intro n hn
  obtain ⟨e, he⟩ := Option.isSome_iff_exists.mp hn
  obtain ⟨g1, _, hr⟩ := h.residue
  have hold := hr.old he
  rcases hs.placed n (by rw [hold]; rfl) with hheap | htop | hmap
  · exact .inl hheap
  · exact .inr htop
  obtain ⟨s, hat⟩ := Option.isSome_iff_exists.mp hmap
  obtain ⟨hlt, hv, hlo, hhi⟩ := vmaAt_some hat
  cases hsh : (p.vma s).isShared with
  | true =>
    rw [hr.gone n ⟨s, hlt, hv, hsh, hlo, hhi.le⟩] at he
    cases he
  | false => exact absurd ⟨s, hlt, hv, hsh, hlo, hhi, hold⟩ (hpriv n e)

/-- A page of a private mapping is above the size. -/
theorem ExitStart.not_below (h : ExitStart p g) (hp : p.PrivatePage n e)
    {pt : PageTable} (hb : pt.Below p.sz) : pt.leaf n = none := by
  obtain ⟨_, _, hu, _⟩ := hp.own h.layout
  obtain ⟨s, hs, hv, _, hlo, _⟩ := hp
  by_contra hne
  rcases hb n (Option.isSome_iff_ne_none.mpr hne) with hlt | htr | htf
  · have := h.above s hs hv
    unfold pgSize at *
    omega
  · exact hu.2 htr
  · exact hu.1 htf

/-- The kwait that finds the process. -/
theorem kwait_total {j addr : Nat} (hj : zombieChild k j = some i)
    (hcopy : addr ≠ 0 → ∃ s, copyout (k.proc j) k.glob addr
      (statusByte (k.proc i).xstate) 4 = .ok s)
    (hfree : ∀ ph : Phys, ph.kend = k.glob.phys.kend → ∃ s, freeproc (k.proc i) ph = .ok s) :
    ∃ o k', kwait k j addr = .ok (o, k') := by
  have hstart : ∃ ok p g, (if addr = 0 then pure (true, k.proc j, k.glob)
      else copyout (k.proc j) k.glob addr (statusByte (k.proc i).xstate) 4) = .ok (ok, p, g)
      ∧ g.phys.kend = k.glob.phys.kend := by
    by_cases h0 : addr = 0
    · rw [if_pos h0]
      exact ⟨_, _, _, rfl, rfl⟩
    · rw [if_neg h0]
      obtain ⟨⟨ok, p, g⟩, hs⟩ := hcopy h0
      exact ⟨ok, p, g, hs, (copyout_frame _ hs).2.keeps.kend⟩
  obtain ⟨ok, p, g, hs, hk⟩ := hstart
  obtain ⟨s, hf⟩ := hfree g.phys hk
  simp only [kwait, hj]
  rw [hs, ok_bind]
  cases ok with
  | true =>
    dsimp only [Kernel.put]
    rw [hf]
    exact ⟨_, _, rfl⟩
  | false => exact ⟨_, _, rfl⟩

/-- A process exits cleanly exactly when it has touched no page of a
private mapping, and nothing is mapped right after a private mapping that
the loop comes to above slot 0. -/
theorem exit_clean_iff (h : ExitStart (k.proc i) k.glob)
    (hi : i ≠ k.initproc) :
    ExitClean k i status ↔ ExitReady (k.proc i) := by
  obtain ⟨parent, hproc⟩ := reparent_proc k i i
  have hstart := h.reparented parent
  have hat : ∀ s : Proc × Glob, ((reparent k i).put i s).proc i = s.1 :=
    fun s => if_pos rfl
  constructor
  · rintro ⟨k', q, ph, hexit, hbelow, hfree, hcount, _⟩
    obtain ⟨_, ⟨p', g'⟩, hself, rfl⟩ := kexit_ok hexit
    rw [hproc] at hself
    have hleft := exitSelf_left hstart hself
    rw [hat] at hbelow hfree
    refine ⟨fun n e hp => ?_, hleft.passes, ?_⟩
    · -- the page was unmapped and not freed
      have hlost := hleft.lost hstart hp (h.not_below hp hbelow) hfree
      have := hcount n e hp
      rw [List.count_eq_zero_of_not_mem hlost] at this
      omega
    · have hfin := (freeproc_iff (hleft.kend ▸ h.kend)
        (hleft.valid hstart) ?_).mp ⟨_, hfree⟩
      · rw [hleft.sz] at hfin
        exact hfin.1
      · rw [Phys.isPage_congr hleft.kend, hleft.trapframe]
        exact h.trapframe
  · intro hready
    obtain ⟨⟨p', g'⟩, hself⟩ : ∃ s, exitSelf _ _ status = .ok s :=
      exitSelf_total hstart hready.passes
    have hleft := exitSelf_left hstart hself
    have hbelow := hleft.below hstart hready.untouched
    have hfree : ∀ ph : Phys, ph.kend = g'.phys.kend →
        ∃ s, freeproc p' ph = .ok s := by
      intro ph hk
      have hkend := hk.trans hleft.kend
      refine (freeproc_iff (hkend ▸ h.kend)
        ((hleft.valid hstart).congr hk) ?_).mpr ?_
      · rw [Phys.isPage_congr hkend, hleft.trapframe]
        exact h.trapframe
      · rw [hleft.sz]
        exact ⟨hready.size, hbelow⟩
    obtain ⟨⟨q, ph⟩, hq⟩ := hfree g'.phys rfl
    refine ⟨(reparent k i).put i (p', g'), q, ph, ?_, ?_, ?_,
      fun n e hp => absurd hp (hready.untouched n e), fun j addr hj hcopy => ?_⟩
    · simp only [kexit]
      rw [if_neg hi, hproc]
      rw [show (reparent k i).glob = k.glob from rfl, hself]
      rfl
    · rw [hat]
      exact hbelow
    · rw [hat]
      exact hq
    · refine kwait_total hj hcopy ?_
      rw [hat]
      exact hfree

end

-- == runs and a witness

/-- A tidy run uses no page that the start did not use. -/
theorem uses_le_of_runs (h0 : FreshBooks k0)
    (hr : Runs Tidy k0 k) (x : Nat) : k.uses x ≤ k0.uses x := by
  refine (hr.inv (fun k => Tallied k ∧ k.uses x ≤ k0.uses x) ⟨h0.tallied, Nat.le_refl _⟩ ?_).2
  intro k k' i op hi hl hc ⟨htally, hle⟩ hs
  obtain ⟨htally', hstep⟩ := step_tallied htally hi hl hc hs
  exact ⟨htally', (hstep.uses x).trans hle⟩

/-- In every run, files on inodes have their inode. -/
theorem hasInode_of_runs {C : Kernel → Nat → Op → Prop}
    (h0 : HasInode k0.glob.ftable) (hr : Runs C k0 k) : HasInode k.glob.ftable := by
  refine hr.inv (fun k => HasInode k.glob.ftable) h0 ?_
  intro k k' i op _ _ _ h hs
  obtain ⟨t, hopen, hclose⟩ := step_files hs
  exact hclose.inode (hopen.inode h)

theorem boot_isPage (x : Nat) (h : 0 < bootKernel.uses x) : bootKernel.glob.phys.isPage x := by
  rw [boot_uses] at h
  have hall : ∀ y ∈ bootPages, bootKernel.glob.phys.isPage y := by
    decide +kernel
  exact hall x (List.count_pos_iff.mp h)

set_option maxRecDepth 10000

/-- One page of a shared mapping is touched, and the process exits. -/
theorem exit_clean_shared : ∃ k, Runs Tidy bootKernel k
    ∧ ((k.proc 1).pagetable.leaf (0x40000000 / pgSize)).isSome = true
    ∧ ExitClean k 1 0 := by
  have hrun : ∃ k, Runs Tidy bootKernel k ∧ (k.proc 1).isLive = true
      ∧ k.initproc = 0 ∧ k.glob.phys.kend = 0x80030000
      ∧ (k.proc 1).cwd = some 2 ∧ (k.proc 1).sz = 0
      ∧ ((k.proc 1).pagetable.leaf (0x40000000 / pgSize)).isSome = true
      ∧ ∀ s, s < nvma → ((k.proc 1).vma s).valid = true →
          ((k.proc 1).vma s).isShared = true :=
    have hr := (Runs.step .refl 1 (.mmap 0 8192 3 1 0 0) (by decide) rfl
      ⟨by decide, by decide⟩ rfl).step 1 (.fault 0x40000000 true) (by decide)
      rfl trivial rfl
    ⟨_, hr, rfl, rfl, rfl, rfl, rfl, rfl, by decide⟩
  obtain ⟨k, hr, hl, hinit, hkend, hcwd, hsz, hleaf, hshared⟩ := hrun
  obtain ⟨htally, hcoh⟩ := coherent_of_runs boot_books boot_aligned hr
  have hstart : ExitStart (k.proc 1) k.glob := by
    refine htally.exitStart hcoh (by decide) hl (by rw [hkend]; decide)
      (fun x hx => ?_) ?_ (by rw [hcwd]; rfl)
    · rw [Phys.isPage_congr (show _ = bootKernel.glob.phys.kend from hkend)]
      exact boot_isPage x
        (Nat.lt_of_lt_of_le hx (uses_le_of_runs boot_books hr x))
    · exact hasInode_of_runs boot_hasInode hr
  refine ⟨k, hr, hleaf, (exit_clean_iff hstart (by rw [hinit]; decide)).mpr
    ⟨fun n e hp => ?_, fun s hs _ hv hpriv => ?_, by rw [hsz]; decide⟩⟩
  · obtain ⟨s, hs, hv, hpriv, _⟩ := hp
    rw [hshared s hs hv] at hpriv
    cases hpriv
  · rw [hshared s hs hv] at hpriv
    cases hpriv

/-- A touched page of a private mapping. In slot 0 it stays mapped over
kexit, and the parent's kwait panics in freewalk. In slot 1 kexit itself
panics in uvmunmap. Right after a shared mapping it is unmapped and never
freed. -/
theorem exit_private_panics :
    (∃ k k', runAs bootKernel 1
        [.mmap 0 4096 3 2 0 0, .fault 0x40000000 true] = .ok k
      ∧ kexit k 1 0 = .ok k'
      ∧ ((k'.proc 1).pagetable.leaf (0x40000000 / pgSize)).isSome = true
      ∧ kwait k' 0 0 = .error .freewalk)
    ∧ (∃ k, runAs bootKernel 1 [.mmap 0 4096 3 2 0 0, .mmap 0 4096 3 2 0 0,
        .fault 0x40001000 true] = .ok k
      ∧ kexit k 1 0 = .error .uvmunmap)
    ∧ ∃ k k' k'' e, runAs bootKernel 1 [.mmap 0 4096 3 1 0 0,
        .mmap 0 4096 3 2 0 0, .fault 0x40001000 true] = .ok k
      ∧ (k.proc 1).pagetable.leaf (0x40001000 / pgSize) = some e
      ∧ kexit k 1 0 = .ok k'
      ∧ kwait k' 0 0 = .ok (some (.inl 2), k'')
      ∧ k''.glob.phys.freelist.count e.pa = 0 :=
  ⟨⟨_, _, rfl, rfl, rfl, rfl⟩, ⟨_, rfl, rfl⟩,
    _, _, _, _, rfl, rfl, rfl, rfl, by decide⟩

end Xv6Labs.Model
