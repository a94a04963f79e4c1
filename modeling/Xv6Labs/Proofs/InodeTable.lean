/-
Inode table accounting.

`Tabled x g`: the count of every slot is the number of open files on it,
plus `x` for the working directories. With the locks and transactions that
every call gives back this is the state between any two calls (`Settled`).
-/
import Xv6Labs.Proofs.InodeCounts
import Xv6Labs.Proofs.Locking
import Xv6Labs.Proofs.Origins

namespace Xv6Labs.Model

open Lib Finset

variable {x : Nat → Int} {g g' : Glob}
variable {f i r : Nat} {p p' : Proc} {k k' : Kernel}
variable {y : Nat → Int} {fd : Int} {d : Nat}

/-- Every slot counts the open files on it and `x`; an entry of the file
table that is not in use has no type, and one that is in use exists. -/
structure Tabled (x : Nat → Int) (g : Glob) : Prop where
  counts : Counts g.ftable (g.pins x) g
  idle : ∀ f, (g.ftable f).ref < 1 → (g.ftable f).type = .none
  inTable : ∀ f, 1 ≤ (g.ftable f).ref → f < nfile

theorem Tabled.after (h : Tabled x g) (hc : Counts g.ftable (g.pins y) g') : Tabled y g' := by
  have hf := hc.files
  refine ⟨?_, hf ▸ h.idle, hf ▸ h.inTable⟩
  rw [pins_congr hf, hf]
  exact hc

theorem Tabled.still (h : Tabled x g) (hs : Still g g') : Tabled x g' :=
  h.after (hs.counts h.counts)

/-- The reference that a lookup returned. -/
theorem Tabled.found (h : Tabled x g) (hc : Counts g.ftable (held (g.pins x) (some i)) g') :
    Tabled (bump x i) g' :=
  h.after (by rw [pins_bump]; exact hc)

theorem iput_tabled (h : Tabled (bump x i) g) : Tabled x (iput g i) := by
  have hc := h.counts
  rw [pins_bump] at hc
  exact h.after (iput_counts hc)

-- == the files

/-- One entry of the file table is rewritten; the slots it held or holds
are counted in `y`. -/
theorem setFile_tabled {fl : File} (h : Tabled x g) (hlt : f < nfile)
    (hy : ∀ ip, x ip + (g.ftable f).holds ip = y ip + fl.holds ip)
    (hidle : fl.ref < 1 → fl.type = .none) : Tabled y (g.setFile f fl) := by
  have hpins : (g.setFile f fl).pins y = g.pins x := by
    funext ip
    have hx := pins_setFile (x := y) g fl hlt ip
    have := hy ip
    unfold Glob.pins at *
    omega
  refine ⟨?_, fun f' hf' => ?_, fun f' hf' => ?_⟩
  · rw [hpins]
    exact { h.counts with files := rfl }
  · simp only [Glob.setFile] at hf' ⊢
    split at hf'
    · next heq =>
      rw [if_pos heq]
      exact hidle hf'
    · next heq =>
      rw [if_neg heq]
      exact h.idle f' hf'
  · simp only [Glob.setFile] at hf'
    split at hf'
    · next heq => exact heq ▸ hlt
    · exact h.inTable f' hf'

theorem filedup_tabled (h : Tabled x g) (hd : filedup g f = .ok g') : Tabled x g' := by
  obtain ⟨href, rfl⟩ := filedup_ok hd
  refine setFile_tabled h (h.inTable f href) (fun _ => rfl) fun hlt => ?_
  dsimp only at hlt
  omega

theorem filealloc_tabled (h : Tabled x g) (ha : filealloc g = some (f, g')) :
    Tabled x g' ∧ f < nfile ∧ (g'.ftable f).type = .none
      ∧ (g'.ftable f).ref = 1 ∧ ∀ ip, g'.dinode ip = g.dinode ip := by
  obtain ⟨hlt, hz, rfl⟩ := filealloc_some ha
  have hself : (g.setFile f { g.ftable f with ref := 1 }).ftable f
      = { g.ftable f with ref := 1 } := if_pos rfl
  refine ⟨setFile_tabled h hlt (fun _ => rfl) (fun hlt => ?_), hlt, ?_, ?_, fun _ => rfl⟩
  · exact absurd (show (1 : Int) < 1 from hlt) (by decide)
  · rw [hself]
    exact h.idle f (by omega)
  · rw [hself]

theorem fileclose_tabled (h : Tabled x g) (hcl : fileclose g f = .ok g') : Tabled x g' := by
  have hlt : f < nfile := by
    refine h.inTable f ?_
    cases fileclose_closed hcl <;> omega
  have hnone : (g.ftable f).type ≠ .inode → (g.ftable f).type ≠ .device →
      Tabled x (g.setFile f { g.ftable f with ref := 0, type := .none }) := by
    intro h1 h2
    refine setFile_tabled h hlt (fun j => ?_) fun _ => rfl
    rw [holds_none (show File.type
      { g.ftable f with ref := 0, type := .none } = .none from rfl)]
    unfold File.holds
    rw [if_neg (by simp [h1, h2])]
  cases fileclose_closed hcl with
  | more href =>
    refine setFile_tabled h hlt (fun _ => rfl) fun hz => ?_
    dsimp only at hz
    omega
  | inode _ ht hip =>
    -- the reference that the entry held is the one that is put
    exact iput_tabled (setFile_tabled h hlt (holds_moves ht hip rfl) fun _ => rfl)
  | pipe _ ht hclose =>
    have hp := hnone (by rw [ht]; decide) (by rw [ht]; decide)
    refine hp.after (hp.counts.congr ?_ ?_ ?_ ?_) <;>
    obtain ⟨_, rfl | ⟨_, _, rfl⟩⟩ := pipeclose_cases hclose <;>
    first | rfl | exact fun _ => rfl
  | none _ ht => exact hnone (by rw [ht]; decide) (by rw [ht]; decide)

theorem sysDup_tabled (h : Tabled x g) (hd : sysDup p g fd = .ok (r, p', g')) : Tabled x g' := by
  rcases sysDup_cases hd with ⟨_, rfl⟩ | ⟨f, _, _, hd⟩
  · exact h
  · exact filedup_tabled h hd

theorem sysClose_tabled (h : Tabled x g)
    (hcl : sysClose p g fd = .ok (r, p', g')) : Tabled x g' := by
  rcases sysClose_cases hcl with ⟨_, rfl⟩ | ⟨f, _, hc, _⟩
  · exact h
  · exact fileclose_tabled h hc

theorem sysOpen_tabled {path : Option (List UInt8)} {omode : UInt32}
    {room : Nat} (h : Tabled x g) (hcwd : CwdCounted (g.pins x) p.cwd)
    (hs : sysOpen p g path omode room = .ok (r, p', g')) : Tabled x g' := by
  cases sysOpen_opened hs with
  | refused => exact h
  | missing ho => exact h.after (openInode_counts h.counts hcwd ho)
  | unopened ho =>
    exact iput_tabled (h.found (openInode_counts h.counts hcwd ho))
  | full ho ha hc =>
    -- no descriptor: the entry is closed while it has no type
    have hb1 := h.found (openInode_counts h.counts hcwd ho)
    exact iput_tabled (fileclose_tabled (filealloc_tabled hb1 ha).1 hc)
  | @opened _ _ ip f _ g1 g2 _ _ ho ha _ hg =>
    have hb1 := h.found (openInode_counts h.counts hcwd ho)
    obtain ⟨hb2, hlt, ht, href, _⟩ := filealloc_tabled hb1 ha
    obtain ⟨htype, hip⟩ := openFile_inode (g2.ftable f) (g1.dinode ip) ip omode
    have hopen : Tabled x (g2.setFile f (openFile (g2.ftable f) (g1.dinode ip) ip omode)) := by
      refine setFile_tabled hb2 hlt (fun j => (holds_moves htype hip ht j).symm) fun hz => ?_
      rw [openFile_ref, href] at hz
      exact absurd hz (by decide)
    rcases hg with rfl | rfl
    · exact hopen
    · exact hopen.after (hopen.counts.setDisk _ _)

-- == the kernel

theorem cwds_pos (hi : i < nproc) (hl : (k.proc i).isLive = true)
    (hd : (k.proc i).cwd = some d) : 0 < k.cwds d := by
  have hrow := row_le_sum (f := fun j => (k.proc j).cwdHolds d) hi
  rw [cwdHolds_live hl hd, if_pos rfl] at hrow
  unfold Kernel.cwds
  omega

theorem cwd_counted (hi : i < nproc) (hl : (k.proc i).isLive = true) :
    CwdCounted (k.glob.pins k.cwds) (k.proc i).cwd := by
  intro d hd
  have := cwds_pos hi hl hd
  unfold Glob.pins
  omega

theorem cwds_move (k : Kernel) {e : Nat} (g : Glob) (hi : i < nproc)
    (hl : (k.proc i).isLive = true) (hd : (k.proc i).cwd = some d)
    (hp : p.isLive = true) (he : p.cwd = some e) :
    ∃ x, k.cwds = bump x d ∧ (k.put i (p, g)).cwds = bump x e := by
  refine ⟨fun j => k.cwds j - if j = d then 1 else 0, ?_, ?_⟩
  · funext j
    simp only [bump]
    omega
  funext j
  have hx := cwds_exchange k (k.put i (p, g)) hi (fun a ip ha => by
    rw [Kernel.put_of_ne _ _ ha]) j
  rw [Kernel.put_self, cwdHolds_live hl hd, cwdHolds_live hp he] at hx
  simp only [bump]
  split_ifs at hx ⊢ <;> omega

theorem kfork_tabled {o : Option Nat} (h : Tabled k.cwds k.glob)
    (hi : i < nproc) (hl : (k.proc i).isLive = true)
    (hf : kfork k i = .ok (o, k')) : Tabled k'.cwds k'.glob := by
  cases o with
  | some j =>
    obtain ⟨hj, hst, tf, _, _, _, pt, ph, ⟨np, g⟩, _, _, _, hrest, rfl⟩ := kfork_some hf
    obtain ⟨ofile, hnp⟩ := forkRest_frame (fun _ => rfl) hrest
    obtain ⟨c, g2, hc, hb, rfl⟩ := forkRest_inv (Tabled k.cwds)
      (h.after (h.counts.memory ph)) (fun _ _ _ hb hd => filedup_tabled hb hd) hrest
    rw [cwds_born k.tick _ hj (not_live_of_state (.inl hst))
      (by rw [hnp]; rfl) (by rw [hnp]; exact hc)]
    have hpos : 0 < g2.pins k.cwds c := by
      have := cwds_pos hi hl hc
      unfold Glob.pins
      omega
    exact hb.found (idup_counts hb.counts hpos)
  | none =>
    rcases kfork_none hf with rfl | ⟨j, hj, hst, tf, pt, ph, rfl⟩
    · exact h
    · rw [cwds_put_dead k.tick _ (not_live_of_state (.inl hst)) rfl]
      exact h.after (h.counts.memory ph)

theorem kexit_tabled {status : Int} (h : Tabled k.cwds k.glob) (hi : i < nproc)
    (hl : (k.proc i).isLive = true) (hs : kexit k i status = .ok k') : Tabled k'.cwds k'.glob := by
  obtain ⟨p, g, c, hself, rfl, hc, hcwds⟩ := kexit_cwds hi hl hs
  rw [← hcwds] at h
  obtain ⟨g1, _, p2, h1, hc', h2, rfl⟩ := exitSelf_ok hself
  cases hc.symm.trans hc'
  have hb1 := exitFds_inv (Tabled _) h (fun _ _ _ hb hcl => fileclose_tabled hb hcl) h1
  exact (iput_tabled hb1).still (exitVmas_frame h2).2.still

/-- A call of one process that changes neither its directory nor whether
it is live. -/
theorem Tabled.put (h : Tabled k.cwds g) (hc : p.cwd = (k.proc i).cwd)
    (hl : p.isLive = (k.proc i).isLive) : Tabled (k.put i (p, g)).cwds (k.put i (p, g)).glob := by
  rw [cwds_put k g hc hl]
  exact h

theorem kwait_tabled {addr : Nat} {o : Option (Nat ⊕ Unit)}
    (h : Tabled k.cwds k.glob) (hl : (k.proc i).isLive = true)
    (hw : kwait k i addr = .ok (o, k')) : Tabled k'.cwds k'.glob := by
  rcases kwait_cases hw with rfl | ⟨j, p, g, hj, hout, hk'⟩
  · exact h
  have hput : Tabled (k.put i (p, g)).cwds (k.put i (p, g)).glob := by
    obtain ⟨⟨pt, rfl⟩, hq⟩ := hout.frame
    exact (h.still hq.still).put rfl rfl
  rcases hk' with rfl | ⟨q, ph, hfree, rfl⟩
  · exact hput
  -- the child is a zombie, so it is not the caller and holds nothing
  obtain ⟨_, hne, hdead⟩ := zombieChild_dead hl hj
  rw [cwds_put_dead _ _ (by rw [Kernel.put_of_ne k _ hne]; exact hdead)
    (by rw [freeproc_freed hfree]; rfl)]
  exact hput.after (hput.counts.memory ph)

theorem fileStep_tabled {call : FileCall} (h : Tabled k.cwds k.glob)
    (hi : i < nproc) (hl : (k.proc i).isLive = true)
    (hs : fileStep k i call = .ok k') : Tabled k'.cwds k'.glob := by
  have hcwd := cwd_counted hi hl
  cases call with
  | fork =>
    obtain ⟨⟨o, k1⟩, h1, hs⟩ := bind_ok hs
    cases hs
    exact kfork_tabled h hi hl h1
  | exit status => exact kexit_tabled h hi hl hs
  | wait addr =>
    obtain ⟨⟨o, k1⟩, h1, hs⟩ := bind_ok hs
    cases hs
    exact kwait_tabled h hl h1
  | openFile path omode room =>
    obtain ⟨⟨r, p, g⟩, h1, hs⟩ := bind_ok hs
    cases hs
    obtain ⟨pt, o, rfl⟩ := (sysOpen_balanced h1).1
    exact (sysOpen_tabled h hcwd h1).put rfl rfl
  | close fd =>
    obtain ⟨⟨r, p, g⟩, h1, hs⟩ := bind_ok hs
    cases hs
    obtain ⟨pt, o, rfl⟩ := (sysClose_balanced h1).1
    exact (sysClose_tabled h h1).put rfl rfl
  | dup fd =>
    obtain ⟨⟨r, p, g⟩, h1, hs⟩ := bind_ok hs
    cases hs
    obtain ⟨pt, o, rfl⟩ := (sysDup_balanced h1).1
    exact (sysDup_tabled h h1).put rfl rfl
  | link old new room =>
    obtain ⟨⟨r, p, g⟩, h1, hs⟩ := bind_ok hs
    cases hs
    obtain ⟨rfl, hc⟩ := h.counts.call (counts_tracks hcwd).sysLink h1
    exact (h.after hc).put rfl rfl
  | unlink path =>
    obtain ⟨⟨r, p, g⟩, h1, hs⟩ := bind_ok hs
    cases hs
    obtain ⟨rfl, hc⟩ := h.counts.call ((counts_tracks hcwd).sysUnlink rfl) h1
    exact (h.after hc).put rfl rfl
  | mkdir path room =>
    obtain ⟨⟨r, p, g⟩, h1, hs⟩ := bind_ok hs
    cases hs
    obtain ⟨rfl, hc⟩ := h.counts.call (counts_tracks hcwd).sysCreate h1
    exact (h.after hc).put rfl rfl
  | mknod path major minor room =>
    obtain ⟨⟨r, p, g⟩, h1, hs⟩ := bind_ok hs
    cases hs
    obtain ⟨rfl, hc⟩ := h.counts.call (counts_tracks hcwd).sysCreate h1
    exact (h.after hc).put rfl rfl
  | exec path argv =>
    obtain ⟨⟨r, p, g⟩, h1, hs⟩ := bind_ok hs
    cases hs
    obtain ⟨⟨regs, name, pt, sz, rfl⟩, _⟩ := kexec_frame _ h1
    exact (h.after (kexec_counts h.counts hcwd h1)).put rfl rfl
  | chdir path =>
    obtain ⟨⟨r, p, g⟩, h1, hs⟩ := bind_ok hs
    cases hs
    rcases sysChdir_counts h.counts hcwd h1 with
      ⟨rfl, hc⟩ | ⟨d, e, hd, rfl, hc⟩
    · exact (h.after hc).put rfl rfl
    obtain ⟨x, hx, hx'⟩ := cwds_move k (p := { k.proc i with cwd := some e }) g hi hl hd hl rfl
    rw [hx']
    refine h.after ?_
    rw [pins_bump]
    exact hc _ (by rw [hx, pins_bump])

-- == runs

/-- The live processes whose working directory is slot `ip`. -/
def Kernel.cwdCount (k : Kernel) (ip : Nat) : Nat :=
  ((range nproc).filter fun i =>
    (k.proc i).isLive = true ∧ (k.proc i).cwd = some ip).card

/-- The entries of the file table in use that are files or devices on
slot `ip`. -/
def Glob.openCount (g : Glob) (ip : Nat) : Nat :=
  ((range nfile).filter fun f => 0 < (g.ftable f).ref
    ∧ ((g.ftable f).type = .inode ∨ (g.ftable f).type = .device)
    ∧ (g.ftable f).ip = some ip).card

/-- The inode table between two calls: each inode in one slot, counts
that are the directories and files on it, no lock, no transaction. -/
structure Settled (y : System) : Prop where
  unique : ∀ a b, 0 < (y.kernel.glob.itable a).ref →
    0 < (y.kernel.glob.itable b).ref →
    (y.kernel.glob.itable a).dev = (y.kernel.glob.itable b).dev →
    (y.kernel.glob.itable a).inum = (y.kernel.glob.itable b).inum → a = b
  refs : ∀ ip, (y.kernel.glob.itable ip).ref
    = (y.kernel.cwdCount ip : Int) + y.kernel.glob.openCount ip
  unlocked : ∀ ip, y.locked ip = false
  outstanding : y.outstanding = 0

theorem cwdCount_eq (k : Kernel) (ip : Nat) : (k.cwdCount ip : Int) = k.cwds ip := by
  unfold Kernel.cwdCount Kernel.cwds
  rw [card_filter, sum_congr rfl fun i _ => ?_]
  unfold Proc.cwdHolds hits
  by_cases hl : (k.proc i).isLive = true <;> simp [hl]

/-- Entries that are not in use have no type, so what counts the entries
by type counts those in use. -/
theorem Tabled.openCount (h : Tabled x g) (ip : Nat) :
    g.openCount ip = ∑ f ∈ range nfile, (g.ftable f).holds ip := by
  unfold Glob.openCount
  rw [card_filter]
  refine sum_congr rfl fun f _ => ?_
  unfold File.holds hits
  by_cases href : (g.ftable f).ref < 1
  · rw [h.idle f href, if_neg (by omega), if_neg (by decide)]
  · simp only [show 0 < (g.ftable f).ref by omega, true_and]
    by_cases ht : (g.ftable f).type = .inode ∨ (g.ftable f).type = .device <;> simp [ht]

theorem Tabled.settled {y : System} (h : Tabled y.kernel.cwds y.kernel.glob)
    (hl : ∀ ip, y.locked ip = false) (ho : y.outstanding = 0) : Settled y := by
  refine ⟨fun a b ha hb => ?_, fun ip => ?_, hl, ho⟩
  · rw [h.counts.refs] at ha hb
    exact h.counts.unique a b ha hb
  · rw [h.counts.refs, cwdCount_eq, h.openCount]
    unfold Glob.pins
    omega

/-- A call of the process in a slot, if it is live and the call comes
back. -/
def System.act (y : System) (e : Nat × FileCall) : Option System :=
  if e.1 < nproc ∧ (y.kernel.proc e.1).isLive = true then
    (y.step e.1 e.2).toOption
  else none

/-- One call of some live process. -/
def System.Calls (y y' : System) : Prop := ∃ e, y.act e = some y'

theorem System.Calls.step {y y' : System} (h : y.Calls y') :
    ∃ i call, i < nproc ∧ (y.kernel.proc i).isLive = true ∧ y.step i call = .ok y' := by
  obtain ⟨e, h⟩ := h
  unfold System.act at h
  split at h
  · next hlive =>
    refine ⟨e.1, e.2, hlive.1, hlive.2, ?_⟩
    cases hs : y.step e.1 e.2 with
    | error _ =>
      rw [hs] at h
      cases h
    | ok s =>
      rw [hs] at h
      cases h
      rfl
  · cases h

/-- Wherever calls on files get, with whatever outcomes, the inode table
counts its users, no lock is held and no transaction is open. -/
theorem inode_table_settled {y₀ y : System}
    (h0 : Tabled y₀.kernel.cwds y₀.kernel.glob)
    (hl : ∀ ip, y₀.locked ip = false) (ho : y₀.outstanding = 0)
    (hr : Reaches System.Calls y₀ y) : Settled y := by
  have hinv : Tabled y.kernel.cwds y.kernel.glob
      ∧ (∀ ip, y.locked ip = false) ∧ y.outstanding = 0 := by
    refine hr.inv (P := fun y => Tabled y.kernel.cwds y.kernel.glob
      ∧ (∀ ip, y.locked ip = false) ∧ y.outstanding = 0) ⟨h0, hl, ho⟩ ?_
    rintro s s' ⟨ht, hlock, hout⟩ hcall
    obtain ⟨i, call, hi, hlive, hs⟩ := hcall.step
    obtain ⟨hk, hlock', hout'⟩ := System.step_erase hs
    refine ⟨fileStep_tabled ht hi hlive hk, ?_, hout'.trans hout⟩
    rw [hlock']
    exact hlock
  exact hinv.1.settled hinv.2.1 hinv.2.2

/-- After boot the two open files and the two directories are the
references. -/
theorem boot_tabled : Tabled bootKernel.cwds bootKernel.glob where
  counts := by
    have hrefs : ∀ ip, (bootGlob.itable ip).ref = bootGlob.pins bootKernel.cwds ip := by
      intro ip
      match ip with
      | 0 => decide
      | 1 => decide
      | 2 => decide
      | ip + 3 =>
        unfold Glob.pins Kernel.cwds
        rw [sum_zero fun f _ => by rw [boot_holds, if_neg (by omega)],
          sum_zero fun i _ => boot_cwdHolds i (ip + 3) (by omega)]
        rfl
    exact ⟨rfl, hrefs,
      fun ip hpos => (boot_used (hrefs ip ▸ hpos)).trans (by decide),
      fun a b ha hb _ hn => boot_inum (hrefs a ▸ ha) (hrefs b ▸ hb) hn⟩
  idle f hf := by
    show (if f < 2 then bootOpen f else .zero : File).type = .none
    have hge : ¬ f < 2 := by
      intro hlt
      have hopen : bootGlob.ftable f = bootOpen f := if_pos hlt
      rw [show bootKernel.glob = bootGlob from rfl, hopen] at hf
      exact absurd (show (1 : Int) < 1 from hf) (by decide)
    rw [if_neg hge]
    rfl
  inTable := boot_pinned.inTable

/-- The kernel after boot, with no lock taken. -/
def bootSystem : System := ⟨bootKernel, fun _ => false, 0⟩

/-- A process makes a directory and enters it, creates a file and links
it, removes the directory it is in, forks, and exits; the child fails to
run the file. -/
theorem inode_table_settled_boot :
    ∃ y, Reaches System.Calls bootSystem y
      ∧ (y.kernel.proc 1).state = .zombie ∧ Settled y := by
  have hrun : (play System.act bootSystem
      [(1, .mkdir (some [47, 100]) 1024), (1, .chdir (some [100])),
        (1, .openFile (some [47, 102]) 0x202 1024),
        (1, .link (some [47, 102]) (some [47, 103]) 1024),
        (1, .unlink (some [47, 100])), (1, .fork), (2, .exec [47, 102] []),
        (1, .exit 0)]).any
      (fun y => decide ((y.kernel.proc 1).state = .zombie)) = true := by
    decide +kernel
  obtain ⟨y, hr, hz⟩ := reaches_of_any hrun
  refine ⟨y, hr, of_decide_eq_true hz, inode_table_settled ?_ ?_ ?_ hr⟩
  · exact boot_tabled
  · intro _
    rfl
  · rfl

end Xv6Labs.Model
