/-
Locks and transactions are given back: every call with its locks does to
the shared state what the call without them does, on every exit. A state is
written `⟨g, L, n⟩`: the shared state, the locks and the transactions.
-/
import Xv6Labs.Model.Locking

namespace Xv6Labs.Model

open Lib Function

variable {g : Glob} {L : Nat → Bool} {n : Int} {α β : Type}
variable {dp i ip room : Nat} {name path : List UInt8} {cwd : Option Nat}
  {type : IType} {p : Proc} {y : System}

variable {a : α} {parent : Bool} {fd major minor : Int} {omode : UInt32}
  {argv : List (List UInt8)}

-- == primitives

/-- The same shared state, with locks `L` and `n` transactions. -/
def Under (L : Nat → Bool) (n : Int) (s : Fs) (g : Glob) : Prop := s = ⟨g, L, n⟩

def Under₂ (L : Nat → Bool) (n : Int) (r : α × Fs) (r' : α × Glob) : Prop :=
  r = (r'.1, ⟨r'.2, L, n⟩)

def Under₃ (L : Nat → Bool) (n : Int) (r : α × β × Fs) (r' : α × β × Glob) : Prop :=
  r = (r'.1, r'.2.1, ⟨r'.2.2, L, n⟩)

theorem orPanic_sim (r : Except Panic α) : Sim (· = ·) (orPanic r) r := by
  cases r with
  | error e => exact .error
  | ok a => exact .ok rfl

namespace Fs

theorem endOp_eq : (⟨g, L, n + 1⟩ : Fs).endOp = ⟨g, L, n⟩ := by
  unfold endOp
  rw [Int.add_sub_cancel]

theorem endOp₂ : Under₂ L n (a, (⟨g, L, n + 1⟩ : Fs).endOp) (a, g) := by
  rw [endOp_eq]
  rfl

theorem endOp₃ {b : β} : Under₃ L n (a, b, (⟨g, L, n + 1⟩ : Fs).endOp) (a, b, g) := by
  rw [endOp_eq]
  rfl

theorem ilock_sim :
    Sim (fun s g' => Under (update L ip true) n s g' ∧ L ip = false)
      ((⟨g, L, n⟩ : Fs).ilock ip) (Model.ilock g ip) := by
  unfold ilock
  split
  · exact .error
  split
  · exact .error
  · next hfree =>
    intro s hs
    obtain ⟨g', hg, hs⟩ := bind_ok hs
    obtain ⟨_, hg', rfl⟩ := orPanic_sim _ _ hg
    cases hs
    exact ⟨g', hg', rfl, Bool.eq_false_iff.mpr hfree⟩

theorem iput_ok (s' : Fs) (h : (⟨g, L, n⟩ : Fs).iput ip = .ok s') :
    s' = ⟨Model.iput g ip, L, n⟩ := by
  unfold iput at h
  dsimp only at h
  split at h <;> cases h
  rfl

theorem iunlock_ok (s' : Fs) (h : (⟨g, L, n⟩ : Fs).iunlock ip = .ok s') :
    s' = ⟨g, update L ip false, n⟩ := by
  unfold iunlock at h
  split at h <;> cases h
  rfl

theorem iunlockput_ok (s' : Fs) (h : (⟨g, L, n⟩ : Fs).iunlockput ip = .ok s') :
    s' = ⟨Model.iput g ip, update L ip false, n⟩ := by
  obtain ⟨s1, h1, h⟩ := bind_ok h
  cases iunlock_ok s1 h1
  exact iput_ok s' h

theorem relock (h : L ip = false) : update (update L ip true) ip false = L := by
  rw [update_idem, ← h, update_eq_self]

theorem relock_under (hdp : L dp = false) (hip : update L dp true ip = false) :
    L ip = false ∧ update (update (update L dp true) ip true) dp false = update L ip true := by
  have hne : ip ≠ dp := by
    rintro rfl
    rw [update_self] at hip
    cases hip
  rw [update_of_ne hne] at hip
  refine ⟨hip, ?_⟩
  rw [update_comm hne.symm, relock]
  rw [update_of_ne hne.symm, hdp]

theorem unlocks (hip : L ip = false) (s' : Fs)
    (h : (⟨g, update L ip true, n⟩ : Fs).iunlock ip = .ok s') : s' = ⟨g, L, n⟩ := by
  rw [iunlock_ok s' h, relock hip]

theorem puts (hip : L ip = false) (s' : Fs)
    (h : (⟨g, update L ip true, n⟩ : Fs).iunlockput ip = .ok s') :
    s' = ⟨Model.iput g ip, L, n⟩ := by
  rw [iunlockput_ok s' h, relock hip]

theorem run_sim (r : Except Panic (α × Glob)) : Sim (Under₂ L n) ((⟨g, L, n⟩ : Fs).run r) r := by
  cases r with
  | error e => exact .error
  | ok a => exact .ok rfl

-- == names

theorem dirlink_sim {inum : Nat} :
    Sim (Under₂ L n) ((⟨g, L, n⟩ : Fs).dirlink dp name inum room)
      (Model.dirlink g dp name inum room) := by
  refine (run_sim _).bind ?_
  rintro _ ⟨o, g1⟩ rfl
  cases o with
  | none => exact .ok rfl
  | some e => exact .step iput_ok (.ok rfl)

theorem namexLoop_sim {elems : List (List UInt8)}
    {last : List UInt8} :
    Sim (Under₃ L n) (namexLoop parent elems last ip ⟨g, L, n⟩)
      (Model.namexLoop parent elems last ip g) := by
  induction elems generalizing last ip g with
  | nil => exact .ite (.step iput_ok (.ok rfl)) (.ok rfl)
  | cons e rest ih =>
    refine ilock_sim.bind ?_
    rintro _ g1 ⟨rfl, hip⟩
    refine .ite (.step (puts hip) (.ok rfl)) ?_
    refine .ite (.step (unlocks hip) (.ok rfl)) ?_
    refine (run_sim _).bind ?_
    rintro _ ⟨o, g2⟩ rfl
    cases o with
    | none => exact .step (puts hip) (.ok rfl)
    | some next => exact .step (puts hip) ih

theorem namex_sim :
    Sim (Under₃ L n) ((⟨g, L, n⟩ : Fs).namex cwd path parent) (Model.namex g cwd path parent) := by
  refine .ite ?_ ?_
  · refine (run_sim _).bind ?_
    rintro _ ⟨ip, g1⟩ rfl
    exact namexLoop_sim
  · cases cwd with
    | none => exact .error
    | some c => exact namexLoop_sim

theorem namei_sim :
    Sim (Under₂ L n) ((⟨g, L, n⟩ : Fs).namei cwd path) (Model.namei g cwd path) := by
  refine namex_sim.bind ?_
  rintro _ ⟨o, name, g1⟩ rfl
  exact .ok rfl

-- == create

/-- The locks after a call that returns an inode locked, or nothing. -/
def handOn (L : Nat → Bool) : Option Nat → Nat → Bool
  | none => L
  | some ip => update L ip true

/-- The result of such a call. -/
def HandsOn (L : Nat → Bool) (n : Int) (r : Option Nat × Fs) (r' : Option Nat × Glob) : Prop :=
  r = (r'.1, ⟨r'.2, handOn L r'.1, n⟩) ∧ ∀ ip, r'.1 = some ip → L ip = false

theorem HandsOn.none : HandsOn L n (none, ⟨g, L, n⟩) (none, g) := ⟨rfl, nofun⟩

theorem HandsOn.some (h : L ip = false) :
    HandsOn L n (some ip, ⟨g, update L ip true, n⟩) (some ip, g) := by
  refine ⟨rfl, fun ip' heq => ?_⟩
  cases heq
  exact h

theorem createDots_sim :
    Sim (Under₂ L n) ((⟨g, L, n⟩ : Fs).createDots dp ip room) (Model.createDots g dp ip room) := by
  refine dirlink_sim.bind ?_
  rintro _ ⟨ok, g1⟩ rfl
  exact .ite dirlink_sim (.ok rfl)

/-- create's last part starts with both inodes locked, the directory
first. -/
theorem createLink_sim (hdp : L dp = false) (hip : update L dp true ip = false) :
    Sim (HandsOn L n)
      ((⟨g, update (update L dp true) ip true, n⟩ : Fs).createLink dp ip name type room)
      (Model.createLink g dp ip name type room) := by
  obtain ⟨hfree, hlock⟩ := relock_under hdp hip
  refine Sim.bind (.ite createDots_sim (.ok rfl)) ?_
  rintro _ ⟨ok, g1⟩ rfl
  refine Sim.bind (.ite dirlink_sim (.ok rfl)) ?_
  rintro _ ⟨ok, g2⟩ rfl
  refine .ite ?_ (.step (puts hip) (.step (puts hdp) (.ok .none)))
  -- the directory is unlocked under the lock of the new inode
  by_cases ht : type = .dir
  all_goals
    simp only [ht, if_true, if_false]
    exact .step iunlockput_ok (.ok (hlock ▸ .some hfree))

theorem create_sim :
    Sim (HandsOn L n) ((⟨g, L, n⟩ : Fs).create cwd path type major minor room)
      (Model.create g cwd path type major minor room) := by
  refine namex_sim.bind ?_
  rintro _ ⟨o, name, g1⟩ rfl
  cases o with
  | none => exact .ok .none
  | some dp =>
    refine ilock_sim.bind ?_
    rintro _ g2 ⟨rfl, hdp⟩
    refine (run_sim _).bind ?_
    rintro _ ⟨o, g3⟩ rfl
    cases o with
    | some e =>
      refine .step (puts hdp) (ilock_sim.bind ?_)
      rintro _ g4 ⟨rfl, hip⟩
      exact .ite (.ok (.some hip)) (.step (puts hip) (.ok .none))
    | none =>
      refine (run_sim _).bind ?_
      rintro _ ⟨o, g4⟩ rfl
      cases o with
      | none => exact .step (puts hdp) (.ok .none)
      | some ip =>
        refine ilock_sim.bind ?_
        rintro _ g5 ⟨rfl, hip⟩
        exact createLink_sim hdp hip


-- == open, close

theorem fileclose_sim {f : Nat} :
    Sim (Under L n) ((⟨g, L, n⟩ : Fs).fileclose f) (Model.fileclose g f) := by
  refine .ite .error (.ite (.ok rfl) ?_)
  -- the last close of a file on an inode puts it in a transaction
  cases (g.ftable f).type with
  | none => exact .ok rfl
  | pipe =>
    refine (orPanic_sim _).map ?_
    rintro g1 _ rfl
    rfl
  | inode =>
    cases (g.ftable f).ip with
    | none => exact .error
    | some ip => exact .step iput_ok (.ok endOp_eq)
  | device =>
    cases (g.ftable f).ip with
    | none => exact .error
    | some ip => exact .step iput_ok (.ok endOp_eq)

theorem sysDup_sim : Sim (Under₃ L n) (sysDup p ⟨g, L, n⟩ fd) (Model.sysDup p g fd) := by
  refine (orPanic_sim _).map ?_
  rintro r _ rfl
  rfl

theorem sysClose_sim : Sim (Under₃ L n) (sysClose p ⟨g, L, n⟩ fd) (Model.sysClose p g fd) := by
  unfold sysClose Model.sysClose
  cases argfd p fd with
  | none => exact .ok rfl
  | some f =>
    refine fileclose_sim.bind ?_
    rintro _ g1 rfl
    exact .ok rfl

theorem openInode_sim :
    Sim (HandsOn L n) ((⟨g, L, n⟩ : Fs).openInode cwd path omode room)
      (Model.openInode g cwd path omode room) := by
  refine .ite create_sim (namei_sim.bind ?_)
  rintro _ ⟨o, g1⟩ rfl
  cases o with
  | none => exact .ok .none
  | some ip =>
    refine ilock_sim.bind ?_
    rintro _ g2 ⟨rfl, hip⟩
    exact .ite (.step (puts hip) (.ok .none)) (.ok (.some hip))

theorem sysOpen_sim {path : Option (List UInt8)} :
    Sim (Under₃ L n) (sysOpen p ⟨g, L, n⟩ path omode room) (Model.sysOpen p g path omode room) := by
  cases path with
  | none => exact .ok rfl
  | some path =>
    refine openInode_sim.bind ?_
    rintro _ ⟨o, g1⟩ ⟨rfl, hfree⟩
    cases o with
    | none => exact .ok endOp₃
    | some ip =>
      have hip := hfree ip rfl
      refine .ite (.step (puts hip) (.ok endOp₃)) ?_
      cases filealloc g1 with
      | none => exact .step (puts hip) (.ok endOp₃)
      | some r =>
        obtain ⟨f, g2⟩ := r
        dsimp only
        cases fdalloc p f with
        | none =>
          refine fileclose_sim.bind ?_
          rintro _ g3 rfl
          exact .step (puts hip) (.ok endOp₃)
        | some r =>
          exact .step (unlocks hip) (.ok endOp₃)

-- == link, unlink

theorem linkBad_sim : Sim (Under L n) ((⟨g, L, n + 1⟩ : Fs).linkBad ip) (Model.linkBad g ip) := by
  refine ilock_sim.bind ?_
  rintro _ g1 ⟨rfl, hip⟩
  exact .step (puts hip) (.ok endOp_eq)

theorem linkNew_sim {new : List UInt8} :
    Sim (Under₂ L n) ((⟨g, L, n + 1⟩ : Fs).linkNew cwd ip new room)
      (Model.linkNew g cwd ip new room) := by
  have hbad : ∀ {g : Glob}, Sim (Under₂ L n)
      ((⟨g, L, n + 1⟩ : Fs).linkBad ip >>= fun s => .ok (minusOne, s))
      (Model.linkBad g ip >>= fun g => .ok (minusOne, g)) := by
    intro g
    refine linkBad_sim.bind ?_
    rintro _ g1 rfl
    exact .ok rfl
  refine namex_sim.bind ?_
  rintro _ ⟨o, name, g1⟩ rfl
  cases o with
  | none => exact hbad
  | some dp =>
    refine ilock_sim.bind ?_
    rintro _ g2 ⟨rfl, hdp⟩
    refine Sim.bind (.ite (.ok rfl) dirlink_sim) ?_
    rintro _ ⟨ok, g3⟩ rfl
    exact .step (puts hdp) (.ite (.step iput_ok (.ok endOp₂)) hbad)

theorem sysLink_sim {old new : Option (List UInt8)} :
    Sim (Under₃ L n) (sysLink p ⟨g, L, n⟩ old new room) (Model.sysLink p g old new room) := by
  cases old with
  | none => exact .ok rfl
  | some old =>
    cases new with
    | none => exact .ok rfl
    | some new =>
      refine namei_sim.bind ?_
      rintro _ ⟨o, g1⟩ rfl
      cases o with
      | none => exact .ok endOp₃
      | some ip =>
        refine ilock_sim.bind ?_
        rintro _ g2 ⟨rfl, hip⟩
        refine Sim.bind (.ite (.step (puts hip) (.ok endOp₂)) (.step (unlocks hip) linkNew_sim)) ?_
        rintro _ ⟨r, g3⟩ rfl
        exact .ok rfl

/-- sys_unlink's last part starts with both inodes locked. -/
theorem unlinkDrop_ok (hdp : L dp = false) (hip : update L dp true ip = false) (s' : Fs)
    (h : (⟨g, update (update L dp true) ip true, n⟩ : Fs).unlinkDrop dp ip = .ok s') :
    s' = ⟨Model.unlinkDrop g dp ip, L, n⟩ := by
  obtain ⟨hfree, hlock⟩ := relock_under hdp hip
  obtain ⟨s1, h1, h⟩ := bind_ok h
  unfold Model.unlinkDrop
  split at h1
  · next ht =>
    rw [iunlockput_ok s1 h1, hlock] at h
    rw [if_pos ht]
    exact puts hfree s' h
  · next ht =>
    rw [iunlockput_ok s1 h1, hlock] at h
    rw [if_neg ht]
    exact puts hfree s' h

theorem unlinkIn_sim (hdp : L dp = false) :
    Sim (Under₂ L n) ((⟨g, update L dp true, n + 1⟩ : Fs).unlinkIn dp name)
      (Model.unlinkIn g dp name) := by
  refine .ite (.step (puts hdp) (.ok endOp₂)) ((run_sim _).bind ?_)
  rintro _ ⟨o, g1⟩ rfl
  cases o with
  | none => exact .step (puts hdp) (.ok endOp₂)
  | some e =>
    refine ilock_sim.bind ?_
    rintro _ g2 ⟨rfl, hip⟩
    refine .ite .error (.ite ?_ (.ite .error (.ite .error ?_)))
    · exact .step (puts hip) (.step (puts hdp) (.ok endOp₂))
    · exact .step (unlinkDrop_ok hdp hip) (.ok endOp₂)

theorem sysUnlink_sim {path : Option (List UInt8)} :
    Sim (Under₃ L n) (sysUnlink p ⟨g, L, n⟩ path) (Model.sysUnlink p g path) := by
  cases path with
  | none => exact .ok rfl
  | some path =>
    refine namex_sim.bind ?_
    rintro _ ⟨o, name, g1⟩ rfl
    cases o with
    | none => exact .ok endOp₃
    | some dp =>
      refine ilock_sim.bind ?_
      rintro _ g2 ⟨rfl, hdp⟩
      refine (unlinkIn_sim hdp).bind ?_
      rintro _ ⟨r, g3⟩ rfl
      exact .ok rfl

-- == mkdir, mknod, chdir

theorem sysCreate_sim {path : Option (List UInt8)} :
    Sim (Under₃ L n) (sysCreate p ⟨g, L, n⟩ path type major minor room)
      (Model.sysCreate p g path type major minor room) := by
  cases path with
  | none => exact .ok endOp₃
  | some path =>
    refine create_sim.bind ?_
    rintro _ ⟨o, g1⟩ ⟨rfl, hfree⟩
    cases o with
    | none => exact .ok endOp₃
    | some ip => exact .step (puts (hfree ip rfl)) (.ok endOp₃)

theorem sysChdir_sim {path : Option (List UInt8)} :
    Sim (Under₃ L n) (sysChdir p ⟨g, L, n⟩ path) (Model.sysChdir p g path) := by
  cases path with
  | none => exact .ok endOp₃
  | some path =>
    refine namei_sim.bind ?_
    rintro _ ⟨o, g1⟩ rfl
    cases o with
    | none => exact .ok endOp₃
    | some ip =>
      refine ilock_sim.bind ?_
      rintro _ g2 ⟨rfl, hip⟩
      refine .ite (.step (puts hip) (.ok endOp₃)) (.step (unlocks hip) ?_)
      cases p.cwd with
      | none => exact .error
      | some c => exact .step iput_ok (.ok endOp₃)

-- == exec, exit

theorem execBuild_sim :
    Sim (Under₂ L n) (execBuild p ⟨g, L, n⟩ path argv) (Model.execBuild p g path argv) := by
  refine namei_sim.bind ?_
  rintro _ ⟨o, g1⟩ rfl
  cases o with
  | none => exact .ok endOp₂
  | some ip =>
    refine ilock_sim.bind ?_
    rintro _ g2 ⟨rfl, hip⟩
    refine .ite (.step (puts hip) (.ok endOp₂)) ((orPanic_sim _).bind ?_)
    rintro ⟨o, phys⟩ _ rfl
    cases o with
    | none => exact .step (puts hip) (.ok endOp₂)
    | some pt =>
      refine (orPanic_sim _).bind ?_
      rintro (⟨sz, pt, g3⟩ | ⟨sz, pt, g3⟩) _ rfl
      · refine .step (puts hip) ?_
        rw [endOp_eq]
        refine (orPanic_sim _).bind ?_
        rintro ⟨o, sz, pt, g4⟩ _ rfl
        cases o with
        | none =>
          refine (orPanic_sim _).bind ?_
          rintro phys _ rfl
          exact .ok rfl
        | some img => exact .ok rfl
      · refine (orPanic_sim _).bind ?_
        rintro phys _ rfl
        exact .step (puts hip) (.ok endOp₂)

theorem kexec_sim : Sim (Under₃ L n) (kexec p ⟨g, L, n⟩ path argv) (Model.kexec p g path argv) := by
  refine execBuild_sim.bind ?_
  rintro _ ⟨o, g1⟩ rfl
  cases o with
  | none => exact .ok rfl
  | some img =>
    refine (orPanic_sim _).bind ?_
    rintro ⟨p, g2⟩ _ rfl
    exact .ok rfl

theorem exitFds_sim {m : Nat} :
    Sim (Under₂ L n) (forUpto exitFd m (p, ⟨g, L, n⟩)) (forUpto Model.exitFd m (p, g)) := by
  induction m with
  | zero => exact .ok rfl
  | succ m ih =>
    refine ih.bind ?_
    rintro _ ⟨p, g⟩ rfl
    unfold exitFd Model.exitFd
    cases p.ofile m with
    | none => exact .ok rfl
    | some f =>
      refine fileclose_sim.bind ?_
      rintro _ g1 rfl
      exact .ok rfl

theorem exitSelf_sim {status : Int} :
    Sim (Under₂ L n) (exitSelf p ⟨g, L, n⟩ status) (Model.exitSelf p g status) := by
  refine exitFds_sim.bind ?_
  rintro _ ⟨p, g⟩ rfl
  dsimp only
  cases p.cwd with
  | none => exact .error
  | some c =>
    refine .step iput_ok ?_
    rw [endOp_eq]
    refine (orPanic_sim _).bind ?_
    rintro ⟨p, g1⟩ _ rfl
    exact .ok rfl

end Fs

-- == steps

namespace System

/-- The system, beside the kernel alone. -/
def Same (y y' : System) (k : Kernel) : Prop := y' = ⟨k, y.locked, y.outstanding⟩

theorem call_sim {f : Proc → Fs → Except Halt (α × Proc × Fs)}
    {f' : Proc → Glob → Except Panic (α × Proc × Glob)}
    (hf : ∀ p g L n, Sim (Under₃ L n) (f p ⟨g, L, n⟩) (f' p g)) :
    Sim y.Same (y.call i f) (y.kernel.local i f') := by
  refine (hf _ _ _ _).bind ?_
  rintro _ ⟨a, p, g⟩ rfl
  exact .ok rfl

theorem run_sim {r : Except Panic (α × Kernel)} :
    Sim y.Same (y.run r) (r >>= fun x => .ok x.2) := by
  refine (orPanic_sim r).bind ?_
  rintro ⟨a, k⟩ _ rfl
  exact .ok rfl

/-- Every call does to the kernel what it does without locks and
transactions, and leaves these as they were. -/
theorem step_sim (c : FileCall) : Sim y.Same (y.step i c) (fileStep y.kernel i c) := by
  unfold step fileStep
  cases c with
  | openFile path omode room =>
    exact call_sim fun p g L n => Fs.sysOpen_sim
  | close fd =>
    exact call_sim fun p g L n => Fs.sysClose_sim
  | dup fd =>
    exact call_sim fun p g L n => Fs.sysDup_sim
  | link old new room =>
    exact call_sim fun p g L n => Fs.sysLink_sim
  | unlink path =>
    exact call_sim fun p g L n => Fs.sysUnlink_sim
  | mkdir path room =>
    exact call_sim fun p g L n => Fs.sysCreate_sim
  | mknod path major minor room =>
    exact call_sim fun p g L n => Fs.sysCreate_sim
  | chdir path =>
    exact call_sim fun p g L n => Fs.sysChdir_sim
  | exec path argv =>
    exact call_sim fun p g L n => Fs.kexec_sim
  | fork => exact run_sim
  | wait addr => exact run_sim
  | exit status =>
    refine .ite .error (Fs.exitSelf_sim.bind ?_)
    rintro _ ⟨p, g⟩ rfl
    exact .ok rfl

theorem step_erase {y' : System} {c : FileCall} (h : y.step i c = .ok y') :
    fileStep y.kernel i c = .ok y'.kernel ∧ y'.locked = y.locked
      ∧ y'.outstanding = y.outstanding := by
  obtain ⟨k, hk, rfl⟩ := step_sim c y' h
  exact ⟨hk, rfl, rfl⟩

end System

end Xv6Labs.Model
