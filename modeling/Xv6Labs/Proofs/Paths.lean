/-
Path lookup is a fold over the elements of the path.

The loop holds one reference, to the inode that the elements so far lead to
(`At`). No reference that it gives back is the last one to an inode without
links, so the disk stays as it is. It panics only in iget, which needs a
slot for the next inode.
-/
import Xv6Labs.Model.Paths
import Xv6Labs.Proofs.Directory
import Xv6Labs.Proofs.FirstLoad
import Xv6Labs.Proofs.InodeCounts

namespace Xv6Labs.Model

open Lib

-- == elements

section

variable {path name rest s : List UInt8}

theorem pathElems_slash (path : List UInt8) : pathElems (slash :: path) = pathElems path := by
  rfl

theorem pathElems_dropWhile (path : List UInt8) :
    pathElems (path.dropWhile fun c => c == slash) = pathElems path := by
  induction path with
  | nil => rfl
  | cons c path ih =>
    rw [List.dropWhile_cons]
    split
    · next hc => rw [ih, beq_iff_eq.mp hc, pathElems_slash]
    · rfl

/-- An element up to the next slash. -/
theorem pathElems_elem (hne : s ≠ []) (hhead : s.head? ≠ some slash) :
    pathElems s = (s.takeWhile fun c => c != slash).take dirSiz
      :: pathElems (s.dropWhile fun c => c != slash) := by
  have happ := List.takeWhile_append_dropWhile (p := fun c => c != slash) (l := s)
  have hnot := List.head?_dropWhile_not (fun c => c != slash) s
  have helem : ∀ c ∈ s.takeWhile (fun c => c != slash), (c == slash) = false :=
    fun c hc => by simpa [bne] using List.mem_takeWhile_imp hc
  have hfirst : (s.takeWhile fun c => c != slash).isEmpty = false := by
    obtain ⟨c, s, rfl⟩ := List.exists_cons_of_ne_nil hne
    have hc : c ≠ slash := fun h => hhead (congrArg some h)
    rw [List.takeWhile_cons, if_pos (bne_iff_ne.mpr hc)]
    rfl
  generalize s.takeWhile (fun c => c != slash) = elem at *
  generalize s.dropWhile (fun c => c != slash) = rest at *
  subst happ
  cases rest with
  | nil =>
    rw [List.append_nil]
    unfold pathElems
    rw [List.splitOnP_eq_singleton helem]
    simp [hfirst]
  | cons c rest =>
    have hc : c = slash := by simpa [bne] using hnot
    rw [hc, pathElems_slash]
    unfold pathElems
    rw [List.splitOnP_append_cons_of_forall_mem helem slash rfl]
    simp [hfirst]

theorem skipelem_none (h : skipelem path = none) : pathElems path = [] := by
  unfold skipelem at h
  dsimp only at h
  split at h
  · next hnil =>
    rw [← pathElems_dropWhile, hnil]
    rfl
  · cases h

theorem skipelem_pathElems (h : skipelem path = some (name, rest)) :
    pathElems path = name :: pathElems rest ∧ rest.isEmpty = (pathElems rest).isEmpty := by
  unfold skipelem at h
  dsimp only at h
  split at h
  · cases h
  · next hne =>
    cases h
    constructor
    · rw [← pathElems_dropWhile path,
        pathElems_elem hne (head_dropWhile_slash path), pathElems_dropWhile]
      congr 1
      split
      · rfl
      · exact List.take_of_length_le (by omega)
    · have hhead := head_dropWhile_slash
        ((path.dropWhile fun c => c == slash).dropWhile fun c => c != slash)
      generalize List.dropWhile (fun c => c == slash) _ = s at hhead
      by_cases hs : s = []
      · rw [hs]
        rfl
      · rw [pathElems_elem hs hhead]
        simpa using hs

/-- namex's loop goes through the elements of the path. -/
theorem namexFrom_eq (parent : Bool) (path last : List UInt8) (ip : Nat) (g : Glob) :
    namexFrom parent path last ip g = namexLoop parent (pathElems path) last ip g := by
  induction hn : path.length using Nat.strong_induction_on generalizing path last ip g with
  | h n ih =>
  rw [namexFrom]
  split
  · next h =>
    rw [skipelem_none h]
    rfl
  · next name rest h =>
    obtain ⟨helems, hempty⟩ := skipelem_pathElems h
    rw [helems, hempty]
    refine bind_congr fun g1 => ?_
    split
    · rfl
    split
    · rfl
    · refine bind_congr fun r => ?_
      split
      · rfl
      · exact ih rest.length (hn ▸ skipelem_some h) rest name _ _ rfl

end

-- == directory trees

/-- The inode that a directory on the disk has under a name. -/
def Glob.child (g : Glob) (i : Nat) (name : List UInt8) : Option Nat :=
  let d := g.disk i
  if d.type = .dir then
    ((List.range (direntCount d)).find? fun n =>
      direntInum d (n * direntSize) ≠ 0
        ∧ direntName d (n * direntSize) = cutName name).map fun n => direntInum d (n * direntSize)
  else none

/-- The inode that names lead to, one after another. -/
def Glob.resolve (g : Glob) (i : Nat) (names : List (List UInt8)) : Option Nat :=
  names.foldlM g.child i

/-- What a lookup is to find: for the parent, the directory that all names
but the last lead to. -/
def Glob.target (g : Glob) (parent : Bool) (i : Nat) (names : List (List UInt8)) : Option Nat :=
  if parent then
    if names = [] then none
    else (g.resolve i names.dropLast).filter fun j => (g.disk j).type = .dir
  else g.resolve i names

/-- An inode with a name. -/
def Glob.Linked (g : Glob) (i : Nat) : Prop := (g.disk i).type ≠ .free ∧ (g.disk i).nlink ≠ 0

instance (g : Glob) (i : Nat) : Decidable (g.Linked i) := inferInstanceAs (Decidable (_ ∧ _))

/-- An inode that stays: it has a name, or it is in use, as a working
directory that was removed. -/
def Glob.Kept (g : Glob) (i : Nat) : Prop :=
  (g.disk i).type ≠ .free ∧ ((g.disk i).nlink ≠ 0 ∨
    ∃ s, 0 < (g.itable s).ref ∧ (g.itable s).dev = 1 ∧ (g.itable s).inum = i)

/-- The inodes that paths lead to. -/
inductive Glob.Reached (g : Glob) (cwd : Nat) : Nat → Prop where
  | root : g.Reached cwd 1
  | cwd : g.Reached cwd (g.itable cwd).inum
  | child {i j : Nat} {name : List UInt8} (h : g.Reached cwd i)
      (hj : g.child i name = some j) : g.Reached cwd j

/-- A table of inodes over a disk with a directory tree, and a working
directory. -/
structure Glob.HasTree (g : Glob) (cwd : Nat) : Prop where
  table : Counts g.ftable (fun i => (g.itable i).ref) g
  nonneg : ∀ i, 0 ≤ (g.itable i).ref
  root : g.Linked 1
  whole : ∀ i, g.Reached cwd i → (g.disk i).type = .dir → direntsWhole (g.disk i) = true
  kept : ∀ i name j, g.Reached cwd i → g.child i name = some j → g.Kept j
  cwd_used : 0 < (g.itable cwd).ref
  cwd_dev : (g.itable cwd).dev = 1
  cwd_type : (g.dinode cwd).type ≠ .free

/-- At most one slot of the inode table is free. -/
def Glob.Crowded (g : Glob) : Prop := ∃ s, ∀ i, i < ninode → i ≠ s → 0 < (g.itable i).ref

section

variable {g g₀ g' : Glob} {c : Nat → Int} {t : Nat → File} {cur ip cwd : Nat}
  {parent : Bool} {name : List UInt8} {names : List (List UInt8)}
variable {dev inum : Nat} {e : List Nat} {last : List UInt8}

theorem Glob.target_cons (g : Glob) (parent : Bool) (i : Nat)
    (name : List UInt8) (names : List (List UInt8)) :
    g.target parent i (name :: names)
      = if (g.disk i).type ≠ .dir then none
        else if parent && names.isEmpty then some i
        else (g.child i name).bind fun j => g.target parent j names := by
  have hchild : (g.disk i).type ≠ .dir → g.child i name = none := fun h => if_neg h
  cases parent with
  | false =>
    show (g.child i name).bind _ = _
    split
    · next h =>
      rw [hchild h]
      rfl
    · rfl
  | true =>
    cases names with
    | nil =>
      simp only [Glob.target, Glob.resolve]
      by_cases h : (g.disk i).type = .dir <;> simp [h]
    | cons n ns =>
      have hrec : g.target true i (name :: n :: ns) = ((g.child i name).bind
          fun j => g.resolve j (n :: ns).dropLast).filter _ := rfl
      rw [hrec]
      split
      · next h =>
        rw [hchild h]
        rfl
      · cases g.child i name with
        | none => rfl
        | some j => rfl

/-- The loop holds `e`; `c` are the references of the others, whose slots
have the inodes that they had in `g₀`. -/
def Holds (t : Nat → File) (c : Nat → Int) (g₀ : Glob) (e : List Nat) (g : Glob) : Prop :=
  Counts t (inHand c e) g ∧ Covers g (inHand c e) ∧ FsStep c g₀ g

theorem holds_tracks (t : Nat → File) (g₀ : Glob)
    (hcwd : CwdCounted c (some cwd)) : Tracks (some cwd) (Holds t c g₀) := by
  have h1 := counts_tracks (t := t) hcwd
  have h2 := covers_tracks c (some cwd) g₀
  exact
    { iget := fun h r hr => ⟨h1.iget h.1 r hr, h2.iget h.2 r hr⟩
      idup := fun hd h => ⟨h1.idup hd h.1, h2.idup hd h.2⟩
      iput := fun h => ⟨h1.iput h.1, h2.iput h.2⟩
      ilock := fun h r hr => ⟨h1.ilock h.1 r hr, h2.ilock h.2 r hr⟩
      setDisk := fun h => ⟨h1.setDisk h.1, h2.setDisk h.2⟩
      swap := fun h => ⟨h1.swap h.1, h2.swap h.2⟩ }

/-- The loop is at inode `cur`, in slot `ip`, and holds a reference to it.
`c` are the references of the others. -/
structure At (t : Nat → File) (c : Nat → Int) (g₀ : Glob) (cwd cur ip : Nat) (g : Glob) : Prop where
  holds : Holds t c g₀ [ip] g
  disk : g.disk = g₀.disk
  inum : (g.itable ip).inum = cur
  dev : (g.itable ip).dev = 1
  reached : g₀.Reached cwd cur
  type : (g₀.disk cur).type ≠ .free
  safe : 0 < c ip ∨ (g₀.disk cur).nlink ≠ 0

theorem Counts.in_hand (h : Counts t (inHand c e) g)
    (hip : ip ∈ e) : c ip + 1 ≤ (g.itable ip).ref := by
  have hpos := List.count_pos_iff.mpr hip
  rw [h.refs]
  unfold inHand
  omega

/-- A reference that is not the last one, or to an inode with a link. -/
theorem iput_disk (h : Counts t (inHand c e) g) (hip : ip ∈ e)
    (hsafe : 0 < c ip ∨ (g.dinode ip).nlink ≠ 0) :
    (iput g ip).disk = g.disk ∧
      ∀ j, ((iput g ip).itable j).inum = (g.itable j).inum
        ∧ ((iput g ip).itable j).dev = (g.itable j).dev := by
  have href := h.in_hand hip
  have hno : ¬((g.itable ip).ref = 1 ∧ (g.itable ip).valid = true ∧ (g.dinode ip).nlink = 0) := by
    rintro ⟨h1, _, h0⟩
    rcases hsafe with hpos | hlink
    · omega
    · exact hlink h0
  unfold iput
  rw [if_neg hno]
  refine ⟨rfl, fun j => ?_⟩
  simp only [Glob.setInode]
  split
  · next hj => rw [hj]; exact ⟨rfl, rfl⟩
  · exact ⟨rfl, rfl⟩

/-- Every slot of the inode table is in use. -/
def Glob.Full (g : Glob) : Prop := ∀ i, i < ninode → (g.itable i).ref ≠ 0

/-- iget panics if the table is full. -/
theorem iget_fails {e : Panic} (h : iget g dev inum = .error e) : e = .iget ∧ g.Full := by
  unfold iget at h
  split at h
  · cases h
  split at h
  · next hfull =>
    cases h
    refine ⟨rfl, fun i hi => ?_⟩
    have hno := List.find?_range_eq_none.mp hfull i hi
    simpa using hno
  · cases h

/-- iget of an inode that is in use, as slot `s` shows. -/
theorem iget_used {s : Nat} (h : iget g dev inum = .ok (ip, g'))
    (hs : s < ninode) (href : 0 < (g.itable s).ref)
    (hdev : (g.itable s).dev = dev) (hinum : (g.itable s).inum = inum) : 0 < (g.itable ip).ref := by
  unfold iget at h
  split at h
  · next hfind =>
    cases h
    have hpos := (List.find?_range_eq_some.mp hfind).1
    simp only [decide_eq_true_eq] at hpos
    exact hpos.1
  · next hnone =>
    have hno := List.find?_range_eq_none.mp hnone s hs
    simp only [Bool.not_eq_true', decide_eq_false_iff_not] at hno
    exact absurd ⟨href, hdev, hinum⟩ hno

theorem iget_dev (h : iget g dev inum = .ok (ip, g')) : (g'.itable ip).dev = dev := by
  unfold iget at h
  split at h
  · next hfind =>
    cases h
    have hpos := (List.find?_range_eq_some.mp hfind).1
    simp only [decide_eq_true_eq] at hpos
    exact (congrArg Inode.dev (if_pos rfl)).trans hpos.2.1
  · split at h
    · cases h
    · cases h
      exact congrArg Inode.dev (if_pos rfl)

/-- dirlookup gets a reference to the child, unless the table is full. -/
theorem dirlookup_child (hd : g.dinode ip = g₀.disk cur) (hdir : (g₀.disk cur).type = .dir)
    (hwhole : direntsWhole (g₀.disk cur) = true) (name : List UInt8) :
    (dirlookup g ip name = .error .iget ∧ g.Full)
      ∨ (g₀.child cur name = none ∧ dirlookup g ip name = .ok (none, g))
      ∨ ∃ j next off g', g₀.child cur name = some j
        ∧ dirlookup g ip name = .ok (some (next, off), g')
        ∧ iget g (g.itable ip).dev j = .ok (next, g') := by
  unfold dirlookup Glob.child
  simp only [hd, hdir, hwhole, ne_eq, not_true, if_false, if_true]
  cases (List.range (direntCount (g₀.disk cur))).find? _ with
  | none => exact .inr (.inl ⟨rfl, rfl⟩)
  | some n =>
    dsimp only
    cases hg : iget g (g.itable ip).dev (direntInum (g₀.disk cur) (n * direntSize)) with
    | error e =>
      obtain ⟨rfl, hfull⟩ := iget_fails hg
      exact .inl ⟨rfl, hfull⟩
    | ok r => exact .inr (.inr ⟨_, r.1, _, r.2, rfl, rfl, hg⟩)

/-- The next inode has a link, or a slot that another reference pins. -/
theorem At.next_safe {j next : Nat} (hw : g₀.HasTree cwd)
    (hc : ∀ i, c i = (g₀.itable i).ref) (h : At t c g₀ cwd cur ip g)
    (hkept : g₀.Kept j) (hg : iget g 1 j = .ok (next, g')) :
    0 < c next ∨ (g₀.disk j).nlink ≠ 0 := by
  rcases hkept.2 with hlink | ⟨s, href, hdev, hinum⟩
  · exact .inr hlink
  have hcs : 0 < c s := hc s ▸ href
  obtain ⟨hcounts, hcovers, hstep⟩ := h.holds
  have hused := iget_used hg (hw.table.table s href)
    (by have := hcovers s; unfold inHand at this; omega)
    ((hstep.dev s hcs).trans hdev) ((hstep.inum s hcs).trans hinum)
  by_cases hip : next = ip
  -- the loop is at `j` already
  · have hcur : j = cur := by
      rw [← h.inum, ← (iget_slot hg).2.1, hip]
      exact ((iget_covers hcovers hg).2.inum ip (by
        have := hw.nonneg ip
        rw [← hc] at this
        simp only [inHand, List.count_singleton_self]
        omega)).symm ▸ rfl
    rw [hip, hcur]
    exact h.safe
  · left
    rw [hcounts.refs] at hused
    simpa [inHand, hip, Ne.symm hip] using hused

/-- The loop leads from an inode to the target of the names. -/
theorem namexLoop_target (hw : g₀.HasTree cwd)
    (hc : ∀ i, c i = (g₀.itable i).ref) (hcwd : CwdCounted c (some cwd))
    (h : At t c g₀ cwd cur ip g) :
    (namexLoop parent names last ip g = .error .iget ∧ g₀.Crowded) ∨
      ∃ r name g', namexLoop parent names last ip g = .ok (r, name, g')
        ∧ g'.disk = g₀.disk
        ∧ r.map (fun j => (g'.itable j).inum) = g₀.target parent cur names
        ∧ (parent = true → r ≠ none → names.getLast? = some name) := by
  have hT := holds_tracks t g₀ hcwd
  have hpos : ∀ i, 0 ≤ c i := fun i => hc i ▸ hw.nonneg i
  induction names generalizing last cur ip g with
  | nil =>
    right
    cases parent with
    | false =>
      refine ⟨some ip, last, g, rfl, h.disk, congrArg some h.inum, fun hp => ?_⟩
      cases hp
    | true =>
      have hput := iput_disk h.holds.1 List.mem_cons_self (by
        rw [Glob.dinode, h.disk, h.inum]
        exact h.safe)
      exact ⟨none, last, iput g ip, rfl, hput.1.trans h.disk, rfl, fun _ hr => absurd rfl hr⟩
  | cons name rest ih =>
    have hlock : g.Lockable ip := by
      constructor
      · have := h.holds.1.in_hand List.mem_cons_self
        have := hpos ip
        omega
      · rw [Glob.dinode, h.disk, h.inum]
        exact h.type
    obtain ⟨g1, h1⟩ := ilock_total hlock
    have hq := ilock_quiet _ h1
    have hd1 : g1.dinode ip = g₀.disk cur := by
      rw [ilock_dinode h1, Glob.dinode, h.disk, h.inum]
    have h1 : At t c g₀ cwd cur ip g1 :=
      { h with
        holds := hT.ilock h.holds _ h1
        disk := hq.disk.trans h.disk
        inum := (hq.inum ip).trans h.inum
        dev := (hq.dev ip).trans h.dev }
    have hput : (iput g1 ip).disk = g₀.disk :=
      (iput_disk h1.holds.1 List.mem_cons_self (hd1 ▸ h.safe)).1.trans h1.disk
    rw [namexLoop, ‹ilock g ip = .ok g1›, ok_bind, Glob.target_cons, hd1]
    split
    · exact .inr ⟨none, name, _, rfl, hput, rfl, fun _ hr => absurd rfl hr⟩
    · next hdir =>
      rw [not_not] at hdir
      split
      · next hlast =>
        obtain ⟨_, hnil⟩ := Bool.and_eq_true_iff.mp hlast
        rw [List.isEmpty_iff.mp hnil]
        exact .inr ⟨some ip, name, g1, rfl, h1.disk, congrArg some h1.inum, fun _ _ => rfl⟩
      · next hlast =>
        obtain ⟨herr, hfull⟩ | ⟨hnone, hl⟩ | ⟨j, next, off, g2, hj, hl, hg⟩ :=
          dirlookup_child hd1 hdir (hw.whole cur h.reached hdir) name
        · rw [herr]
          refine .inl ⟨rfl, ip, fun i hi hne => ?_⟩
          have hin := hfull i hi
          rw [h1.holds.1.refs] at hin
          simp only [inHand, List.count_singleton, beq_iff_eq, if_neg (Ne.symm hne)] at hin
          have := hpos i
          rw [← hc]
          omega
        · rw [hl, hnone]
          exact .inr ⟨none, name, _, rfl, hput, rfl, fun _ hr => absurd rfl hr⟩
        rw [h1.dev] at hg
        have hc2 := hT.iget h1.holds _ hg
        obtain ⟨hdisk2, hinum2, _⟩ := iget_slot hg
        have hd2 : g2.dinode ip = g1.dinode ip := by
          refine iget_dinode hg ?_
          have := h1.holds.1.in_hand List.mem_cons_self
          have := hpos ip
          omega
        have hsafe : 0 < c ip ∨ (g2.dinode ip).nlink ≠ 0 := by
          rw [hd2, hd1]
          exact h.safe
        have hkeep := iput_disk hc2.1 (by simp) hsafe
        have hkept := hw.kept cur name j h.reached hj
        have hat : At t c g₀ cwd j next (iput g2 ip) :=
          { holds := hT.iput (hT.swap hc2)
            disk := (hkeep.1.trans hdisk2).trans h1.disk
            inum := (hkeep.2 next).1.trans hinum2
            dev := (hkeep.2 next).2.trans (iget_dev hg)
            reached := h.reached.child hj
            type := hkept.1
            safe := h1.next_safe hw hc hkept hg }
        rw [hl, hj]
        obtain herr | ⟨r, nm, g', hr, hres⟩ := ih hat
        · exact .inl herr
        · refine .inr ⟨r, nm, g', hr, hres.1, hres.2.1, fun hp hne => ?_⟩
          rw [List.getLast?_cons, hres.2.2 hp hne]
          rfl

theorem Glob.HasTree.counted (hw : g.HasTree cwd) :
    CwdCounted (fun i => (g.itable i).ref) (some cwd) := by
  rintro _ ⟨⟩
  exact hw.cwd_used

theorem At.lookup (hw : g.HasTree cwd) (parent : Bool) {path : List UInt8}
    (h : At g.ftable (fun i => (g.itable i).ref) g cwd cur ip g₀) :
    (namexFrom parent path last ip g₀ = .error .iget ∧ g.Crowded) ∨
      ∃ r name g', namexFrom parent path last ip g₀ = .ok (r, name, g')
        ∧ r.map (fun j => (g'.itable j).inum) = g.target parent cur (pathElems path)
        ∧ (parent = true → r ≠ none → (pathElems path).getLast? = some name)
        ∧ (∀ i, (g'.itable i).ref = (g.itable i).ref + if r = some i then 1 else 0)
        ∧ g'.disk = g.disk := by
  rw [namexFrom_eq]
  refine (namexLoop_target hw (fun _ => rfl) hw.counted h).imp_right ?_
  rintro ⟨r, name, g', hok, hdisk, hinum, hname⟩
  have hcounts := (counts_tracks hw.counted).namexLoop h.holds.1 _ hok
  refine ⟨r, name, g', hok, hinum, hname, fun i => ?_, hdisk⟩
  rw [hcounts.refs i]
  unfold inHand
  cases r with
  | none => rfl
  | some j =>
    by_cases hj : j = i
    · simp [hj]
    · simp [hj]

theorem boot_dir {i : Nat} (h : (bootGlob.disk i).type = .dir) : i = 1 := by
  simp only [bootGlob, bootDisk] at h
  split at h <;> first | rfl | cases h

theorem boot_hasTree : bootGlob.HasTree 2 where
  table :=
    { files := rfl
      refs := fun _ => rfl
      table := fun i hi => Nat.lt_trans (boot_used hi) (by decide)
      unique := fun _ _ ha hb _ hinum => boot_inum ha hb hinum }
  nonneg i := by
    simp only [bootGlob]
    split_ifs <;> simp [Inode.zero]
  root := by decide
  whole i _ hi := by
    rw [boot_dir hi]
    decide
  kept i name j _ hj := by
    unfold Glob.child at hj
    dsimp only at hj
    split at hj
    · next hdir =>
      obtain rfl := boot_dir hdir
      obtain ⟨n, hn, rfl⟩ := Option.map_eq_some_iff.mp hj
      obtain ⟨htype, hlink⟩ := (by decide : ∀ n < direntCount bootRoot,
        bootGlob.Linked (direntInum bootRoot (n * direntSize))) n
          (List.mem_range.mp (List.mem_of_find?_eq_some hn))
      exact ⟨htype, .inl hlink⟩
    · cases hj
  cwd_used := by decide
  cwd_dev := by decide
  cwd_type := by decide

end

end Xv6Labs.Model
