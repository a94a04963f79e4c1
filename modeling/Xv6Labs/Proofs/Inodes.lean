/-
Inode references through the name space.

`Covers g c` says that `c` is a lower bound on the references, `bump c i`
is the bound with one more to slot `i`, and `FsStep c g g'` that a slot
pinned by `c` still holds its inode. The functions on names are walked
once, for any property of the references in hand that the functions on
slots respect (`Tracks`).
-/
import Xv6Labs.Proofs.Frames

namespace Xv6Labs.Model

open Lib

variable {c : Nat → Int} {g g' : Glob} {i : Nat} {type : IType}

variable {d : Nat → Int} {nd : Inode} {dev inum : Nat} {parent : Bool}
  {omode : UInt32} {p : Proc}

-- == bounds and frames

/-- `c` is a lower bound on the references of every slot. -/
def Covers (g : Glob) (c : Nat → Int) : Prop := ∀ ip, c ip ≤ (g.itable ip).ref

/-- The bound with one more reference to slot `i`. -/
def bump (c : Nat → Int) (i : Nat) : Nat → Int := fun j => c j + if j = i then 1 else 0

/-- The bound with the reference a lookup returned, if it found any. -/
def held (c : Nat → Int) : Option Nat → Nat → Int
  | none => c
  | some i => bump c i

theorem le_bump (c : Nat → Int) (i j : Nat) : c j ≤ bump c i j := by
  unfold bump
  split <;> omega

theorem bump_comm (c : Nat → Int) (i j : Nat) : bump (bump c i) j = bump (bump c j) i := by
  funext a
  simp only [bump]
  omega

/-- Only the inode table and the disk changed, and every slot that `c`
pins holds the inode it held. -/
structure FsStep (c : Nat → Int) (g g' : Glob) : Prop where
  phys : g'.phys = g.phys
  shared : g'.shared = g.shared
  ftable : g'.ftable = g.ftable
  pipes : g'.pipes = g.pipes
  dev : ∀ ip, 0 < c ip → (g'.itable ip).dev = (g.itable ip).dev
  inum : ∀ ip, 0 < c ip → (g'.itable ip).inum = (g.itable ip).inum

theorem FsStep.refl (c : Nat → Int) (g : Glob) : FsStep c g g :=
  ⟨rfl, rfl, rfl, rfl, fun _ _ => rfl, fun _ _ => rfl⟩

theorem FsStep.trans {g'' : Glob} (h : FsStep c g g') (h' : FsStep c g' g'') : FsStep c g g'' where
  phys := h'.phys.trans h.phys
  shared := h'.shared.trans h.shared
  ftable := h'.ftable.trans h.ftable
  pipes := h'.pipes.trans h.pipes
  dev ip hc := (h'.dev ip hc).trans (h.dev ip hc)
  inum ip hc := (h'.inum ip hc).trans (h.inum ip hc)

/-- A larger bound pins more. -/
theorem FsStep.mono (h : FsStep d g g') (hle : ∀ ip, c ip ≤ d ip) : FsStep c g g' :=
  { h with
    dev := fun ip hc => h.dev ip (by have := hle ip; omega)
    inum := fun ip hc => h.inum ip (by have := hle ip; omega) }

theorem FsStep.of_bump (h : FsStep (bump c i) g g') : FsStep c g g' := h.mono (le_bump c i)

theorem FsStep.setDisk (c : Nat → Int) (g : Glob) (n : Nat) (d : Dinode) :
    FsStep c g (g.setDisk n d) :=
  ⟨rfl, rfl, rfl, rfl, fun _ _ => rfl, fun _ _ => rfl⟩

theorem Covers.setDisk (h : Covers g c) (n : Nat) (d : Dinode) : Covers (g.setDisk n d) c := h

-- == slots

/-- Replacing a slot by one with the same inode and another count. -/
theorem fsStep_setInode (hd : 0 < c i → nd.dev = (g.itable i).dev)
    (hn : 0 < c i → nd.inum = (g.itable i).inum) : FsStep c g (g.setInode i nd) := by
  refine ⟨rfl, rfl, rfl, rfl, ?_, ?_⟩ <;> intro ip hc <;> simp only [Glob.setInode] <;> split
  · next h => exact h ▸ hd (h ▸ hc)
  · rfl
  · next h => exact h ▸ hn (h ▸ hc)
  · rfl

theorem covers_setInode (h : Covers g c) (hi : d i ≤ nd.ref) (hj : ∀ j, j ≠ i → d j ≤ c j) :
    Covers (g.setInode i nd) d := by
  intro j
  simp only [Glob.setInode]
  split
  · next hji => exact hji ▸ hi
  · next hji => exact Int.le_trans (hj j hji) (h j)

theorem iget_covers (hc : Covers g c) (h : iget g dev inum = .ok (i, g')) :
    Covers g' (bump c i) ∧ FsStep c g g' := by
  have hother : ∀ j, j ≠ i → bump c i j ≤ c j := by
    intro j hj
    simp [bump, hj]
  simp only [iget] at h
  split at h
  · cases h
    refine ⟨covers_setInode hc ?_ hother, fsStep_setInode (fun _ => rfl) (fun _ => rfl)⟩
    have := hc i
    simp only [bump, if_true]
    omega
  split at h
  · cases h
  · next hfree =>
    cases h
    -- a recycled slot has no references, so the bound does not pin it
    have hz := (List.find?_range_eq_some.mp hfree).1
    simp only [decide_eq_true_eq] at hz
    have hle : c i ≤ 0 := hz ▸ hc i
    refine ⟨covers_setInode hc ?_ hother, fsStep_setInode (fun hp => ?_) (fun hp => ?_)⟩
    · simp only [bump, if_true]
      omega
    · omega
    · omega

theorem idup_covers (hc : Covers g c) : Covers (idup g i) (bump c i) ∧ FsStep c g (idup g i) := by
  refine ⟨covers_setInode hc ?_ ?_, fsStep_setInode (fun _ => rfl) (fun _ => rfl)⟩
  · have := hc i
    simp only [bump, if_true]
    omega
  · intro j hj
    simp [bump, hj]

/-- iput only counts down, whatever it does to the disk. -/
theorem iput_slot (g : Glob) (i : Nat) :
    ∃ disk valid, iput g i =
      ({ g with disk }).setInode i
        { g.itable i with valid, ref := (g.itable i).ref - 1 } := by
  simp only [iput]
  split
  · exact ⟨_, false, rfl⟩
  · exact ⟨g.disk, (g.itable i).valid, rfl⟩

theorem iput_covers (hc : Covers g (bump c i)) :
    Covers (iput g i) c ∧ FsStep (bump c i) g (iput g i) := by
  obtain ⟨disk, valid, heq⟩ := iput_slot g i
  rw [heq]
  have hc' : Covers { g with disk } (bump c i) := hc
  refine ⟨covers_setInode hc' ?_ (fun j _ => le_bump c i j), ?_⟩
  · have := hc i
    simp only [bump, if_true] at this
    show c i ≤ (g.itable i).ref - 1
    omega
  · have hdisk : FsStep (bump c i) g { g with disk } :=
      ⟨rfl, rfl, rfl, rfl, fun _ _ => rfl, fun _ _ => rfl⟩
    exact hdisk.trans (fsStep_setInode (fun _ => rfl) (fun _ => rfl))

theorem ilock_covers (hc : Covers g c) (h : ilock g i = .ok g') : Covers g' c ∧ FsStep c g g' := by
  have hq := ilock_quiet _ h
  refine ⟨fun ip => hq.ref ip ▸ hc ip, ⟨?_, ?_, hq.ftable, hq.pipes,
    fun ip _ => hq.dev ip, fun ip _ => hq.inum ip⟩⟩ <;>
  · simp only [ilock] at h
    split at h
    · cases h
    split at h
    · cases h
      rfl
    · split at h <;> cases h
      rfl

theorem writei_covers (i : Nat) (src : Nat → UInt8) (off n room : Nat) (hc : Covers g c) :
    Covers (writei g i src off n room).2 c ∧ FsStep c g (writei g i src off n room).2 := by
  simp only [writei]
  split
  · exact ⟨hc, .refl c g⟩
  · split
    · exact ⟨hc, .refl c g⟩
    · exact ⟨hc.setDisk _ _, .setDisk c g _ _⟩

-- == references in hand

/-- The bound with the references `e` that are in hand. -/
def inHand (c : Nat → Int) (e : List Nat) : Nat → Int := fun j => c j + e.count j

theorem inHand_nil (c : Nat → Int) : inHand c [] = c := by
  funext j
  exact Int.add_zero _

theorem inHand_cons (c : Nat → Int) (i : Nat) (e : List Nat) :
    inHand c (i :: e) = bump (inHand c e) i := by
  funext j
  unfold inHand bump
  rw [List.count_cons]
  by_cases h : j = i
  · rw [if_pos (beq_iff_eq.mpr h.symm)]
    push_cast
    omega
  · rw [if_neg h, if_neg fun hb => h (beq_iff_eq.mp hb).symm]
    exact (Int.add_zero _).symm

theorem inHand_found (c : Nat → Int) (o : Option Nat) : inHand c (o.toList ++ []) = held c o := by
  cases o with
  | none => exact inHand_nil c
  | some i =>
    show inHand c [i] = bump c i
    rw [inHand_cons, inHand_nil]

/-- What the functions on slots respect, with `e` in hand; `cwd` is the
directory that lookups start from. -/
structure Tracks (cwd : Option Nat) (H : List Nat → Glob → Prop) : Prop where
  iget : ∀ {e g dev inum}, H e g → Ensures (iget g dev inum) fun r => H (r.1 :: e) r.2
  idup : ∀ {e g d}, cwd = some d → H e g → H (d :: e) (idup g d)
  iput : ∀ {e g i}, H (i :: e) g → H e (iput g i)
  ilock : ∀ {e g i}, H e g → Ensures (ilock g i) (H e)
  setDisk : ∀ {e g n d}, H e g → H e (g.setDisk n d)
  swap : ∀ {e g i j}, H (i :: j :: e) g → H (j :: i :: e) g

/-- The slots stay covered, and what every step on inodes respects
holds. -/
theorem covers_tracks_of (c : Nat → Int) (cwd : Option Nat) {R : Glob → Prop}
    (hR : ∀ {g g'}, FsStep c g g' → R g → R g') :
    Tracks cwd fun e g => Covers g (inHand c e) ∧ R g := by
  have hle : ∀ e j, c j ≤ inHand c e j := by
    intro e j
    unfold inHand
    omega
  refine ⟨?_, ?_, ?_, ?_, ?_, ?_⟩
  · rintro e g dev inum ⟨hc, hs⟩ ⟨i, g'⟩ h
    obtain ⟨hc', hs'⟩ := iget_covers hc h
    rw [inHand_cons]
    exact ⟨hc', hR (hs'.mono (hle e)) hs⟩
  · rintro e g d - ⟨hc, hs⟩
    obtain ⟨hc', hs'⟩ := idup_covers hc
    rw [inHand_cons]
    exact ⟨hc', hR (hs'.mono (hle e)) hs⟩
  · rintro e g i ⟨hc, hs⟩
    rw [inHand_cons] at hc
    obtain ⟨hc', hs'⟩ := iput_covers hc
    exact ⟨hc', hR (hs'.of_bump.mono (hle e)) hs⟩
  · rintro e g i ⟨hc, hs⟩ g' h
    obtain ⟨hc', hs'⟩ := ilock_covers hc h
    exact ⟨hc', hR (hs'.mono (hle e)) hs⟩
  · rintro e g n d ⟨hc, hs⟩
    exact ⟨hc.setDisk n d, hR (.setDisk c g n d) hs⟩
  · rintro e g i j ⟨hc, hs⟩
    rw [inHand_cons, inHand_cons, bump_comm, ← inHand_cons, ← inHand_cons] at hc
    exact ⟨hc, hs⟩

theorem covers_tracks (c : Nat → Int) (cwd : Option Nat) (g0 : Glob) :
    Tracks cwd fun e g => Covers g (inHand c e) ∧ FsStep c g0 g :=
  covers_tracks_of c cwd fun h h0 => h0.trans h

section

variable {cwd : Option Nat} {H : List Nat → Glob → Prop} {e : List Nat}
  {g : Glob} {dp ip room : Nat} {name path : List UInt8}
  (hT : Tracks cwd H)
include hT

theorem Tracks.writei {src : Nat → UInt8} {off n : Nat} (h : H e g) :
    H e (writei g ip src off n room).2 := by
  simp only [Model.writei]
  split
  · exact h
  · split
    · exact h
    · exact hT.setDisk h

theorem Tracks.dirlookup (h : H e g) : Ensures (dirlookup g dp name)
    fun r => H ((r.1.map Prod.fst).toList ++ e) r.2 := by
  refine .branch .error ?_
  split
  · exact .branch (.ok h) .error
  · exact (hT.iget h).bind fun _ h1 => .ok h1

theorem Tracks.dirlink (h : H e g) : Ensures (dirlink g dp name inum room) fun r => H e r.2 := by
  refine (hT.dirlookup h).bind ?_
  rintro ⟨o, g1⟩ h1
  cases o with
  | some _ => exact .ok (hT.iput h1)
  | none => exact .ok (hT.writei h1)

-- == paths

theorem Tracks.namexLoop {elems : List (List UInt8)}
    {last : List UInt8} (h : H (ip :: e) g) :
    Ensures (namexLoop parent elems last ip g) fun r =>
      H (r.1.toList ++ e) r.2.2 := by
  -- the loop holds one reference more: to the inode it is at
  induction elems generalizing last ip g with
  | nil => exact .branch (.ok (hT.iput h)) (.ok h)
  | cons _ rest ih =>
    refine (hT.ilock h).bind fun g1 h1 => .branch (.ok (hT.iput h1))
      (.branch (.ok h1) ((hT.dirlookup h1).bind ?_))
    rintro ⟨o, g2⟩ h2
    cases o with
    | none => exact .ok (hT.iput h2)
    | some next => exact ih (hT.iput (hT.swap h2))

theorem Tracks.namex (h : H e g) :
    Ensures (namex g cwd path parent) fun r =>
      H (r.1.toList ++ e) r.2.2 := by
  refine .branch ((hT.iget h).bind fun _ h1 => hT.namexLoop h1) ?_
  cases cwd with
  | none => exact .error
  | some d => exact hT.namexLoop (hT.idup rfl h)

theorem Tracks.namei (h : H e g) : Ensures (namei g cwd path) fun r => H (r.1.toList ++ e) r.2 :=
  (hT.namex h).bind fun _ h1 => .ok h1

-- == create

theorem Tracks.ialloc (h : H e g) :
    Ensures (ialloc g dev type) fun r => H (r.1.toList ++ e) r.2 := by
  unfold Model.ialloc
  split
  · exact .ok h
  · exact (hT.iget (hT.setDisk h)).bind fun _ h1 => .ok h1

theorem Tracks.createDots (h : H e g) : Ensures (createDots g dp ip room) fun r => H e r.2 :=
  (hT.dirlink h).bind fun _ h1 => .branch (hT.dirlink h1) (.ok h1)

theorem Tracks.createLink (h : H (ip :: dp :: e) g) :
    Ensures (createLink g dp ip name type room) fun r =>
      H (r.1.toList ++ e) r.2 := by
  refine Ensures.bind (Q := fun r => H (ip :: dp :: e) r.2)
    (.branch (hT.createDots h) (.ok h)) fun r1 h1 => ?_
  refine Ensures.bind (Q := fun r => H (ip :: dp :: e) r.2)
    (.branch (hT.dirlink h1) (.ok h1)) fun r2 h2 => ?_
  refine .branch (.ok (hT.iput (hT.swap ?_))) (.ok (hT.iput (hT.iput (hT.setDisk h2))))
  split
  · exact hT.setDisk h2
  · exact h2

theorem Tracks.create {major minor : Int} (h : H e g) :
    Ensures (create g cwd path type major minor room) fun r =>
      H (r.1.toList ++ e) r.2 := by
  refine (hT.namex h).bind ?_
  rintro ⟨o, name, g1⟩ h1
  cases o with
  | none => exact .ok h1
  | some dp =>
    refine (hT.ilock h1).bind fun g2 h2 => (hT.dirlookup h2).bind ?_
    rintro ⟨o, g3⟩ h3
    cases o with
    | some _ =>
      -- the name exists: the directory is dropped first
      exact (hT.ilock (hT.iput (hT.swap h3))).bind fun g4 h4 =>
        .branch (.ok h4) (.ok (hT.iput h4))
    | none =>
      refine (hT.ialloc h3).bind ?_
      rintro ⟨o, g4⟩ h4
      cases o with
      | none => exact .ok (hT.iput h4)
      | some ip =>
        exact (hT.ilock h4).bind fun g5 h5 => hT.createLink (hT.setDisk h5)

theorem Tracks.openInode (h : H e g) :
    Ensures (openInode g cwd path omode room) fun r =>
      H (r.1.toList ++ e) r.2 := by
  refine .branch (hT.create h) ((hT.namei h).bind ?_)
  rintro ⟨o, g1⟩ h1
  cases o with
  | none => exact .ok h1
  | some ip =>
    exact (hT.ilock h1).bind fun g2 h2 =>
      .branch (.ok (hT.iput h2)) (.ok h2)

-- == unlink

theorem Tracks.unlinkDrop (h : H (ip :: dp :: e) g) : H e (unlinkDrop g dp ip) := by
  refine hT.iput (hT.setDisk (hT.iput (hT.swap ?_)))
  split
  · exact hT.setDisk h
  · exact h

theorem Tracks.unlinkIn (h : H (dp :: e) g) : Ensures (unlinkIn g dp name) fun r => H e r.2 := by
  refine .branch (.ok (hT.iput h)) ((hT.dirlookup h).bind ?_)
  rintro ⟨o, g1⟩ h1
  cases o with
  | none => exact .ok (hT.iput h1)
  | some _ =>
    refine (hT.ilock h1).bind fun g2 h2 => .branch .error (.branch ?_
      (.branch .error (.branch .error ?_)))
    · exact .ok (hT.iput (hT.iput h2))
    · exact .ok (hT.unlinkDrop (hT.writei h2))

theorem Tracks.sysUnlink {path : Option (List UInt8)} (hp : p.cwd = cwd) (h : H e g) :
    Ensures (sysUnlink p g path) fun r => r.2.1 = p ∧ H e r.2.2 := by
  subst hp
  unfold Model.sysUnlink
  split
  · exact .ok ⟨rfl, h⟩
  refine (hT.namex h).bind ?_
  rintro ⟨o, name, g1⟩ h1
  cases o with
  | none => exact .ok ⟨rfl, h1⟩
  | some dp =>
    exact (hT.ilock h1).bind fun g2 h2 => (hT.unlinkIn h2).bind fun _ h3 => .ok ⟨rfl, h3⟩

end

-- == the bound

section

variable {g g' : Glob} {c : Nat → Int} {cwd o : Option Nat}
  {path : List UInt8}

theorem Covers.start (h : Covers g c) : Covers g (inHand c []) ∧ FsStep c g g :=
  ⟨by rw [inHand_nil]; exact h, .refl c g⟩

theorem namei_covers (hc : Covers g c) (h : namei g cwd path = .ok (o, g')) :
    Covers g' (held c o) ∧ FsStep c g g' := by
  rw [← inHand_found]
  exact (covers_tracks c cwd g).namei hc.start _ h

theorem openInode_covers {room : Nat} (hc : Covers g c)
    (h : openInode g cwd path omode room = .ok (o, g')) : Covers g' (held c o) ∧ FsStep c g g' := by
  rw [← inHand_found]
  exact (covers_tracks c cwd g).openInode hc.start _ h

theorem sysUnlink_covers {p' : Proc} {path : Option (List UInt8)} {r : Nat}
    (hc : Covers g c) (h : sysUnlink p g path = .ok (r, p', g')) :
    p' = p ∧ Covers g' c ∧ FsStep c g g' := by
  have hu := (covers_tracks c p.cwd g).sysUnlink rfl hc.start _ h
  rw [inHand_nil] at hu
  exact hu

end

end Xv6Labs.Model
