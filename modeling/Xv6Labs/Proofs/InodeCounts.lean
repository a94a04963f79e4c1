/-
Inode references, exactly.

`Counts t c g`: `c` is the count of every slot, and no two slots in use
hold the same inode (`counts_tracks`). The working directory that a lookup
starts from must be counted: idup on a slot that no one holds would revive
it.
-/
import Xv6Labs.Proofs.Calls
import Xv6Labs.Model.Links

namespace Xv6Labs.Model

open Lib

/-- `t` is the file table and `c` the count of every slot; the slots in
use are in the table and hold different inodes. -/
structure Counts (t : Nat → File) (c : Nat → Int) (g : Glob) : Prop where
  files : g.ftable = t
  refs : ∀ ip, (g.itable ip).ref = c ip
  table : ∀ ip, 0 < c ip → ip < ninode
  unique : ∀ a b, 0 < c a → 0 < c b → (g.itable a).dev = (g.itable b).dev →
    (g.itable a).inum = (g.itable b).inum → a = b

/-- The working directory is counted. -/
def CwdCounted (c : Nat → Int) (cwd : Option Nat) : Prop := ∀ d, cwd = some d → 0 < c d

variable {t : Nat → File} {c : Nat → Int} {g g' : Glob}
variable {i : Nat}

/-- The same slots and counts. -/
theorem Counts.congr (h : Counts t c g) (hfiles : g'.ftable = g.ftable)
    (href : ∀ ip, (g'.itable ip).ref = (g.itable ip).ref)
    (hdev : ∀ ip, (g'.itable ip).dev = (g.itable ip).dev)
    (hinum : ∀ ip, (g'.itable ip).inum = (g.itable ip).inum) : Counts t c g' := by
  refine ⟨hfiles.trans h.files, fun ip => (href ip).trans (h.refs ip), h.table, ?_⟩
  intro a b ha hb hd hn
  rw [hdev, hdev] at hd
  rw [hinum, hinum] at hn
  exact h.unique a b ha hb hd hn

theorem Still.counts (h : Still g g') (hc : Counts t c g) : Counts t c g' :=
  hc.congr h.ftable h.ref h.dev h.inum

theorem Counts.setDisk (h : Counts t c g) (m : Nat) (d : Dinode) : Counts t c (g.setDisk m d) :=
  h.congr rfl (fun _ => rfl) (fun _ => rfl) (fun _ => rfl)

theorem Counts.memory (h : Counts t c g) (phys : Phys) : Counts t c { g with phys } :=
  h.congr rfl (fun _ => rfl) (fun _ => rfl) (fun _ => rfl)

-- == slots

theorem bump_self (c : Nat → Int) (i : Nat) : bump c i i = c i + 1 := by
  simp only [bump, if_true]

theorem bump_of_ne (c : Nat → Int) {j : Nat} (h : j ≠ i) : bump c i j = c j := by
  simp only [bump, if_neg h, Int.add_zero]

theorem counts_setRef {d : Nat → Int} {r : Int} {v : Bool}
    (h : Counts t c g) (hi : d i = r) (hj : ∀ j, j ≠ i → d j = c j) (hpos : 0 < r → 0 < c i) :
    Counts t d (g.setInode i { g.itable i with ref := r, valid := v }) := by
  have hkeep : ∀ j, ((g.setInode i { g.itable i with
        ref := r, valid := v }).itable j).dev = (g.itable j).dev
      ∧ ((g.setInode i { g.itable i with
        ref := r, valid := v }).itable j).inum = (g.itable j).inum := by
    intro j
    simp only [Glob.setInode]
    split
    · next hji => exact hji ▸ ⟨rfl, rfl⟩
    · exact ⟨rfl, rfl⟩
  have hold : ∀ j, 0 < d j → 0 < c j := by
    intro j hd
    by_cases hji : j = i
    · subst hji
      exact hpos (hi ▸ hd)
    · rw [← hj j hji]
      exact hd
  refine ⟨h.files, fun j => ?_, fun j hd => h.table j (hold j hd), ?_⟩
  · by_cases hji : j = i
    · subst hji
      simp only [Glob.setInode, if_true, hi]
    · simp only [Glob.setInode, if_neg hji, h.refs j, hj j hji]
  · intro a b ha hb hdev hinum
    rw [(hkeep a).1, (hkeep b).1] at hdev
    rw [(hkeep a).2, (hkeep b).2] at hinum
    exact h.unique a b (hold a ha) (hold b hb) hdev hinum

theorem iget_counts {dev inum : Nat} (hc : Counts t c g)
    (h : iget g dev inum = .ok (i, g')) : Counts t (bump c i) g' := by
  simp only [iget] at h
  split at h
  · next hfind =>
    cases h
    have hpos := (List.find?_range_eq_some.mp hfind).1
    simp only [decide_eq_true_eq] at hpos
    refine counts_setRef hc ?_ (fun j hj => bump_of_ne c hj) fun _ => ?_
    · rw [bump_self, hc.refs]
    · rw [← hc.refs]
      exact hpos.1
  · next hnone =>
    split at h
    · cases h
    · next hfree =>
      cases h
      obtain ⟨hz, hlt, _⟩ := List.find?_range_eq_some.mp hfree
      simp only [decide_eq_true_eq] at hz
      rw [List.mem_range] at hlt
      -- no slot in use holds this inode, so the recycled one is alone
      have hother : ∀ j, j ≠ i → 0 < c j →
          ¬ ((g.itable j).dev = dev ∧ (g.itable j).inum = inum) := by
        intro j _ hj hkey
        have hno := List.find?_range_eq_none.mp hnone j (hc.table j hj)
        simp only [Bool.not_eq_true', decide_eq_false_iff_not] at hno
        exact hno ⟨hc.refs j ▸ hj, hkey⟩
      have hself : (g.setInode i ⟨dev, inum, 1, false⟩).itable i
          = ⟨dev, inum, 1, false⟩ := if_pos rfl
      have hne : ∀ j, j ≠ i → (g.setInode i ⟨dev, inum, 1, false⟩).itable j
          = g.itable j := fun j hj => if_neg hj
      refine ⟨hc.files, fun j => ?_, fun j hj => ?_, fun a b ha hb hdev hinum => ?_⟩
      · by_cases hji : j = i
        · subst hji
          rw [hself, bump_self, ← hc.refs, hz]
          rfl
        · rw [hne j hji, bump_of_ne c hji, hc.refs]
      · by_cases hji : j = i
        · exact hji ▸ hlt
        · exact hc.table j (bump_of_ne c hji ▸ hj)
      by_cases hai : a = i
      · by_cases hbi : b = i
        · rw [hai, hbi]
        · subst hai
          rw [hself, hne b hbi] at hdev hinum
          rw [bump_of_ne c hbi] at hb
          exact absurd ⟨hdev.symm, hinum.symm⟩ (hother b hbi hb)
      · rw [bump_of_ne c hai] at ha
        by_cases hbi : b = i
        · subst hbi
          rw [hself, hne a hai] at hdev hinum
          exact absurd ⟨hdev, hinum⟩ (hother a hai ha)
        · rw [hne a hai, hne b hbi] at hdev hinum
          rw [bump_of_ne c hbi] at hb
          exact hc.unique a b ha hb hdev hinum

theorem idup_counts (hc : Counts t c g) (hi : 0 < c i) : Counts t (bump c i) (idup g i) := by
  refine counts_setRef hc ?_ (fun j hj => bump_of_ne c hj) fun _ => hi
  rw [bump_self, hc.refs]

theorem iput_counts (hc : Counts t (bump c i) g) : Counts t c (iput g i) := by
  obtain ⟨disk, valid, heq⟩ := iput_slot g i
  rw [heq]
  have hc' : Counts t (bump c i) { g with disk } :=
    hc.congr rfl (fun _ => rfl) (fun _ => rfl) (fun _ => rfl)
  refine counts_setRef hc' ?_ (fun j hj => (bump_of_ne c hj).symm) fun hpos => ?_
  · have := hc.refs i
    rw [bump_self] at this
    omega
  · rw [hc.refs i] at hpos
    omega

theorem counts_tracks {cwd : Option Nat} (hcwd : CwdCounted c cwd) :
    Tracks cwd fun e g => Counts t (inHand c e) g := by
  refine ⟨?_, ?_, ?_, ?_, ?_, ?_⟩
  · rintro e g dev inum hc ⟨i, g'⟩ h
    rw [inHand_cons]
    exact iget_counts hc h
  · intro e g d hd hc
    rw [inHand_cons]
    refine idup_counts hc ?_
    have := hcwd d hd
    unfold inHand
    omega
  · intro e g i hc
    rw [inHand_cons] at hc
    exact iput_counts hc
  · exact fun hc g' h => (ilock_quiet _ h).still.counts hc
  · exact fun hc => hc.setDisk _ _
  · intro e g i j hc
    rw [inHand_cons, inHand_cons, bump_comm, ← inHand_cons, ← inHand_cons] at hc
    exact hc

-- == link, create, chdir

section

variable {p : Proc} {H : List Nat → Glob → Prop} {e : List Nat}
  {ip room : Nat} (hT : Tracks p.cwd H)
variable {path : Option (List UInt8)}
include hT

theorem Tracks.linkBad (h : H (ip :: e) g) : Ensures (linkBad g ip) (H e) :=
  (hT.ilock h).bind fun _ h1 => .ok (hT.iput (hT.setDisk h1))

theorem Tracks.linkNew {new : List UInt8} (h : H (ip :: e) g) :
    Ensures (linkNew g p.cwd ip new room) fun r => H e r.2 := by
  have hbad : ∀ {g}, H (ip :: e) g → Ensures
      (do let g ← Model.linkBad g ip; pure (minusOne, g)) fun r => H e r.2 :=
    fun h => (hT.linkBad h).bind fun _ h1 => .ok h1
  refine (hT.namex h).bind ?_
  rintro ⟨o, name, g1⟩ h1
  cases o with
  | none => exact hbad h1
  | some dp =>
    refine (hT.ilock h1).bind fun g2 h2 => ?_
    refine Ensures.bind (Q := fun r : Bool × Glob => H (dp :: ip :: e) r.2)
      (.branch (.ok h2) (hT.dirlink h2)) fun r3 h3 => ?_
    exact .branch (.ok (hT.iput (hT.iput h3))) (hbad (hT.iput h3))

theorem Tracks.sysLink {old new : Option (List UInt8)} (h : H e g) :
    Ensures (sysLink p g old new room) fun r => r.2.1 = p ∧ H e r.2.2 := by
  cases old with
  | none => exact .ok ⟨rfl, h⟩
  | some old =>
    cases new with
    | none => exact .ok ⟨rfl, h⟩
    | some new =>
      refine (hT.namei h).bind ?_
      rintro ⟨o, g1⟩ h1
      cases o with
      | none => exact .ok ⟨rfl, h1⟩
      | some ip =>
        refine (hT.ilock h1).bind fun g2 h2 => ?_
        exact Ensures.bind (.branch (.ok (hT.iput h2))
          (hT.linkNew (hT.setDisk h2))) fun _ h3 => .ok ⟨rfl, h3⟩

theorem Tracks.sysCreate {type : IType}
    {major minor : Int} (h : H e g) :
    Ensures (sysCreate p g path type major minor room) fun r =>
      r.2.1 = p ∧ H e r.2.2 := by
  cases path with
  | none => exact .ok ⟨rfl, h⟩
  | some path =>
    refine (hT.create h).bind ?_
    rintro ⟨o, g1⟩ h1
    cases o with
    | none => exact .ok ⟨rfl, h1⟩
    | some ip => exact .ok ⟨rfl, hT.iput h1⟩

/-- sys_chdir fails and changes nothing, or moves one reference from the
old directory to the new. -/
theorem Tracks.sysChdir (h : H e g) :
    Ensures (sysChdir p g path) fun r => (r.2.1 = p ∧ H e r.2.2)
      ∨ ∃ d i g1, p.cwd = some d ∧ r.2.1 = { p with cwd := some i }
        ∧ H (i :: e) g1 ∧ r.2.2 = Model.iput g1 d := by
  cases path with
  | none => exact .ok (.inl ⟨rfl, h⟩)
  | some path =>
    refine (hT.namei h).bind ?_
    rintro ⟨o, g1⟩ h1
    cases o with
    | none => exact .ok (.inl ⟨rfl, h1⟩)
    | some ip =>
      refine (hT.ilock h1).bind fun g2 h2 =>
        .branch (.ok (.inl ⟨rfl, hT.iput h2⟩)) ?_
      split
      · exact .error
      · next d hd => exact .ok (.inr ⟨d, ip, g2, hd, rfl, h2, rfl⟩)

end

-- == the calls, counted

section

variable {p p' : Proc} {room r : Nat} {path : Option (List UInt8)}

theorem openInode_counts {cwd o : Option Nat} {path : List UInt8}
    {omode : UInt32} (hc : Counts t c g) (hcwd : CwdCounted c cwd)
    (h : openInode g cwd path omode room = .ok (o, g')) : Counts t (held c o) g' := by
  rw [← inHand_found]
  rw [← inHand_nil c] at hc
  exact (counts_tracks hcwd).openInode hc _ h

/-- A call that ends with the references it started with. -/
theorem Counts.call {x : Except Panic (Nat × Proc × Glob)} (hc : Counts t c g)
    (hx : Counts t (inHand c []) g → Ensures x fun r => r.2.1 = p ∧ Counts t (inHand c []) r.2.2)
    (h : x = .ok (r, p', g')) : p' = p ∧ Counts t c g' := by
  rw [← inHand_nil c] at hc ⊢
  exact hx hc _ h

theorem kexec_counts {path : List UInt8} {argv : List (List UInt8)}
    {r : Int} (hc : Counts t c g) (hcwd : CwdCounted c p.cwd)
    (h : kexec p g path argv = .ok (r, p', g')) : Counts t c g' := by
  rw [← inHand_nil c] at hc ⊢
  exact (counts_tracks hcwd).kexec (fun hc hs => hs.counts hc) hc _ h

theorem sysChdir_counts (hc : Counts t c g) (hcwd : CwdCounted c p.cwd)
    (h : sysChdir p g path = .ok (r, p', g')) :
    (p' = p ∧ Counts t c g') ∨ ∃ d e, p.cwd = some d ∧ p' = { p with cwd := some e }
      ∧ ∀ x, c = bump x d → Counts t (bump x e) g' := by
  have hc0 := hc
  rw [← inHand_nil c] at hc0
  rcases (counts_tracks hcwd).sysChdir hc0 _ h with
    ⟨hp, hg⟩ | ⟨d, i, g1, hd, hp, hg, rfl⟩
  · rw [inHand_nil] at hg
    exact .inl ⟨hp, hg⟩
  · refine .inr ⟨d, i, hd, hp, fun x hx => iput_counts ?_⟩
    rw [bump_comm, ← hx, ← inHand_nil c, ← inHand_cons]
    exact hg

end

end Xv6Labs.Model
