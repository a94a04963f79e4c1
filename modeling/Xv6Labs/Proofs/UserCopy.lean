/-
The copies between the network stack and user memory: copyout and copyin of
week 6 take no faults, and change user pages only. One that succeeds puts
each byte where the user finds it.
-/
import Xv6Labs.Model.Net
import Xv6Labs.Proofs.Copyin

namespace Xv6Labs.Model

open Lib

variable {a d dst n pa : Nat} {f m mem' : Nat → UInt8}
  {r : Except Panic (Bool × (Nat → UInt8))}

-- == translation

/-- copyout uses a page that the user may write. -/
def Pte.forCopyout (e : Pte) : Bool := e.perm.w && e.perm.u && e.pa != 0

/-- copyin uses a page of the user. -/
def Pte.forCopyin (e : Pte) : Bool := e.perm.u && e.pa != 0

/-- The physical address of user address `va`, if its page is `ok`. -/
def PageTable.find (pt : PageTable) (ok : Pte → Bool) (va : Nat) : Option Nat :=
  if va < maxVa then
    ((pt.entry (va / pgSize)).filter ok).map fun e => e.pa + va % pgSize
  else none

/-- Every page of the table is a whole page, and none of them is in `ps`. -/
def PageTable.Apart (pt : PageTable) (ps : List Nat) : Prop :=
  ∀ m e, pt.entry m = some e → e.pa % pgSize = 0 ∧ e.pa ∉ ps

section

variable {pt : PageTable} {ok : Pte → Bool} {va len k done : Nat}
  {mem : Nat → UInt8} {src : (Nat → UInt8) → Nat → UInt8}

theorem PageTable.find_page (h : pt.find ok va = some pa) :
    va < maxVa ∧ ∃ e, pt.entry (va / pgSize) = some e ∧ ok e = true ∧ pa = e.pa + va % pgSize := by
  unfold PageTable.find at h
  split at h
  next hlt =>
    obtain ⟨e, he, hpa⟩ := Option.map_eq_some_iff.mp h
    obtain ⟨hent, hok⟩ := Option.filter_eq_some_iff.mp he
    exact ⟨hlt, e, hent, hok, hpa.symm⟩
  next => cases h

theorem PageTable.find_add (h : pt.find ok va = some pa)
    (hn : va % pgSize + n < pgSize) : pt.find ok (va + n) = some (pa + n) := by
  obtain ⟨hlt, e, he, hok, rfl⟩ := PageTable.find_page h
  have hdiv : (va + n) / pgSize = va / pgSize := by
    unfold pgSize at *
    omega
  have hmod : (va + n) % pgSize = va % pgSize + n := by
    unfold pgSize at *
    omega
  have hmax : va + n < maxVa := by
    unfold pgSize maxVa at *
    omega
  unfold PageTable.find
  rw [if_pos hmax, hdiv, he, Option.filter_some, if_pos hok, Option.map_some, hmod, Nat.add_assoc]

-- == one turn

theorem roundDown_maxVa (d : Nat) : maxVa ≤ pgRoundDown d ↔ ¬ d < maxVa := by
  unfold pgRoundDown pgSize maxVa
  omega

theorem sub_roundDown (d : Nat) : d - pgRoundDown d = d % pgSize := by
  unfold pgRoundDown pgSize
  omega

theorem u64_mod_page (va done : Nat) : u64 (va + done) % pgSize = (va + done) % pgSize := by
  unfold u64 pgSize
  omega

/-- A turn stays in one page, also where addresses wrap: its bytes are
translated together. -/
theorem PageTable.find_turn {i : Nat} (h : pt.find ok (u64 (va + done)) = some pa)
    (hroom : (va + done) % pgSize + n ≤ pgSize) (hi : i < n) :
    pt.find ok (u64 (va + (done + i : Nat))) = some (pa + i) := by
  have hadd : u64 (va + (done + i : Nat)) = u64 (va + done) + i := by
    unfold u64 pgSize at *
    omega
  rw [hadd]
  refine PageTable.find_add h ?_
  rw [u64_mod_page]
  omega

/-- What a turn of copyout does. -/
theorem copyoutUserPage_eq :
    copyoutUserPage pt va src len k (done, mem) =
      .ok (match pt.find Pte.forCopyout (u64 (va + done)) with
        | none => .inr mem
        | some pa =>
          let n := min (pgSize - u64 (va + done) % pgSize) (len - done)
          .inl (done + n, memput mem pa n fun i => src mem (done + i))) := by
  generalize hd : u64 ((va : Int) + done) = d
  unfold copyoutUserPage PageTable.find
  simp only [hd, sub_roundDown]
  by_cases hlt : d < maxVa
  · have hround : pgRoundDown d < maxVa := (pgRoundDown_le d).trans_lt hlt
    rw [if_neg (Nat.not_le.mpr hround), walkaddr_entry hround, walk_eq hround, roundDown_div]
    unfold PageTable.entry
    split
    next hm =>
      simp only [ok_bind]
      cases he : pt.leaf (d / pgSize) with
      | none => rfl
      | some e =>
        cases hw : e.perm.w with
        | false => simp [hw, Pte.forCopyout, Option.filter_some]
        | true =>
          cases hu : e.perm.u with
          | false => simp [hw, hu, Pte.forCopyout, Option.filter_some]
          | true =>
            by_cases hz : e.pa = 0
            · simp [hw, hu, hz, Pte.forCopyout, Option.filter_some]
            · simp [hw, hu, hz, Pte.forCopyout, Option.filter_some]
    next hm => rfl
  · rw [if_pos ((roundDown_maxVa d).mpr hlt), if_neg hlt]

/-- What a turn of copyin does. -/
theorem copyinUserPage_eq :
    copyinUserPage pt dst va len k (done, mem) =
      .ok (match pt.find Pte.forCopyin (u64 (va + done)) with
        | none => .inr mem
        | some pa =>
          let n := min (pgSize - u64 (va + done) % pgSize) (len - done)
          .inl (done + n, memmove mem (dst + done) pa n)) := by
  generalize hd : u64 ((va : Int) + done) = d
  unfold copyinUserPage PageTable.find
  simp only [hd, sub_roundDown]
  by_cases hlt : d < maxVa
  · have hround : pgRoundDown d < maxVa := (pgRoundDown_le d).trans_lt hlt
    rw [if_pos hlt, walkaddr_entry hround, roundDown_div]
    cases he : pt.entry (d / pgSize) with
    | none => rfl
    | some e =>
      cases hu : e.perm.u with
      | false => simp [hu, Pte.forCopyin, Option.filter_some]
      | true =>
        by_cases hz : e.pa = 0
        · simp [hu, hz, Pte.forCopyin, Option.filter_some]
        · simp [hu, hz, Pte.forCopyin, Option.filter_some]
  · unfold walkaddr
    rw [if_pos ((roundDown_maxVa d).mpr hlt), if_neg hlt]
    rfl

-- == frames

/-- An address in no page of the table. -/
def PageTable.Outside (pt : PageTable) (a : Nat) : Prop :=
  ∀ m e, pt.entry m = some e → ¬ (e.pa ≤ a ∧ a < e.pa + pgSize)

theorem PageTable.not_outside_of_find (h : pt.find ok va = some pa) : ¬ pt.Outside pa := by
  intro hout
  obtain ⟨_, e, he, _, rfl⟩ := PageTable.find_page h
  refine hout _ e he ⟨Nat.le_add_right .., ?_⟩
  exact Nat.add_lt_add_left (Nat.mod_lt _ (by decide)) _

theorem memput_of_not (h : ¬ (d ≤ a ∧ a < d + n)) : memput mem d n f a = mem a := if_neg h

theorem memmove_of_not {s : Nat}
    (h : ¬ (d ≤ a ∧ a < d + n)) : memmove mem d s n a = mem a := if_neg h

-- == the rule of both loops

/-- What the turns of a copy keep, if a turn writes with `write`. -/
def CopyKeeps (pt : PageTable) (ok : Pte → Bool) (va len : Nat)
    (write : (Nat → UInt8) → Nat → Nat → Nat → Nat → UInt8)
    (P : Nat → (Nat → UInt8) → Prop) : Prop :=
  ∀ done m n pa, P done m → 0 < n → done + n ≤ len →
    (va + done) % pgSize + n ≤ pgSize →
    pt.find ok (u64 (va + done)) = some pa → P (done + n) (write m done pa n)

/-- How a copy ends: all is copied, or the next byte is not mapped. -/
def CopyEnds (pt : PageTable) (ok : Pte → Bool) (va len : Nat)
    (P : Nat → (Nat → UInt8) → Prop) (r : Except Panic (Bool × (Nat → UInt8))) :
    Prop :=
  (∃ mem', r = .ok (true, mem') ∧ P len mem') ∨
    ∃ done mem', r = .ok (false, mem') ∧ done < len ∧
      pt.find ok (u64 (va + done)) = none ∧ P done mem'

variable {P : Nat → (Nat → UInt8) → Prop}

theorem CopyEnds.all (h : CopyEnds pt ok va len P r) (hr : r = .ok (true, mem')) : P len mem' := by
  obtain ⟨m, hrun, hP⟩ | ⟨_, _, hrun, _⟩ := h
  · cases hr.symm.trans hrun
    exact hP
  · cases hr.symm.trans hrun

theorem copyLoop_ends {f : Nat → Nat × (Nat → UInt8) →
      Except Panic ((Nat × (Nat → UInt8)) ⊕ (Nat → UInt8))}
    {write : (Nat → UInt8) → Nat → Nat → Nat → Nat → UInt8}
    (hf : ∀ k done m, f k (done, m) =
      .ok (match pt.find ok (u64 (va + done)) with
        | none => .inr m
        | some pa =>
          let n := min (pgSize - u64 (va + done) % pgSize) (len - done)
          .inl (done + n, write m done pa n)))
    (hturn : CopyKeeps pt ok va len write P) (h0 : P 0 mem) :
    CopyEnds pt ok va len P (forRet f (copyPages va len) (0, mem) >>= fun
      | .inl (_, mem) => pure (true, mem)
      | .inr mem => pure (false, mem)) := by
  obtain ⟨t, ht, hdone, hP⟩ | ⟨m, hm, done, hexit⟩ := forRet_run (f := f)
    (n := copyPages va len) (s := (0, mem)) (fun k t => t.1 = bytesBefore va len k ∧ P t.1 t.2)
    (fun m => ∃ done, done < len ∧ pt.find ok (u64 (va + done)) = none ∧ P done m)
    ⟨by simp [bytesBefore], h0⟩ (by
      rintro k hk ⟨done, m⟩ ⟨hdone, hP⟩
      obtain ⟨n, hn, hsucc, _, _⟩ := bytesBefore_succ hk
      dsimp only at hdone hP
      rw [← hdone] at hn hsucc
      rw [hf, u64_mod_page, ← hn]
      cases hfind : pt.find ok (u64 (va + done)) with
      | none => exact .inr ⟨m, rfl, done, by omega, hfind, hP⟩
      | some pa =>
        exact .inl ⟨_, rfl, hsucc.symm,
          hturn done m _ pa hP n.succ_pos (by omega) (by omega) hfind⟩)
  · rw [hdone, bytesBefore_end] at hP
    exact .inl ⟨t.2, by rw [ht]; rfl, hP⟩
  · exact .inr ⟨done, m, by rw [hm]; rfl, hexit⟩

theorem copyoutUser_ends
    (hturn : CopyKeeps pt Pte.forCopyout va len
      (fun m done pa n => memput m pa n fun i => src m (done + i)) P)
    (h0 : P 0 mem) : CopyEnds pt Pte.forCopyout va len P (copyoutUser pt mem va src len) :=
  copyLoop_ends (fun _ _ _ => copyoutUserPage_eq) hturn h0

theorem copyinUser_ends
    (hturn : CopyKeeps pt Pte.forCopyin va len (fun m done pa n => memmove m (dst + done) pa n) P)
    (h0 : P 0 mem) : CopyEnds pt Pte.forCopyin va len P (copyinUser pt mem dst va len) :=
  copyLoop_ends (fun _ _ _ => copyinUserPage_eq) hturn h0

/-- copyout returns, and changes user pages only. -/
theorem copyoutUser_total (pt : PageTable) (mem : Nat → UInt8) (va : Nat)
    (src : (Nat → UInt8) → Nat → UInt8) (len : Nat) :
    ∃ b mem', copyoutUser pt mem va src len = .ok (b, mem') ∧
      ∀ a, pt.Outside a → mem' a = mem a := by
  have hends : CopyEnds pt Pte.forCopyout va len (fun _ m => ∀ a, pt.Outside a → m a = mem a)
      (copyoutUser pt mem va src len) := by
    refine copyoutUser_ends ?_ fun _ _ => rfl
    intro done m n pa hP _ _ hroom hfind a ha
    refine (memput_of_not fun hin => ?_).trans (hP a ha)
    have hat := PageTable.find_turn (i := a - pa) hfind hroom (by omega)
    rw [Nat.add_sub_cancel' hin.1] at hat
    exact PageTable.not_outside_of_find hat ha
  obtain ⟨mem', hrun, hP⟩ | ⟨_, mem', hrun, _, _, hP⟩ := hends
  · exact ⟨true, mem', hrun, hP⟩
  · exact ⟨false, mem', hrun, hP⟩

/-- copyin returns, and changes its destination only. -/
theorem copyinUser_total (pt : PageTable) (mem : Nat → UInt8) (dst va len : Nat) :
    ∃ b mem', copyinUser pt mem dst va len = .ok (b, mem') ∧
      ∀ a, ¬ (dst ≤ a ∧ a < dst + len) → mem' a = mem a := by
  have hends : CopyEnds pt Pte.forCopyin va len
      (fun _ m => ∀ a, ¬ (dst ≤ a ∧ a < dst + len) → m a = mem a)
      (copyinUser pt mem dst va len) := by
    refine copyinUser_ends ?_ fun _ _ => rfl
    intro done m n pa hP _ hle _ _ a ha
    exact (memmove_of_not (by omega)).trans (hP a ha)
  obtain ⟨mem', hrun, hP⟩ | ⟨_, mem', hrun, _, _, hP⟩ := hends
  · exact ⟨true, mem', hrun, hP⟩
  · exact ⟨false, mem', hrun, hP⟩

-- == success

/-- Every byte of the area is in a page that is `ok`. -/
def PageTable.Covers (pt : PageTable) (ok : Pte → Bool) (va len : Nat) : Prop :=
  ∀ j, j < len → ∃ pa, pt.find ok (u64 (va + j)) = some pa

/-- A copy does not stop in an area that is covered. -/
theorem CopyEnds.success (h : CopyEnds pt ok va len P r) (hcov : pt.Covers ok va len) :
    ∃ mem', r = .ok (true, mem') := by
  obtain ⟨mem', hrun, _⟩ | ⟨done, _, _, hlt, hnone, _⟩ := h
  · exact ⟨mem', hrun⟩
  · obtain ⟨pa, hpa⟩ := hcov done hlt
    rw [hpa] at hnone
    cases hnone

/-- copyout to an area that the user may write succeeds. -/
theorem copyoutUser_ok (mem : Nat → UInt8) (src : (Nat → UInt8) → Nat → UInt8)
    (h : pt.Covers Pte.forCopyout va len) :
    ∃ mem', copyoutUser pt mem va src len = .ok (true, mem') :=
  (copyoutUser_ends (P := fun _ _ => True) (fun _ _ _ _ _ _ _ _ _ => trivial) trivial).success h

/-- copyin from an area of the user succeeds. -/
theorem copyinUser_ok (mem : Nat → UInt8) (dst : Nat) (h : pt.Covers Pte.forCopyin va len) :
    ∃ mem', copyinUser pt mem dst va len = .ok (true, mem') :=
  (copyinUser_ends (P := fun _ _ => True) (fun _ _ _ _ _ _ _ _ _ => trivial) trivial).success h

-- == contents

/-- Every page of the table is a whole page, and is mapped once. -/
structure PageTable.Simple (pt : PageTable) : Prop where
  aligned : ∀ m e, pt.entry m = some e → e.pa % pgSize = 0
  once : ∀ m m' e e', pt.entry m = some e → pt.entry m' = some e' → e.pa = e'.pa → m = m'

theorem PageTable.Simple.find_inj (h : pt.Simple) {va' : Nat}
    (hva : pt.find ok va = some a) (hva' : pt.find ok va' = some a) : va = va' := by
  obtain ⟨_, e, he, _, heq⟩ := PageTable.find_page hva
  obtain ⟨_, e', he', _, heq'⟩ := PageTable.find_page hva'
  have hal := h.aligned _ e he
  have hal' := h.aligned _ e' he'
  have hpa : e.pa = e'.pa := by
    unfold pgSize at *
    omega
  have hpage := h.once _ _ e e' he he' hpa
  unfold pgSize at *
  omega

/-- The first `done` bytes are where the user finds them, and nothing else
has changed. -/
structure CopiedOut (pt : PageTable) (mem : Nat → UInt8) (va : Nat)
    (f : Nat → UInt8) (done : Nat) (m : Nat → UInt8) : Prop where
  put : ∀ j, j < done → ∃ pa, pt.find Pte.forCopyout (u64 (va + j)) = some pa ∧ m pa = f j
  rest : ∀ a, (∀ j, j < done → pt.find Pte.forCopyout (u64 (va + j)) ≠ some a) → m a = mem a

theorem CopiedOut.outside (h : CopiedOut pt mem va f done m) (ha : pt.Outside a) : m a = mem a := by
  refine h.rest a ?_
  intro j _ hfind
  exact PageTable.not_outside_of_find hfind ha

/-- One turn copies the next `n` bytes, which are in one page. -/
theorem CopiedOut.turn {g : Nat → UInt8} (h : CopiedOut pt mem va f done m) (hpt : pt.Simple)
    (hfind : pt.find Pte.forCopyout (u64 (va + done)) = some pa)
    (hpage : (va + done) % pgSize + n ≤ pgSize) (hlen : done + n ≤ 2 ^ 64)
    (hg : ∀ i, i < n → g i = f (done + i)) :
    CopiedOut pt mem va f (done + n) (memput m pa n g) := by
  have hnext := fun i => PageTable.find_turn (i := i) hfind hpage
  constructor
  · intro j hj
    by_cases hold : j < done
    · obtain ⟨pa', hpa', hval⟩ := h.put j hold
      refine ⟨pa', hpa', (memput_of_not ?_).trans hval⟩
      intro hin
      -- a byte copied before is not overwritten: it is at another address
      have hi := hnext (pa' - pa) (by omega)
      rw [Nat.add_sub_cancel' hin.1] at hi
      have hva := hpt.find_inj hpa' hi
      unfold u64 at hva
      omega
    · have hle := Nat.le_of_not_lt hold
      refine ⟨pa + (j - done), ?_, ?_⟩
      · have hi := hnext (j - done) (by omega)
        rw [Nat.add_sub_cancel' hle] at hi
        exact hi
      · unfold memput
        rw [if_pos (by omega), Nat.add_sub_cancel_left, hg _ (by omega), Nat.add_sub_cancel' hle]
  · intro a ha
    refine (memput_of_not ?_).trans (h.rest a fun j hj => ha j (by omega))
    intro hin
    refine ha (done + (a - pa)) (by omega) ?_
    rw [hnext (a - pa) (by omega), Nat.add_sub_cancel' hin.1]

/-- copyout that succeeds puts every byte where the user finds it, and changes
nothing else. -/
theorem copyoutUser_content (hpt : pt.Simple) (hlen : len ≤ 2 ^ 64)
    (hsrc : ∀ m, (∀ a, pt.Outside a → m a = mem a) → ∀ i, i < len → src m i = src mem i)
    (h : copyoutUser pt mem va src len = .ok (true, mem')) :
    CopiedOut pt mem va (src mem) len mem' := by
  have hends : CopyEnds pt Pte.forCopyout va len (CopiedOut pt mem va (src mem))
      (copyoutUser pt mem va src len) := by
    refine copyoutUser_ends ?_ ⟨fun j hj => absurd hj (Nat.not_lt_zero j), fun _ _ => rfl⟩
    intro done m n pa hcopied _ hle hroom hfind
    refine hcopied.turn hpt hfind hroom (by omega) fun i hi => ?_
    exact hsrc m (fun a ha => hcopied.outside ha) _ (by omega)
  exact hends.all h

/-- copyin that succeeds delivers the user's bytes, if none of them is where
it copies to. -/
theorem copyinUser_content (hout : ∀ a, dst ≤ a → a < dst + len → pt.Outside a)
    (h : copyinUser pt mem dst va len = .ok (true, mem')) :
    ∀ j, j < len → ∃ pa, pt.find Pte.forCopyin (u64 (va + j)) = some pa ∧
      mem' (dst + j) = mem pa := by
  have hends : CopyEnds pt Pte.forCopyin va len
      (fun done m => (∀ a, ¬ (dst ≤ a ∧ a < dst + len) → m a = mem a) ∧
        ∀ j, j < done → ∃ pa, pt.find Pte.forCopyin (u64 (va + j)) = some pa ∧ m (dst + j) = mem pa)
      (copyinUser pt mem dst va len) := by
    refine copyinUser_ends ?_ ⟨fun _ _ => rfl, fun j hj => absurd hj (Nat.not_lt_zero j)⟩
    rintro done m n pa ⟨hframe, hput⟩ _ hle hroom hfind
    refine ⟨fun a ha => (memmove_of_not (by omega)).trans (hframe a ha), ?_⟩
    intro j hj
    by_cases hold : j < done
    · obtain ⟨pa', hpa', hval⟩ := hput j hold
      exact ⟨pa', hpa', (memmove_of_not (by omega)).trans hval⟩
    have hpa := PageTable.find_turn (i := j - done) hfind hroom (by omega)
    rw [Nat.add_sub_cancel' (Nat.le_of_not_lt hold)] at hpa
    refine ⟨pa + (j - done), hpa, ?_⟩
    have hsub : dst + j - (dst + done) = j - done := by omega
    show memmove m (dst + done) pa n (dst + j) = _
    rw [memmove, if_pos (by omega), hsub]
    -- what is read is a user's byte, and was not overwritten
    refine hframe _ fun hin => ?_
    exact PageTable.not_outside_of_find hpa (hout _ hin.1 hin.2)
  exact (hends.all h).2

end

end Xv6Labs.Model
