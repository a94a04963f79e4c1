/-
What begin_op admits, and what the log area of a mkfs image holds.

begin_op reserves for `LOGSIZE` blocks, and mkfs makes the log area that
long with the header in it. Three operations with a full budget are
admitted, and the last of their thirty blocks panics
(`admitted_log_panics`).
-/
import Xv6Labs.Lib.Exec
import Xv6Labs.Lib.Sum
import Xv6Labs.Model.LogSize

namespace Xv6Labs.Model.Week6

open Lib

/-- What an operation may still log after `n` calls. -/
def left (n : Nat) : Nat := maxOpBlocks - n

/-- The blocks in the log and the calls still to come fit in the area. -/
structure Run.Fits (r : Run) : Prop where
  size : r.s.size = mkfsNlog
  count : r.s.outstanding = r.ops.length
  closed : r.s.committing = true → r.ops = []
  room : r.s.lh.length + (r.ops.map left).sum ≤ mkfsNlog - 1

/-- An operation begins only if one budget more fits in the blocks of the
area that are not the header. -/
def Reserved (r : Run) : Event → Prop
  | .begin =>
    r.s.lh.length + (r.s.outstanding + 1) * maxOpBlocks ≤ (r.s.size : Int) - 1
  | _ => True

instance (r : Run) (e : Event) : Decidable (Reserved r e) :=
  match e with
  | .begin => inferInstanceAs (Decidable (_ ≤ _))
  | .write .. | .finish _ | .commit | .commitEnd =>
    inferInstanceAs (Decidable True)

theorem Run.reaches_of_play {C : Run → Event → Prop}
    [∀ r e, Decidable (C r e)] {e : List Event} {r r' : Run}
    (h : r.play C e = some r') : Reaches (Step C) r r' := by
  induction e generalizing r with
  | nil =>
    cases h
    exact Reaches.refl _
  | cons e es ih =>
    unfold Run.play at h
    split at h
    · next hok =>
      split at h
      · next q hq =>
        exact Relation.ReflTransGen.head ⟨e, hok.1, hok.2, hq⟩ (ih h)
      · cases h
    · cases h

section

variable {r r' : Run} {s : Log} {o b n : Nat}

theorem Run.InBudget.lt (h : r.InBudget (.write o b)) (ho : r.ops[o]? = some n) :
    n < maxOpBlocks := by
  have hget : r.ops.getD o 0 < maxOpBlocks := h
  rw [List.getD_eq_getElem?_getD, ho] at hget
  exact hget

theorem sum_left_le (l : List Nat) : (l.map left).sum ≤ l.length * maxOpBlocks := by
  induction l with
  | nil => exact Nat.zero_le _
  | cons n l ih =>
    have hle : left n ≤ maxOpBlocks := Nat.sub_le ..
    rw [List.map_cons, List.sum_cons, List.length_cons, Nat.add_one_mul]
    omega

theorem Run.fits_boot : Run.boot.Fits where
  size := rfl
  count := rfl
  closed _ := rfl
  room := by decide

theorem Run.Fits.begin (h : r.Fits) (hc : Reserved r .begin)
    (hs : beginOp r.s = some s) : Run.Fits ⟨s, r.ops ++ [0]⟩ := by
  unfold beginOp at hs
  split at hs
  · cases hs
  · next hcom =>
    split at hs
    · cases hs
    cases hs
    refine ⟨h.size, ?_, fun hc' => absurd hc' hcom, ?_⟩
    · have hcount := h.count
      rw [List.length_append, List.length_singleton]
      dsimp only
      omega
    have hle := sum_left_le (r.ops ++ [0])
    unfold Reserved at hc
    rw [h.count, h.size] at hc
    rw [List.length_append, List.length_singleton] at hle
    unfold maxOpBlocks at hle hc
    dsimp only
    omega

/-- A call pays for its block from the budget, absorbed or not. -/
theorem Run.Fits.write (h : r.Fits) (ho : r.ops[o]? = some n)
    (hn : n < maxOpBlocks) (hs : logWrite r.s b = .ok s) : Run.Fits ⟨s, r.ops.set o (n + 1)⟩ := by
  unfold logWrite at hs
  split at hs
  · cases hs
  split at hs
  · cases hs
  cases hs
  refine ⟨h.size, ?_, fun hc => ?_, ?_⟩
  · rw [List.length_set]
    exact h.count
  · rw [h.closed hc] at ho
    cases ho
  have hsum := sum_map_set left ho (b := n + 1)
  have hpaid : left (n + 1) + 1 = left n := by
    unfold left
    omega
  have hlen : (if b ∈ r.s.lh then r.s.lh else r.s.lh ++ [b]).length ≤ r.s.lh.length + 1 := by
    split
    · omega
    · rw [List.length_append, List.length_singleton]
  have hroom := h.room
  dsimp only
  omega

theorem Run.Fits.finish (h : r.Fits) (ho : o < r.ops.length)
    (hs : endOp r.s = .ok s) : Run.Fits ⟨s, r.ops.eraseIdx o⟩ := by
  have hget : r.ops[o]? = some r.ops[o] := List.getElem?_eq_getElem ho
  have hlen := List.length_eraseIdx_of_lt ho
  have hcount := h.count
  unfold endOp at hs
  extract_lets at hs
  split at hs
  · cases hs
  cases hs
  refine ⟨h.size, ?_, fun hc => ?_, ?_⟩
  · rw [hlen]
    dsimp only
    omega
  · have hzero := of_decide_eq_true hc
    apply List.eq_nil_of_length_eq_zero
    rw [hlen]
    omega
  · have hsum := sum_map_eraseIdx left hget
    have hroom := h.room
    dsimp only
    omega

theorem Run.Fits.commit (h : r.Fits) (hs : Week6.commit r.s = some s) : Run.Fits ⟨s, r.ops⟩ := by
  unfold Week6.commit at hs
  split at hs
  · cases hs
    refine { h with room := ?_ }
    have hroom := h.room
    dsimp only [List.length_nil]
    omega
  · cases hs

theorem Run.Fits.commitEnd (h : r.Fits) (hs : Week6.commitEnd r.s = some s) :
    Run.Fits ⟨s, r.ops⟩ := by
  unfold Week6.commitEnd at hs
  split at hs
  · cases hs
    exact ⟨h.size, h.count, fun hc => (nomatch hc), h.room⟩
  · cases hs

theorem Step.fits (h : r.Fits) (hs : Step Reserved r r') : r'.Fits := by
  obtain ⟨e, hbud, hc, he⟩ := hs
  cases e with
  | begin =>
    obtain ⟨s, hb, rfl⟩ := Option.map_eq_some_iff.mp (Except.ok.inj he)
    exact h.begin hc hb
  | write o b =>
    simp only [Run.step] at he
    split at he
    · cases he
    · next n ho =>
      obtain ⟨s, hw, ⟨⟩⟩ := map_ok he
      exact h.write ho (hbud.lt ho) hw
  | finish o =>
    simp only [Run.step] at he
    split at he
    · next ho =>
      obtain ⟨s, hw, ⟨⟩⟩ := map_ok he
      exact h.finish ho hw
    · cases he
  | commit =>
    obtain ⟨s, hb, rfl⟩ := Option.map_eq_some_iff.mp (Except.ok.inj he)
    exact h.commit hb
  | commitEnd =>
    obtain ⟨s, hb, rfl⟩ := Option.map_eq_some_iff.mp (Except.ok.inj he)
    exact h.commitEnd hb

/-- A call that is within the budget finds room. -/
theorem Run.Fits.logWrite_ne (h : r.Fits) (ho : r.ops[o]? = some n)
    (hn : n < maxOpBlocks) : logWrite r.s b ≠ .error .tooBig := by
  have hsum := sum_map_eraseIdx left ho
  have hleft : 1 ≤ left n := by
    unfold left
    omega
  have hroom := h.room
  have hsize := h.size
  have hnlog : mkfsNlog = 30 := rfl
  have hlog : logSize = 30 := rfl
  unfold logWrite
  rw [if_neg (by omega)]
  split
  · intro hp
    cases hp
  · intro hp
    cases hp

end

/-- In a run where begin_op is passed only when the budgets fit in the blocks
of the log area behind its header, no log_write within the budget of an open
operation panics with "too big a transaction". -/
theorem admitted_log_fits {r : Run}
    (hr : Reaches (Step Reserved) Run.boot r) (o b : Nat)
    (hb : r.InBudget (.write o b)) :
    r.step (.write o b) ≠ .error .tooBig := by
  have hfits : r.Fits :=
    hr.inv Run.fits_boot fun _ _ h hs => hs.fits h
  simp only [Run.step]
  split
  · intro hp
    cases hp
  · next n ho =>
    have hne := hfits.logWrite_ne (b := b) ho (hb.lt ho)
    cases hw : logWrite r.s b with
    | ok s =>
      intro hp
      cases hp
    | error e =>
      intro hp
      cases hp
      exact hne hw

/-- Two operations at a time, one of them with one block in the log. -/
theorem admitted_log_fits_two : ∃ r : Run,
    Reaches (Step Reserved) Run.boot r ∧ r.ops = [1, 0]
      ∧ r.step (.write 1 46) ≠ .error .tooBig := by
  have hrun : Reaches (Step Reserved) Run.boot _ :=
    Run.reaches_of_play (e := [.begin, .begin, .write 0 45]) rfl
  exact ⟨_, hrun, rfl, admitted_log_fits hrun 1 46 (by decide)⟩

/-- Three operations begin and log all their blocks but one. -/
def threeOps : List Event :=
  [.begin, .begin, .begin] ++ (List.range 29).map fun i => .write (i / 10) (46 + i)

/-- begin_op admits three operations, and the tenth log_write of the third
panics. -/
theorem admitted_log_panics : ∃ r : Run,
    Reaches (Step fun _ _ => True) Run.boot r
      ∧ r.InBudget (.write 2 75) ∧ r.ops = [10, 10, 9]
      ∧ r.step (.write 2 75) = .error .tooBig := by
  have hrun : ∃ r, Run.boot.play (fun _ _ => True) threeOps = some r
      ∧ r.InBudget (.write 2 75) ∧ r.ops = [10, 10, 9]
      ∧ r.step (.write 2 75) = .error .tooBig :=
    ⟨_, rfl, by decide, rfl, rfl⟩
  obtain ⟨r, hplay, hrest⟩ := hrun
  exact ⟨r, Run.reaches_of_play hplay, hrest⟩

end Xv6Labs.Model.Week6
