/-
Doubly linked lists.

`Seg next prev a l b`: from node `a`, `next` goes through the nodes `l` to
`b`, and `prev` goes back the same way. A ring is a segment from a node to
itself.
-/
import Mathlib.Data.List.Nodup
import Mathlib.Logic.Function.Iterate

namespace Xv6Labs.Lib

open Function

variable {α : Type _} {next prev next' prev' : α → α} {a b x : α}
  {l l₁ l₂ : List α}

/-- The way from `a` to `b` and back. -/
def Seg (next prev : α → α) : α → List α → α → Prop
  | a, [], b => next a = b ∧ prev b = a
  | a, x :: l, b => (next a = x ∧ prev x = a) ∧ Seg next prev x l b

theorem seg_append : Seg next prev a (l₁ ++ x :: l₂) b ↔
    Seg next prev a l₁ x ∧ Seg next prev x l₂ b := by
  induction l₁ generalizing a with
  | nil => exact Iff.rfl
  | cons y l₁ ih => simp only [List.cons_append, Seg, ih, and_assoc]

theorem Seg.reverse (h : Seg next prev a l b) : Seg prev next b l.reverse a := by
  induction l generalizing a with
  | nil => exact h.symm
  | cons x l ih =>
    rw [List.reverse_cons, seg_append]
    exact ⟨ih h.2, h.1.symm⟩

theorem Seg.next_mem (h : Seg next prev a l b) : next a ∈ l ++ [b] := by
  cases l with
  | nil => simp [h.1]
  | cons x l => simp [h.1.1]

theorem Seg.prev_mem (h : Seg next prev a l b) : prev b ∈ a :: l := by
  have := h.reverse.next_mem
  simpa [or_comm] using this

/-- Only the nodes on the way matter. -/
theorem Seg.congr (h : Seg next prev a l b) (hnext : ∀ y ∈ a :: l, next' y = next y)
    (hprev : ∀ y ∈ l ++ [b], prev' y = prev y) : Seg next' prev' a l b := by
  induction l generalizing a with
  | nil =>
    exact ⟨(hnext a (by simp)).trans h.1, (hprev b (by simp)).trans h.2⟩
  | cons x l ih =>
    refine ⟨⟨(hnext a (by simp)).trans h.1.1,
      (hprev x (by simp)).trans h.1.2⟩, ih h.2 (fun y hy => ?_) fun y hy => ?_⟩
    · exact hnext y (List.mem_cons_of_mem a hy)
    · exact hprev y (List.mem_cons_of_mem x hy)

theorem Seg.inverse (h : Seg next prev a l b) {y : α} (hy : y ∈ a :: l) : prev (next y) = y := by
  induction l generalizing a with
  | nil =>
    rw [List.mem_singleton.mp hy, h.1, h.2]
  | cons x l ih =>
    rcases List.mem_cons.mp hy with rfl | hy
    · rw [h.1.1, h.1.2]
    · exact ih h.2 hy

/-- `next` leads along the list. -/
theorem Seg.iterate (h : Seg next prev a l b) {k : Nat} (hk : k ≤ l.length) :
    (l ++ [b])[k]? = some (next^[k + 1] a) := by
  induction l generalizing a k with
  | nil =>
    obtain rfl : k = 0 := by simpa using hk
    exact congrArg some h.1.symm
  | cons x l ih =>
    cases k with
    | zero => exact congrArg some h.1.1.symm
    | succ k =>
      rw [Function.iterate_succ_apply, h.1.1]
      exact ih h.2 (by simpa using hk)

section

variable [DecidableEq α]

/-- A node is taken out. -/
theorem Seg.cut (h1 : Seg next prev a l₁ x) (h2 : Seg next prev x l₂ b)
    (hnd : (l₁ ++ l₂).Nodup) (ha : a ∉ l₁ ++ l₂) (hb : b ∉ l₁ ++ l₂) :
    Seg (update next (prev x) (next x)) (update prev (next x) (prev x)) a (l₁ ++ l₂) b := by
  induction l₁ generalizing a with
  | nil =>
    cases l₂ with
    | nil =>
      exact ⟨by rw [h1.2, update_self, h2.1], by rw [h2.1, update_self, h1.2]⟩
    | cons v l =>
      rw [h1.2, h2.1.1]
      refine ⟨⟨update_self .., update_self ..⟩, h2.2.congr (fun y hy => ?_) fun y hy => ?_⟩
      · exact update_of_ne (ne_of_mem_of_not_mem hy ha) ..
      refine update_of_ne (fun e => ?_) ..
      subst e
      rcases List.mem_append.mp hy with hy | hy
      · exact (List.nodup_cons.mp hnd).1 hy
      · exact hb (by rw [List.mem_singleton.mp hy]; exact List.mem_cons_self)
  | cons y l ih =>
    obtain ⟨hy, hnd⟩ := List.nodup_cons.mp hnd
    have hprev := h1.2.prev_mem
    have hnext := h2.next_mem
    refine ⟨⟨?_, ?_⟩, ih h1.2 hnd hy fun hb' => hb (List.mem_cons_of_mem y hb')⟩
    · rw [update_of_ne, h1.1.1]
      intro e
      exact ha (e ▸ List.mem_append_left l₂ hprev)
    rw [update_of_ne, h1.1.2]
    intro e
    rw [← e, List.mem_append, List.mem_singleton] at hnext
    rcases hnext with hn | hn
    · exact hy (List.mem_append_right l hn)
    · exact hb (hn ▸ List.mem_cons_self)

/-- A node is put in behind `a`. -/
theorem Seg.push (h : Seg next prev a l b) (hl : l.Nodup) (ha : a ∉ l)
    (hb : b ∉ l) (hx : x ∉ l) (hxa : x ≠ a) (hxb : x ≠ b) :
    Seg (update (update next x (next a)) a x)
      (update (update prev x a) (next a) x) a (x :: l) b := by
  have hna : next a ≠ x := fun e => by
    have := h.next_mem
    rw [e, List.mem_append, List.mem_singleton] at this
    exact this.elim hx hxb
  have hxnext : update (update next x (next a)) a x x = next a := by
    rw [update_of_ne hxa, update_self]
  refine ⟨⟨update_self .., ?_⟩, ?_⟩
  · rw [update_of_ne hna.symm, update_self]
  cases l with
  | nil =>
    refine ⟨hxnext.trans h.1, ?_⟩
    rw [h.1, update_self]
  | cons v l =>
    obtain ⟨hv, _⟩ := List.nodup_cons.mp hl
    rw [h.1.1] at hxnext ⊢
    refine ⟨⟨hxnext, update_self ..⟩, h.2.congr (fun y hy => ?_) fun y hy => ?_⟩
    · rw [update_of_ne (ne_of_mem_of_not_mem hy ha), update_of_ne (ne_of_mem_of_not_mem hy hx)]
    rw [List.mem_append, List.mem_singleton] at hy
    have hyv : y ≠ v := by
      rintro rfl
      exact hy.elim hv fun e => hb (e ▸ List.mem_cons_self)
    have hyx : y ≠ x := by
      rintro rfl
      exact hy.elim (fun hy => hx (List.mem_cons_of_mem v hy)) hxb
    rw [update_of_ne hyv, update_of_ne hyx]

end

end Xv6Labs.Lib
