/-
Singly linked lists in a store.

`next` gives the successor of a node, 0 at the end, and nothing for an
address that holds no node. `Chain next h ps` says that the list that starts
at `h` is the nodes `ps`.
-/
import Mathlib.Data.List.Nodup
import Mathlib.Data.List.Perm.Basic

namespace Xv6Labs.Lib

-- == chains

section

variable {next next' : Nat → Option Nat} {h t q : Nat} {ps : List Nat}

/-- The list at `h` is the nodes `ps`. -/
def Chain (next : Nat → Option Nat) : Nat → List Nat → Prop
  | h, [] => h = 0
  | h, p :: ps => h = p ∧ p ≠ 0 ∧ ∃ q, next p = some q ∧ Chain next q ps

theorem Chain.eq_zero_iff (hc : Chain next h ps) : h = 0 ↔ ps = [] := by
  cases ps with
  | nil => exact ⟨fun _ => rfl, fun _ => hc⟩
  | cons p ps =>
    obtain ⟨rfl, hne, _⟩ := hc
    exact ⟨fun h0 => absurd h0 hne, fun hnil => nomatch hnil⟩

/-- The nodes of a list are determined by its start. -/
theorem Chain.unique {ps' : List Nat} (hc : Chain next h ps)
    (hc' : Chain next h ps') : ps = ps' := by
  induction ps generalizing h ps' with
  | nil => exact ((hc'.eq_zero_iff).mp hc).symm
  | cons p ps ih =>
    obtain ⟨rfl, hne, q, hq, hrest⟩ := hc
    cases ps' with
    | nil => exact absurd hc' hne
    | cons p' ps' =>
      obtain ⟨rfl, _, q', hq', hrest'⟩ := hc'
      have heq : q = q' := Option.some.inj (hq.symm.trans hq')
      subst heq
      rw [ih hrest hrest']

theorem Chain.ne_zero (hc : Chain next h ps) (hq : q ∈ ps) : q ≠ 0 := by
  induction ps generalizing h with
  | nil => exact absurd hq List.not_mem_nil
  | cons p ps ih =>
    obtain ⟨rfl, hne, _, _, hrest⟩ := hc
    cases List.mem_cons.mp hq with
    | inl heq => exact heq ▸ hne
    | inr hq => exact ih hrest hq

/-- Only the nodes of the list matter. -/
theorem Chain.congr (hc : Chain next h ps) (heq : ∀ p ∈ ps, next' p = next p) :
    Chain next' h ps := by
  induction ps generalizing h with
  | nil => exact hc
  | cons p ps ih =>
    obtain ⟨rfl, hne, q, hq, hrest⟩ := hc
    refine ⟨rfl, hne, q, ?_, ih hrest fun x hx => heq x (List.mem_cons_of_mem _ hx)⟩
    rw [heq h List.mem_cons_self, hq]

theorem Chain.single (hq : q ≠ 0) (hnext : next q = some 0) :
    Chain next q [q] := ⟨rfl, hq, 0, hnext, rfl⟩

theorem Chain.snoc (hc : Chain next h ps) (hlast : ps.getLast? = some t)
    (hnd : ps.Nodup) (hq : q ≠ 0) (hkeep : ∀ p ∈ ps, p ≠ t → next' p = next p)
    (ht : next' t = some q) (hnew : next' q = some 0) : Chain next' h (ps ++ [q]) := by
  induction ps generalizing h with
  | nil => cases hlast
  | cons p ps ih =>
    obtain ⟨rfl, hne, q', hq', hrest⟩ := hc
    obtain ⟨hnot, hnd'⟩ := List.nodup_cons.mp hnd
    cases ps with
    | nil =>
      have heq : h = t := Option.some.inj hlast
      subst heq
      exact ⟨rfl, hne, q, ht, Chain.single hq hnew⟩
    | cons p' ps =>
      have hlast' : (p' :: ps).getLast? = some t := hlast
      have htm : t ∈ p' :: ps := List.mem_of_getLast? hlast'
      have hpt : h ≠ t := fun heq => hnot (heq ▸ htm)
      refine ⟨rfl, hne, q', ?_, ih hrest hlast' hnd' ?_⟩
      · rw [hkeep h List.mem_cons_self hpt, hq']
      · intro x hx
        exact hkeep x (List.mem_cons_of_mem _ hx)

end

-- == lists of lists

section

variable {α : Type _} {xss : List (List α)} {xs ys : List α} {i : Nat}
variable {x : α}

/-- One of several lists is replaced. -/
theorem flatten_set_perm (h : xss[i]? = some xs) :
    ((xss.set i ys).flatten ++ xs).Perm (xss.flatten ++ ys) := by
  induction xss generalizing i with
  | nil => cases h
  | cons zs xss ih =>
    cases i with
    | zero =>
      have heq : zs = xs := Option.some.inj h
      subst heq
      show (ys ++ xss.flatten ++ zs).Perm (zs ++ xss.flatten ++ ys)
      refine List.perm_append_comm.trans ?_
      rw [List.append_assoc]
      exact List.Perm.append_left zs List.perm_append_comm
    | succ i =>
      have hih := ih h
      show (zs ++ (xss.set i ys).flatten ++ xs).Perm (zs ++ xss.flatten ++ ys)
      rw [List.append_assoc, List.append_assoc]
      exact List.Perm.append_left zs hih

theorem flatten_set_snoc (h : xss[i]? = some xs) :
    (xss.set i (xs ++ [x])).flatten.Perm (x :: xss.flatten) := by
  have hperm : ((xss.set i (xs ++ [x])).flatten ++ xs).Perm _ := flatten_set_perm h
  refine (List.perm_append_right_iff xs).mp (hperm.trans ?_)
  refine (List.Perm.append_left _ List.perm_append_comm).trans ?_
  exact List.perm_middle

theorem flatten_set_tail (h : xss[i]? = some (x :: xs)) :
    xss.flatten.Perm (x :: (xss.set i xs).flatten) := by
  have hperm : ((xss.set i xs).flatten ++ x :: xs).Perm _ := flatten_set_perm h
  refine (List.perm_append_right_iff xs).mp (hperm.symm.trans ?_)
  exact List.perm_middle

theorem mem_flatten_of_getElem? (h : xss[i]? = some xs) (hx : x ∈ xs) : x ∈ xss.flatten :=
  List.mem_flatten.mpr ⟨xs, List.mem_of_getElem? h, hx⟩

theorem getElem?_concat_some {l : List α} {y : α} (h : (l ++ [x])[i]? = some y) :
    l[i]? = some y ∨ (i = l.length ∧ y = x) := by
  rw [List.getElem?_append] at h
  split at h
  next => exact .inl h
  next hi =>
    rw [List.getElem?_singleton] at h
    split at h
    next hz =>
      cases h
      exact .inr ⟨by omega, rfl⟩
    next => cases h

/-- Two different ones of several lists that together have no duplicate share
nothing. -/
theorem disjoint_of_flatten_nodup {j : Nat} (hnd : xss.flatten.Nodup)
    (hi : xss[i]? = some xs) (hj : xss[j]? = some ys) (hne : i ≠ j) (hx : x ∈ xs) : x ∉ ys := by
  have hpw := (List.nodup_flatten.mp hnd).2
  have hlt := (List.getElem?_eq_some_iff.mp hi).1
  have hlt' := (List.getElem?_eq_some_iff.mp hj).1
  have hxs := (List.getElem?_eq_some_iff.mp hi).2
  have hys := (List.getElem?_eq_some_iff.mp hj).2
  rw [List.pairwise_iff_getElem] at hpw
  intro hy
  cases Nat.lt_or_gt_of_ne hne with
  | inl hlt'' =>
    have hd := hpw i j hlt hlt' hlt''
    rw [hxs, hys] at hd
    exact hd hx hy
  | inr hgt =>
    have hd := hpw j i hlt' hlt hgt
    rw [hxs, hys] at hd
    exact hd hy hx

end

end Xv6Labs.Lib
