/-
Writes laid over a store.

`overlay f ws` is the store `f` after the writes `ws`, in order. A key that
no write names keeps its value; the last write to a key wins.

`Reaches R a b` is a run of a transition system; `Reaches.inv` is its
invariant rule, and `reaches_of_play` makes a run from a list of events.
-/
import Mathlib.Algebra.Order.Ring.Int
import Mathlib.Data.List.Induction
import Mathlib.Logic.Relation

namespace Xv6Labs.Lib

-- == transition runs

section

variable {σ : Type _} {R : σ → σ → Prop} {a b : σ}

/-- Some number of steps lead from `a` to `b`. -/
def Reaches (R : σ → σ → Prop) : σ → σ → Prop := Relation.ReflTransGen R

theorem Reaches.refl (a : σ) : Reaches R a a := Relation.ReflTransGen.refl

theorem Reaches.step {c : σ} (h : Reaches R a b) (hs : R b c) :
    Reaches R a c := Relation.ReflTransGen.tail h hs

/-- The invariant rule. -/
theorem Reaches.inv {P : σ → Prop} (h : Reaches R a b) (h0 : P a)
    (hstep : ∀ s s', P s → R s s' → P s') : P b := by
  induction h with
  | refl => exact h0
  | tail _ hs ih => exact hstep _ _ ih hs

/-- Events one after the other, as long as each can happen. -/
def play {ε : Type _} (f : σ → ε → Option σ) (s : σ) : List ε → Option σ
  | [] => some s
  | e :: es => (f s e).bind fun s' => play f s' es

/-- Events that could all happen are a run. -/
theorem reaches_of_play {ε : Type _} {f : σ → ε → Option σ} {e : List ε}
    (h : play f a e = some b) : Reaches (fun s s' => ∃ e, f s e = some s') a b := by
  induction e generalizing a with
  | nil =>
    cases h
    exact Reaches.refl _
  | cons e es ih =>
    obtain ⟨s, hs, h⟩ := Option.bind_eq_some_iff.mp h
    exact Relation.ReflTransGen.head ⟨e, hs⟩ (ih h)

/-- Events that could all happen and end as `q` says are a run. -/
theorem reaches_of_any {ε : Type _} {f : σ → ε → Option σ} {e : List ε}
    {q : σ → Bool} (h : (play f a e).any q = true) :
    ∃ s, Reaches (fun s s' => ∃ e, f s e = some s') a s ∧ q s = true := by
  cases hp : play f a e with
  | none =>
    rw [hp] at h
    cases h
  | some s =>
    rw [hp] at h
    exact ⟨s, reaches_of_play hp, h⟩

end

-- == overlay

variable {α β : Type _} [DecidableEq α]

/-- The store after some writes. -/
def overlay (f : α → β) (ws : List (α × β)) : α → β :=
  ws.foldl (fun f w => Function.update f w.1 w.2) f

theorem overlay_append (f : α → β) (ws vs : List (α × β)) :
    overlay f (ws ++ vs) = overlay (overlay f ws) vs := List.foldl_append

theorem overlay_snoc (f : α → β) (ws : List (α × β)) (w : α × β) :
    overlay f (ws ++ [w]) = Function.update (overlay f ws) w.1 w.2 := by
  rw [overlay_append]
  rfl

theorem overlay_of_not_mem {f : α → β} {ws : List (α × β)} {a : α}
    (h : ∀ w ∈ ws, w.1 ≠ a) : overlay f ws a = f a := by
  induction ws using List.reverseRecOn with
  | nil => rfl
  | append_singleton ws w ih =>
    have hne : a ≠ w.1 := fun heq => h w (by simp) heq.symm
    rw [overlay_snoc, Function.update_of_ne hne]
    exact ih fun v hv => h v (List.mem_append_left _ hv)

end Xv6Labs.Lib
