/-
Computations that can panic, with their state passed by hand.

# The shape

A function that can panic is a Lean function into `Except ε`, and a loop is
one of the two combinators below, over a counter.

- `forUpto f n s` runs `f 0`, `f 1`, …, `f (n - 1)` in that order and
  passes the state along; a panic of one turn is the panic of the loop.
- `forRet f n s` is the same loop with a `return` inside: a turn answers
  `.inl s` to go on and `.inr r` to leave the loop with `r`.

# The rules

`bind_ok` peels one `do` step off a computation that succeeded.
`forUpto_inv` reads a loop that has succeeded, `forUpto_total` proves that a
loop succeeds. `Avoids` says which panics a computation does not end in,
`Ensures` what holds of what it returns, and `Meets` both.
-/
import Mathlib.Algebra.Order.Ring.Int
import Mathlib.Logic.Relation

namespace Xv6Labs.Lib

variable {ε α β σ ρ : Type _}

variable {m n : Nat} {s : σ} {e : ε} {c : Prop}
variable {f : Nat → σ → Except ε (σ ⊕ ρ)} {x : Except ε α}

-- == one bind

/-- A bind that succeeds splits into its two halves. -/
theorem bind_ok {f : α → Except ε β} {r : β}
    (h : (x >>= f) = .ok r) : ∃ a, x = .ok a ∧ f a = .ok r := by
  cases x with
  | error e => cases h
  | ok a => exact ⟨a, rfl, h⟩

theorem map_ok {f : α → β} {b : β} (h : x.map f = .ok b) : ∃ a, x = .ok a ∧ f a = b := by
  cases x with
  | error e => cases h
  | ok a => exact ⟨a, rfl, Except.ok.inj h⟩

@[simp] theorem ok_bind (a : α) (f : α → Except ε β) :
    ((Except.ok a : Except ε α) >>= f) = f a := rfl

@[simp] theorem error_bind (e : ε) (f : α → Except ε β) :
    ((Except.error e : Except ε α) >>= f) = .error e := rfl

@[simp] theorem pure_eq (a : α) : (pure a : Except ε α) = .ok a := rfl

-- == the loops

/-- Run `f 0`, …, `f (n - 1)` in order. -/
def forUpto (f : Nat → σ → Except ε σ) : Nat → σ → Except ε σ
  | 0, s => .ok s
  | n + 1, s => forUpto f n s >>= f n

@[simp] theorem forUpto_zero (f : Nat → σ → Except ε σ) (s : σ) : forUpto f 0 s = .ok s := rfl

theorem forUpto_succ (f : Nat → σ → Except ε σ) (n : Nat) (s : σ) :
    forUpto f (n + 1) s = forUpto f n s >>= f n := rfl

/-- The invariant rule: what every turn carries from `k` to `k + 1` holds
after a loop that ran to its end. -/
theorem forUpto_inv {f : Nat → σ → Except ε σ} {s' : σ} (P : Nat → σ → Prop) (h0 : P 0 s)
    (hstep : ∀ k, k < n → ∀ t t', P k t → f k t = .ok t' → P (k + 1) t')
    (h : forUpto f n s = .ok s') : P n s' := by
  induction n generalizing s' with
  | zero =>
    cases h
    exact h0
  | succ n ih =>
    obtain ⟨t, ht, hf⟩ := bind_ok h
    have hP : P n t := ih (fun k hk => hstep k (by omega)) ht
    exact hstep n (by omega) t s' hP hf

/-- The totality rule: if every turn succeeds from the invariant and
keeps it, the loop succeeds and ends in it. -/
theorem forUpto_total {f : Nat → σ → Except ε σ} (P : Nat → σ → Prop) (h0 : P 0 s)
    (hstep : ∀ k, k < n → ∀ t, P k t → ∃ t', f k t = .ok t' ∧ P (k + 1) t') :
    ∃ s', forUpto f n s = .ok s' ∧ P n s' := by
  induction n with
  | zero => exact ⟨s, rfl, h0⟩
  | succ n ih =>
    obtain ⟨t, ht, hP⟩ := ih fun k hk => hstep k (by omega)
    obtain ⟨t', hf, hP'⟩ := hstep n (by omega) t hP
    exact ⟨t', by rw [forUpto_succ, ht]; exact hf, hP'⟩

/-- Turns that change nothing leave a loop that changes nothing. -/
theorem forUpto_id {f : Nat → σ → Except ε σ}
    (hf : ∀ k, k < n → f k s = .ok s) : forUpto f n s = .ok s := by
  induction n with
  | zero => rfl
  | succ n ih =>
    rw [forUpto_succ, ih fun k hk => hf k (by omega)]
    exact hf n (by omega)

/-- Run `f 0`, …, `f (n - 1)` in order until a turn leaves with `.inr`. -/
def forRet (f : Nat → σ → Except ε (σ ⊕ ρ)) : Nat → σ → Except ε (σ ⊕ ρ)
  | 0, s => .ok (.inl s)
  | n + 1, s =>
    forRet f n s >>= fun t =>
      match t with
      | .inl s => f n s
      | .inr r => .ok (.inr r)

/-- The invariant rule of the loop with an exit: either every turn went
on and the invariant holds at the end, or some turn left. -/
theorem forRet_inv
    {o : σ ⊕ ρ} (P : Nat → σ → Prop) (Q : ρ → Prop) (h0 : P 0 s)
    (hstep : ∀ k, k < n → ∀ t t', P k t → f k t = .ok (.inl t') → P (k + 1) t')
    (hexit : ∀ k, k < n → ∀ t r, P k t → f k t = .ok (.inr r) → Q r) (h : forRet f n s = .ok o) :
    (∃ s', o = .inl s' ∧ P n s') ∨ ∃ r, o = .inr r ∧ Q r := by
  induction n generalizing o with
  | zero =>
    cases h
    exact .inl ⟨s, rfl, h0⟩
  | succ n ih =>
    obtain ⟨t, ht, hf⟩ := bind_ok h
    have hpre := ih (fun k hk => hstep k (by omega)) (fun k hk => hexit k (by omega)) ht
    rcases hpre with ⟨s', rfl, hP⟩ | ⟨r, rfl, hQ⟩
    · cases o with
      | inl s'' => exact .inl ⟨s'', rfl, hstep n (by omega) s' s'' hP hf⟩
      | inr r => exact .inr ⟨r, rfl, hexit n (by omega) s' r hP hf⟩
    · cases hf
      exact .inr ⟨r, rfl, hQ⟩

/-- The totality rule of the loop with an exit: turns that all go on. -/
theorem forRet_total (P : Nat → σ → Prop) (h0 : P 0 s)
    (hstep : ∀ k, k < n → ∀ t, P k t → ∃ t', f k t = .ok (.inl t') ∧ P (k + 1) t') :
    ∃ s', forRet f n s = .ok (.inl s') ∧ P n s' := by
  induction n with
  | zero => exact ⟨s, rfl, h0⟩
  | succ n ih =>
    obtain ⟨t, ht, hP⟩ := ih fun k hk => hstep k (by omega)
    obtain ⟨t', hf, hP'⟩ := hstep n (by omega) t hP
    exact ⟨t', by simp only [forRet, ht, ok_bind, hf], hP'⟩

/-- The totality rule for turns that go on or leave. -/
theorem forRet_run (P : Nat → σ → Prop) (Q : ρ → Prop) (h0 : P 0 s)
    (hturn : ∀ k, k < n → ∀ t, P k t →
      (∃ t', f k t = .ok (.inl t') ∧ P (k + 1) t') ∨ ∃ r, f k t = .ok (.inr r) ∧ Q r) :
    (∃ s', forRet f n s = .ok (.inl s') ∧ P n s') ∨ ∃ r, forRet f n s = .ok (.inr r) ∧ Q r := by
  induction n with
  | zero => exact .inl ⟨s, rfl, h0⟩
  | succ n ih =>
    obtain ⟨t, ht, hP⟩ | ⟨r, hr, hQ⟩ := ih fun k hk => hturn k (by omega)
    · obtain ⟨t', hf, hP'⟩ | ⟨r, hf, hQ⟩ := hturn n (by omega) t hP
      · exact .inl ⟨t', by simp only [forRet, ht, ok_bind, hf], hP'⟩
      · exact .inr ⟨r, by simp only [forRet, ht, ok_bind, hf], hQ⟩
    · exact .inr ⟨r, by simp only [forRet, hr, ok_bind], hQ⟩

/-- A loop that has left does not come back. -/
theorem forRet_exit
    {r : ρ} (hmn : m ≤ n) (h : forRet f m s = .ok (.inr r)) : forRet f n s = .ok (.inr r) := by
  induction n with
  | zero =>
    rw [Nat.le_zero.mp hmn] at h
    exact h
  | succ n ih =>
    rcases Nat.le_succ_iff.mp hmn with hle | rfl
    · simp only [forRet, ih hle, ok_bind]
    · exact h

/-- A loop that ran to its end, seen before turn `m`; what every turn only
makes larger was smaller there. -/
theorem forRet_before {t : σ}
    {R : σ → σ → Prop} (hrefl : ∀ a, R a a) (htrans : ∀ a b c, R a b → R b c → R a c)
    (hturn : ∀ k a b, f k a = .ok (.inl b) → R a b) (hmn : m ≤ n)
    (h : forRet f n s = .ok (.inl t)) : ∃ u, forRet f m s = .ok (.inl u) ∧ R u t := by
  induction n generalizing t with
  | zero =>
    rw [Nat.le_zero.mp hmn]
    exact ⟨t, h, hrefl t⟩
  | succ n ih =>
    rcases Nat.le_succ_iff.mp hmn with hle | rfl
    · obtain ⟨o, ho, hf⟩ := bind_ok h
      cases o with
      | inl a =>
        obtain ⟨u, hu, hR⟩ := ih hle ho
        exact ⟨u, hu, htrans _ _ _ hR (hturn n a t hf)⟩
      | inr r => cases hf
    · exact ⟨t, h, hrefl t⟩

-- == what is returned

/-- What the computation returns, if it does, satisfies `Q`. -/
def Ensures (x : Except ε α) (Q : α → Prop) : Prop := ∀ a, x = .ok a → Q a

section

variable {x y : Except ε α} {a : α} {Q R : α → Prop} {f : α → Except ε β}
  {S : β → Prop}

theorem Ensures.ok (h : Q a) : Ensures (.ok a : Except ε α) Q := by
  rintro _ ⟨⟩
  exact h

theorem Ensures.error : Ensures (.error e) Q := by
  rintro _ ⟨⟩

theorem Ensures.mono (h : Ensures x Q) (hQ : ∀ a, Q a → R a) :
    Ensures x R := fun a ha => hQ a (h a ha)

theorem Ensures.bind (hx : Ensures x Q) (hf : ∀ a, Q a → Ensures (f a) S) :
    Ensures (x >>= f) S := by
  intro r hr
  obtain ⟨a, ha, hr⟩ := bind_ok hr
  exact hf a (hx a ha) r hr

/-- Nothing need be known of the first step. -/
theorem Ensures.any (hf : ∀ a, Ensures (f a) S) : Ensures (x >>= f) S :=
  Ensures.bind (fun _ _ => trivial) fun a _ => hf a

theorem Ensures.ite [Decidable c] (hx : c → Ensures x Q)
    (hy : ¬ c → Ensures y Q) : Ensures (if c then x else y) Q := by
  split
  · exact hx ‹c›
  · exact hy ‹¬ c›

theorem Ensures.branch [Decidable c] (hx : Ensures x Q)
    (hy : Ensures y Q) : Ensures (if c then x else y) Q :=
  .ite (fun _ => hx) fun _ => hy

/-- The invariant rule for a loop. -/
theorem Ensures.forUpto {f : Nat → σ → Except ε σ} (P : Nat → σ → Prop) (h0 : P 0 s)
    (hstep : ∀ k, k < n → ∀ t, P k t → Ensures (f k t) (P (k + 1))) :
    Ensures (forUpto f n s) (P n) := fun _ h =>
  forUpto_inv P h0 (fun k hk t t' hP hf => hstep k hk t hP t' hf) h

/-- The invariant rule for a loop with an exit. -/
theorem Ensures.forRet {f : Nat → σ → Except ε (σ ⊕ ρ)}
    (P : Nat → σ → Prop) (Q : ρ → Prop) (h0 : P 0 s)
    (hstep : ∀ k, k < n → ∀ t, P k t → Ensures (f k t) (Sum.elim (P (k + 1)) Q)) :
    Ensures (forRet f n s) (Sum.elim (P n) Q) := by
  intro o h
  rcases forRet_inv P Q h0 (fun k hk t t' hP hf => hstep k hk t hP _ hf)
    (fun k hk t r hP hf => hstep k hk t hP _ hf) h with
    ⟨s', rfl, hP⟩ | ⟨r, rfl, hQ⟩
  · exact hP
  · exact hQ

end

-- == the panics avoided

/-- The computation does not end in a panic of the list. -/
def Avoids (bad : List ε) (x : Except ε α) : Prop := ∀ e, x = .error e → e ∉ bad

section

variable {bad : List ε}
variable {f : Nat → σ → Except ε σ}

theorem Avoids.ok (a : α) : Avoids bad (.ok a : Except ε α) := fun _ h => nomatch h

theorem Avoids.error (h : e ∉ bad) : Avoids bad (.error e : Except ε α) := by
  rintro _ ⟨⟩
  exact h

theorem Avoids.bind {x : Except ε α} {f : α → Except ε β}
    (hx : Avoids bad x) (hf : ∀ a, x = .ok a → Avoids bad (f a)) : Avoids bad (x >>= f) := by
  cases x with
  | error e => exact .error (hx e rfl)
  | ok a => exact hf a rfl

/-- A loop avoids what its turns avoid from an invariant they keep. -/
theorem Avoids.forUpto (P : Nat → σ → Prop) (h0 : P 0 s)
    (hturn : ∀ k, k < n → ∀ t, P k t → Avoids bad (f k t))
    (hstep : ∀ k, k < n → ∀ t t', P k t → f k t = .ok t' → P (k + 1) t') :
    Avoids bad (forUpto f n s) := by
  induction n with
  | zero => exact .ok s
  | succ n ih =>
    refine .bind (ih (fun k hk => hturn k (by omega)) fun k hk => hstep k (by omega)) fun t ht => ?_
    have hP : P n t := forUpto_inv P h0 (fun k hk => hstep k (by omega)) ht
    exact hturn n (by omega) t hP

theorem Avoids.each (hturn : ∀ k t, Avoids bad (f k t)) : Avoids bad (Lib.forUpto f n s) :=
  .forUpto (fun _ _ => True) trivial (fun k _ t _ => hturn k t) fun _ _ _ _ _ _ => trivial

theorem Avoids.forRet {f : Nat → σ → Except ε (σ ⊕ ρ)} (P : Nat → σ → Prop) (h0 : P 0 s)
    (hturn : ∀ k, k < n → ∀ t, P k t → Avoids bad (f k t))
    (hstep : ∀ k, k < n → ∀ t t', P k t → f k t = .ok (.inl t') → P (k + 1) t') :
    Avoids bad (forRet f n s) := by
  induction n with
  | zero => exact .ok _
  | succ n ih =>
    refine .bind (ih (fun k hk => hturn k (by omega)) fun k hk => hstep k (by omega)) fun o ho => ?_
    rcases forRet_inv P (fun _ => True) h0
      (fun k hk => hstep k (by omega)) (fun _ _ _ _ _ _ => trivial) ho with
      ⟨t, rfl, hP⟩ | ⟨r, rfl, _⟩
    · exact hturn n (by omega) t hP
    · exact .ok _

end

-- == both

/-- The computation does not end in a panic of the list, and what it
returns satisfies `Q`. -/
def Meets (bad : List ε) (x : Except ε α) (Q : α → Prop) : Prop := Avoids bad x ∧ Ensures x Q

section

variable {bad : List ε} {x y : Except ε α} {a : α} {Q R : α → Prop}
  {f : α → Except ε β} {S : β → Prop}

theorem Meets.ok (h : Q a) : Meets bad (.ok a : Except ε α) Q := ⟨.ok a, .ok h⟩

theorem Meets.error (h : e ∉ bad) : Meets bad (.error e) Q := ⟨.error h, .error⟩

theorem Meets.mono (h : Meets bad x Q) (hQ : ∀ a, Q a → R a) : Meets bad x R := ⟨h.1, h.2.mono hQ⟩

/-- What is known of a step is that it returned. -/
theorem Avoids.meets (h : Avoids bad x) : Meets bad x (x = .ok ·) := ⟨h, fun _ ha => ha⟩

theorem Meets.bind (hx : Meets bad x Q) (hf : ∀ a, Q a → Meets bad (f a) S) :
    Meets bad (x >>= f) S :=
  ⟨hx.1.bind fun a ha => (hf a (hx.2 a ha)).1, hx.2.bind fun a ha => (hf a ha).2⟩

theorem Meets.ite [Decidable c] (hx : c → Meets bad x Q)
    (hy : ¬ c → Meets bad y Q) : Meets bad (if c then x else y) Q := by
  split
  · exact hx ‹c›
  · exact hy ‹¬ c›

theorem Meets.forUpto {f : Nat → σ → Except ε σ} (P : Nat → σ → Prop) (h0 : P 0 s)
    (hstep : ∀ k, k < n → ∀ t, P k t → Meets bad (f k t) (P (k + 1))) :
    Meets bad (forUpto f n s) (P n) :=
  ⟨.forUpto P h0 (fun k hk t hP => (hstep k hk t hP).1)
      fun k hk t t' hP hf => (hstep k hk t hP).2 t' hf,
    .forUpto P h0 fun k hk t hP => (hstep k hk t hP).2⟩

theorem Meets.forRet {f : Nat → σ → Except ε (σ ⊕ ρ)}
    (P : Nat → σ → Prop) (Q : ρ → Prop) (h0 : P 0 s)
    (hstep : ∀ k, k < n → ∀ t, P k t → Meets bad (f k t) (Sum.elim (P (k + 1)) Q)) :
    Meets bad (forRet f n s) (Sum.elim (P n) Q) :=
  ⟨.forRet P h0 (fun k hk t hP => (hstep k hk t hP).1)
      fun k hk t _ hP hf => (hstep k hk t hP).2 _ hf,
    .forRet P Q h0 fun k hk t hP => (hstep k hk t hP).2⟩

end

-- == two computations

/-- What `x` returns, `y` returns as well, up to `R`. -/
def Sim {ε' : Type _} (R : α → β → Prop) (x : Except ε α) (y : Except ε' β) : Prop :=
  ∀ a, x = .ok a → ∃ b, y = .ok b ∧ R a b

section

variable {ε' α' β' : Type _} {R : α → β → Prop} {S : α' → β' → Prop}
  {x x' : Except ε α} {y y' : Except ε' β} {a : α} {b : β}
variable {f : α → Except ε α'}

theorem Sim.ok (h : R a b) : Sim R (.ok a : Except ε α) (.ok b : Except ε' β) := by
  intro a' ha
  cases ha
  exact ⟨b, rfl, h⟩

theorem Sim.error : Sim R (.error e) y := by
  intro a ha
  cases ha

/-- Both sides do one thing, and then another. -/
theorem Sim.bind {k : β → Except ε' β'}
    (hx : Sim R x y) (hf : ∀ a b, R a b → Sim S (f a) (k b)) : Sim S (x >>= f) (y >>= k) := by
  intro r hr
  obtain ⟨a, ha, hr⟩ := bind_ok hr
  obtain ⟨b, rfl, hab⟩ := hx a ha
  exact hf a b hab r hr

/-- A step of the first side alone, which can only return `a`. -/
theorem Sim.step {z : Except ε' β'}
    (hx : ∀ a', x = .ok a' → a' = a) (hf : Sim S (f a) z) : Sim S (x >>= f) z := by
  intro r hr
  obtain ⟨a', ha, hr⟩ := bind_ok hr
  rw [hx a' ha] at hr
  exact hf r hr

/-- The first side rewrites its result. -/
theorem Sim.map {f : α → α'} {S : α' → β → Prop} (hx : Sim R x y) (hf : ∀ a b, R a b → S (f a) b) :
    Sim S (x >>= fun a => .ok (f a)) y := by
  intro r hr
  obtain ⟨a, ha, hr⟩ := bind_ok hr
  obtain ⟨b, hb, hab⟩ := hx a ha
  cases hr
  exact ⟨b, hb, hf a b hab⟩

theorem Sim.ite [Decidable c] (ht : Sim R x y) (hf : Sim R x' y') :
    Sim R (if c then x else x') (if c then y else y') := by
  split
  · exact ht
  · exact hf

end

end Xv6Labs.Lib
