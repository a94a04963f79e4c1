/-
The allocator: what kalloc and kfree do to the free list and to memory. The
list is read by counting, so a sequence of calls is a sum.
-/
import Xv6Labs.Model.Machine

namespace Xv6Labs.Model

open Lib

variable {ph ph' ph'' : Phys} {pa r : Nat}
variable {mem : Nat → UInt8} {j : Nat}

-- == allocation

/-- One if the pointer is to page `x`. -/
def points (o : Option Nat) (x : Nat) : Nat := if o = some x then 1 else 0

@[simp] theorem points_none (x : Nat) : points none x = 0 := rfl

theorem points_some (t x : Nat) : points (some t) x = if t = x then 1 else 0 := by
  simp [points]

/-- Is the byte address on the page at `r`? -/
def OnPage (r a : Nat) : Prop := r ≤ a ∧ a < r + pgSize

/-- Pages were taken from the head of the free list, and no byte outside
the free pages changed. -/
structure Phys.Takes (ph ph' : Phys) : Prop where
  kend : ph'.kend = ph.kend
  trampolinePa : ph'.trampolinePa = ph.trampolinePa
  suffix : ∃ l, ph.freelist = l ++ ph'.freelist
  mem : ∀ a, (∀ r ∈ ph.freelist, ¬ OnPage r a) → ph'.mem a = ph.mem a

theorem Phys.Takes.refl (ph : Phys) : ph.Takes ph := ⟨rfl, rfl, ⟨[], rfl⟩, fun _ _ => rfl⟩

theorem Phys.Takes.trans (h : ph.Takes ph') (h' : ph'.Takes ph'') : ph.Takes ph'' := by
  obtain ⟨l, hl⟩ := h.suffix
  obtain ⟨l', hl'⟩ := h'.suffix
  refine ⟨h'.kend.trans h.kend, h'.trampolinePa.trans h.trampolinePa,
    ⟨l ++ l', by rw [hl, hl', List.append_assoc]⟩, fun a ha => ?_⟩
  refine (h'.mem a fun r hr => ha r ?_).trans (h.mem a ha)
  rw [hl]
  exact List.mem_append_right l hr

theorem memset_of_not_onPage {a : Nat} {c : UInt8}
    (h : ¬ OnPage r a) : memset mem r c pgSize a = mem a := by
  exact if_neg h

theorem kalloc_some (h : kalloc ph = (some r, ph')) :
    ph.freelist = r :: ph'.freelist ∧ ph.Takes ph' := by
  simp only [kalloc] at h
  split at h
  · cases h
  · next r' rest hl =>
    cases h
    refine ⟨hl, rfl, rfl, ⟨[r], hl⟩, fun a ha => ?_⟩
    exact memset_of_not_onPage (ha r (hl ▸ List.mem_cons_self))

/-- RAM is where it was, and what is free was free or is a page that
kfree takes. -/
structure Phys.Keeps (ph ph' : Phys) : Prop where
  kend : ph'.kend = ph.kend
  free : ∀ r ∈ ph'.freelist, r ∈ ph.freelist ∨ ph.isPage r

theorem Phys.Keeps.refl (ph : Phys) : ph.Keeps ph := ⟨rfl, fun _ h => .inl h⟩

theorem Phys.isPage_congr (h : ph'.kend = ph.kend) (pa : Nat) : ph'.isPage pa ↔ ph.isPage pa := by
  unfold Phys.isPage
  rw [h]

theorem Phys.Keeps.trans (h : ph.Keeps ph') (h' : ph'.Keeps ph'') : ph.Keeps ph'' := by
  refine ⟨h'.kend.trans h.kend, fun r hr => ?_⟩
  rcases h'.free r hr with hr | hr
  · exact h.free r hr
  · exact .inr ((Phys.isPage_congr h.kend r).mp hr)

theorem kalloc_keeps {o : Option Nat} (h : kalloc ph = (o, ph')) : ph.Keeps ph' := by
  simp only [kalloc] at h
  split at h
  · cases h
    exact .refl ph
  · next hl =>
    cases h
    exact ⟨rfl, fun r hr => .inl (hl ▸ List.mem_cons_of_mem _ hr)⟩

theorem kalloc_zero_keeps (h : kalloc ph = (some r, ph')) : ph.Keeps (ph'.zero r) :=
  (kalloc_keeps h).trans ⟨rfl, fun _ h => .inl h⟩

theorem kalloc_none (h : kalloc ph = (none, ph')) : ph' = ph ∧ ph.freelist = [] := by
  simp only [kalloc] at h
  split at h
  · next hl =>
    cases h
    exact ⟨rfl, hl⟩
  · cases h

theorem kalloc_of_pos (h : 0 < ph.freelist.length) :
    ∃ r ph', kalloc ph = (some r, ph') ∧ ph'.freelist.length + 1 = ph.freelist.length := by
  unfold kalloc
  cases hl : ph.freelist with
  | nil =>
    rw [hl] at h
    cases h
  | cons r rest => exact ⟨r, _, rfl, rfl⟩

theorem kalloc_count (h : kalloc ph = (some r, ph')) (x : Nat) :
    ph.freelist.count x = ph'.freelist.count x + points (some r) x := by
  rw [(kalloc_some h).1, List.count_cons, points_some]
  simp [beq_iff_eq]

theorem Phys.Takes.write (h : ph.Takes ph') (hr : r ∈ ph.freelist)
    (hm : ∀ a, ¬ OnPage r a → mem a = ph'.mem a) : ph.Takes { ph' with mem } :=
  { h with mem := fun a ha => (hm a (ha r hr)).trans (h.mem a ha) }

theorem Phys.Takes.zero (h : ph.Takes ph') (hr : r ∈ ph.freelist) : ph.Takes (ph'.zero r) :=
  h.write hr fun _ ha => memset_of_not_onPage ha

theorem kalloc_zero_takes (h : kalloc ph = (some r, ph')) : ph.Takes (ph'.zero r) :=
  (kalloc_some h).2.zero ((kalloc_some h).1 ▸ List.mem_cons_self)

theorem kfree_ok (h : kfree ph pa = .ok ph') :
    ph.isPage pa ∧ ph' = { ph with
      freelist := pa :: ph.freelist, mem := memset ph.mem pa 1 pgSize } := by
  simp only [kfree] at h
  split at h
  · next hp =>
    cases h
    exact ⟨hp, rfl⟩
  · cases h

theorem kfree_count (h : kfree ph pa = .ok ph') (x : Nat) :
    ph'.freelist.count x = ph.freelist.count x + points (some pa) x := by
  obtain ⟨_, rfl⟩ := kfree_ok h
  rw [List.count_cons, points_some]
  simp [beq_iff_eq]

theorem kfree_total (h : ph.isPage pa) : ∃ ph', kfree ph pa = .ok ph' := ⟨_, if_pos h⟩

theorem kfree_keeps : Ensures (kfree ph pa) ph.Keeps := by
  intro ph' h
  obtain ⟨hp, rfl⟩ := kfree_ok h
  refine ⟨rfl, fun r hr => ?_⟩
  rcases List.mem_cons.mp hr with rfl | hr
  · exact .inr hp
  · exact .inl hr

-- == freeing

/-- Pages were put on the free list, and no byte outside them changed. -/
structure Phys.Frees (ph ph' : Phys) : Prop where
  kend : ph'.kend = ph.kend
  freed : ∃ l, ph'.freelist = l ++ ph.freelist ∧ (∀ r ∈ l, ph.isPage r)
    ∧ ∀ a, (∀ r ∈ l, ¬ OnPage r a) → ph'.mem a = ph.mem a

theorem Phys.Frees.refl (ph : Phys) : ph.Frees ph :=
  ⟨rfl, [], rfl, fun _ h => (nomatch h), fun _ _ => rfl⟩

theorem Phys.Frees.trans (h : ph.Frees ph') (h' : ph'.Frees ph'') : ph.Frees ph'' := by
  obtain ⟨l, hl, hpage, hmem⟩ := h.freed
  obtain ⟨l', hl', hpage', hmem'⟩ := h'.freed
  refine ⟨h'.kend.trans h.kend, l' ++ l, by rw [hl', hl, List.append_assoc],
    fun r hr => ?_, fun a ha => ?_⟩
  · rcases List.mem_append.mp hr with hr | hr
    · exact (Phys.isPage_congr h.kend r).mp (hpage' r hr)
    · exact hpage r hr
  · exact (hmem' a fun r hr => ha r (List.mem_append_left l hr)).trans
      (hmem a fun r hr => ha r (List.mem_append_right l' hr))

theorem kfree_frees (h : kfree ph pa = .ok ph') : ph.Frees ph' := by
  obtain ⟨hpage, rfl⟩ := kfree_ok h
  refine ⟨rfl, [pa], rfl, fun r hr => ?_, fun a ha => ?_⟩
  · rw [List.mem_singleton.mp hr]
    exact hpage
  · exact memset_of_not_onPage (ha pa (List.mem_singleton.mpr rfl))

/-- A page that is not free in the end was left alone. -/
theorem Phys.Frees.page (h : ph.Frees ph') (hpa : pa % pgSize = 0)
    (hnot : pa ∉ ph'.freelist) (hj : j < pgSize) : ph'.mem (pa + j) = ph.mem (pa + j) := by
  obtain ⟨l, hl, hpage, hmem⟩ := h.freed
  refine hmem _ fun r hr hon => hnot ?_
  obtain ⟨hlo, hhi⟩ := hon
  have hmod := (hpage r hr).1
  have heq : pa = r := by
    unfold pgSize at *
    omega
  rw [heq, hl]
  exact List.mem_append_left _ hr

/-- Memory below the end of the kernel is never freed. -/
theorem Phys.Frees.kernel (h : ph.Frees ph') (hpa : pa % pgSize = 0)
    (hlt : pa < ph.kend) (hj : j < pgSize) : ph'.mem (pa + j) = ph.mem (pa + j) := by
  obtain ⟨l, hl, hpage, hmem⟩ := h.freed
  refine hmem _ fun r hr hon => ?_
  obtain ⟨hlo, hhi⟩ := hon
  obtain ⟨hmod, hge, _⟩ := hpage r hr
  unfold pgSize at *
  omega

end Xv6Labs.Model
