/-
Every PTE of a shared mapping is to the page of its registry entry, over
whole runs.

A fault maps the page its key is registered with, and the entry stays for
as long as the PTE does. So two processes that share a page of a file see
the same memory.
-/
import Xv6Labs.Proofs.Sharing

namespace Xv6Labs.Model

variable {k : Kernel} {i n : Nat}

open Lib Finset

/-- PTEs of shared mappings are to registered pages, and every page in use
is page-aligned. -/
structure Coherent (k : Kernel) : Prop where
  pages : ∀ i, i < nproc → ∀ n e ip off,
    (k.proc i).pagetable.leaf n = some e →
    (k.proc i).sharedKey k.glob n = some (ip, off) →
    ∃ s, k.glob.shared.lookup ip off = some s ∧ s.pa = e.pa
  aligned : ∀ x, 0 < k.uses x → x % pgSize = 0

/-- A PTE of a live process in a shared mapping is counted, so its key has
an entry. -/
theorem Tallied.entry_of_pte (h : Tallied k)
    {e : Pte} {ip : Option Nat} {off : Nat} (hi : i < nproc) (hl : (k.proc i).isLive = true)
    (he : (k.proc i).pagetable.leaf n = some e)
    (hk : (k.proc i).sharedKey k.glob n = some (ip, off)) :
    ∃ s, k.glob.shared.lookup ip off = some s := by
  have hkey : (k.proc i).keyAt k.glob n = some (ip, off) := by
    rw [Proc.keyAt, he]
    exact hk
  have hn : n < 2 ^ 26 := (h.seat i hl).table.leaf_lt (by rw [he]; rfl)
  have hpos := sharedPtes_pos hn hkey
  have hfit := (h.fits hi hl).le ip off
  obtain ⟨s, hs, _⟩ := lookup_of_refs (show 0 < k.glob.shared.refs ip off by omega)
  exact ⟨s, hs⟩

/-- Only live processes have mappings. -/
theorem Tallied.live_of_key (h : Tallied k)
    {key : Option Nat × Nat} (hk : (k.proc i).sharedKey k.glob n = some key) :
    (k.proc i).isLive = true := by
  by_contra hl
  rw [Bool.not_eq_true] at hl
  obtain ⟨d, hacc⟩ := h.files
  rw [Proc.sharedKey, (columns_of_no_maps (hacc.idle i hl).vma).1] at hk
  cases hk

theorem Stepped.coherent {k' : Kernel} (hs : Stepped k k')
    (hk' : Tallied k') (h : Coherent k) : Coherent k' := by
  refine ⟨?_, fun x hx => h.aligned x (Nat.lt_of_lt_of_le hx (hs.uses x))⟩
  intro i hi n e ip off he hk
  rcases hs.registered i hi n e ip off he hk with ⟨he0, hk0⟩ | hnew
  · obtain ⟨s, hl, hpa⟩ := h.pages i hi n e ip off he0 hk0
    -- the entry cannot have gone, since the PTE is counted
    rcases hs.settles ip off s hl with ⟨s', hl', heq⟩ | ⟨hnone, _⟩
    · exact ⟨s', hl', heq.trans hpa⟩
    · obtain ⟨s', hl'⟩ := hk'.entry_of_pte hi (hk'.live_of_key hk) he hk
      rw [hnone] at hl'
      cases hl'
  · exact hnew

theorem FreshBooks.coherent (h : FreshBooks k)
    (ha : ∀ x, 0 < k.uses x → x % pgSize = 0) : Coherent k := by
  refine ⟨?_, ha⟩
  intro i hi n e ip off _ hk
  have hl := h.tallied.live_of_key hk
  rw [Proc.sharedKey, (columns_of_no_maps (h.maps i (used_of_live hl)).2).1] at hk
  cases hk

/-- In a tidy run the books are kept and shared PTEs are coherent. -/
theorem coherent_of_runs {k0 : Kernel} (h0 : FreshBooks k0)
    (ha : ∀ x, 0 < k0.uses x → x % pgSize = 0) (hr : Runs Tidy k0 k) : Tallied k ∧ Coherent k := by
  refine hr.inv (fun k => Tallied k ∧ Coherent k) ⟨h0.tallied, h0.coherent ha⟩ ?_
  intro k k' i op hi hl hc h hs
  obtain ⟨htally, hstep⟩ := step_tallied h.1 hi hl hc hs
  exact ⟨htally, hstep.coherent htally h.2⟩

theorem boot_aligned (x : Nat) (h : 0 < bootKernel.uses x) : x % pgSize = 0 := by
  rw [boot_uses] at h
  have hall : ∀ y ∈ bootPages, y % pgSize = 0 := by decide +kernel
  exact hall x (List.count_pos_iff.mp h)

end Xv6Labs.Model
