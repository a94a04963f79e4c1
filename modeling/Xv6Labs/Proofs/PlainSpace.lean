/-
Processes without mappings (`Proc.Plain`): page faults, copyout and
sys_sbrk exchange pages with the free list only, and leave every user page
below the size (`Exchanges`).
-/
import Xv6Labs.Proofs.FilesKept
import Xv6Labs.Proofs.Handled
import Xv6Labs.Proofs.Tally
import Xv6Labs.Proofs.Trades

namespace Xv6Labs.Model

open Lib

variable {dstva len r sz va : Nat} {n : Int} {src : Nat → UInt8} {ok : Bool}

-- == the exchange

/-- A process without mappings, its user pages below its size and its
size below the trapframe. -/
structure Proc.Plain (p : Proc) : Prop where
  maps : ∀ s, s < nvma → (p.vma s).valid = false
  table : p.pagetable.Wf
  below : p.pagetable.Below p.sz
  size : p.sz ≤ Model.trapframe

/-- A call of one process took pages from the free list for its address
space, or returned them, and touched no other page. -/
structure Exchanges (p : Proc) (g : Glob) (p' : Proc) (g' : Glob) : Prop where
  state : p'.state = p.state
  frame : p'.trapframe = p.trapframe
  plain : p'.Plain
  shared : g'.shared = g.shared
  ftable : g'.ftable = g.ftable
  ledger : ∀ x, g'.phys.freelist.count x + p'.pagetable.tables x + p'.pagetable.pages x
    = g.phys.freelist.count x + p.pagetable.tables x + p.pagetable.pages x

section

variable {p p' p'' : Proc} {g g' g'' : Glob}

theorem Exchanges.refl (hp : p.Plain) : Exchanges p g p g := ⟨rfl, rfl, hp, rfl, rfl, fun _ => rfl⟩

theorem Exchanges.trans (h : Exchanges p g p' g')
    (h' : Exchanges p' g' p'' g'') : Exchanges p g p'' g'' :=
  ⟨h'.state.trans h.state, h'.frame.trans h.frame, h'.plain,
    h'.shared.trans h.shared, h'.ftable.trans h.ftable,
    fun x => (h'.ledger x).trans (h.ledger x)⟩

theorem Exchanges.noPipes (h : Exchanges p g p' g') (hg : NoPipes g) : NoPipes g' := fun f => by
  rw [h.ftable]
  exact hg f

/-- Bytes of memory are not looked at. -/
theorem Exchanges.setMem (h : Exchanges p g p' g') (mem : Nat → UInt8) :
    Exchanges p g p' (g'.setMem mem) :=
  { h with }

/-- The exchange of a call that changes the page table and the size. -/
theorem Trades.exchanges {pt : PageTable} {ph : Phys}
    (hp : p.Plain) (h : Trades p.pagetable g.phys pt ph) (hb : pt.Below sz) (hsz : sz ≤ trapframe) :
    Exchanges p g { p with pagetable := pt, sz } { g with phys := ph } :=
  ⟨rfl, rfl, ⟨hp.maps, h.wf, hb, hsz⟩, rfl, rfl, h.ledger⟩

theorem Proc.Plain.vmaAt_none (hp : p.Plain) (va : Nat) : vmaAt p va = none := by
  refine Model.vmaAt_none.mpr fun s hs hv => ?_
  rw [hp.maps s hs] at hv
  cases hv

-- == faults

theorem heap_page (h : va < sz) (hsz : sz ≤ mmapBase) :
    pgRoundDown va / pgSize < pgRoundUp sz / pgSize
      ∧ pgRoundDown va / pgSize < tfPage ∧ pgRoundDown va < 2 ^ 64 := by
  have htf : 262144 < tfPage := by decide
  unfold mmapBase at hsz
  rw [pgRoundUp_eq (by omega)]
  unfold pgRoundDown pgSize
  omega

theorem vmfault_exchanges {read : Bool} (hp : p.Plain) (hsz : p.sz ≤ mmapBase)
    (h : vmfault p g va read = .ok (r, p', g')) : Exchanges p g p' g' := by
  cases vmfault_fault h with
  | mmap _ h =>
    cases h with
    | refused => exact .refl hp
    | resident => exact .refl hp
    | fault hat => cases (hp.vmaAt_none va).symm.trans hat
  | refused => exact .refl hp
  | heap _ _ hlt _ halloc hmap hg' =>
    obtain ⟨hin, htop, hlt64⟩ := heap_page hlt hsz
    have htops := topPages
    rcases mapFresh_trades hp.table hlt64 ⟨by omega, by omega⟩ halloc hmap
      with ⟨rfl, ht, hleaf⟩ | ⟨rfl, hleaf, hfail⟩
    · cases hg'
      refine ht.exchanges hp (fun n hn => ?_) hp.size
      by_cases hnv : n = pgRoundDown va / pgSize
      · rw [hnv]
        exact .inl hin
      · rw [hleaf, if_neg hnv] at hn
        exact hp.below n hn
    · obtain ⟨ph2, hfree, rfl⟩ := hg'
      exact (hfail _ hfree).exchanges hp
        (fun n hn => hp.below n (by rw [← hleaf]; exact hn)) hp.size

/-- One page of a copyout: a fault, and the bytes. -/
theorem copyoutPage_exchanges {n : Nat}
    {s : Nat × Proc × Glob} {o : (Nat × Proc × Glob) ⊕ (Proc × Glob)}
    (hp : s.2.1.Plain) (hsz : s.2.1.sz ≤ mmapBase) (h : copyoutPage dstva src len n s = .ok o) :
    match o with
    | .inl t => Exchanges s.2.1 s.2.2 t.2.1 t.2.2 ∧ t.2.1.sz = s.2.1.sz
    | .inr t => Exchanges s.2.1 s.2.2 t.1 t.2 := by
  obtain ⟨d, p, g⟩ := s
  simp only [copyoutPage] at h
  split at h
  · cases h
    exact .refl hp
  obtain ⟨pa, _, h⟩ := bind_ok h
  obtain ⟨⟨pa', p1, g1⟩, h1, h⟩ := bind_ok h
  have hf : Exchanges p g p1 g1 ∧ p1.sz = p.sz := by
    split at h1
    · obtain ⟨pt, hpt⟩ := (vmfault_frame _ h1).1
      dsimp only at hpt
      exact ⟨vmfault_exchanges hp hsz h1, by rw [hpt]⟩
    · cases h1
      exact ⟨.refl hp, rfl⟩
  split at h
  · cases h
    exact hf.1
  obtain ⟨o, _, h⟩ := bind_ok h
  split at h
  · cases h
  split at h
  · cases h
    exact ⟨hf.1.setMem _, hf.2⟩
  · cases h
    exact hf.1

theorem copyout_exchanges (hp : p.Plain) (hsz : p.sz ≤ mmapBase)
    (h : copyout p g dstva src len = .ok (ok, p', g')) : Exchanges p g p' g' := by
  obtain ⟨o, ho, h⟩ := bind_ok h
  have hloop := Ensures.forRet (fun _ t => Exchanges p g t.2.1 t.2.2 ∧ t.2.1.sz = p.sz)
    (fun t => Exchanges p g t.1 t.2) ⟨.refl hp, rfl⟩
    (fun k _ t hP o hk => by
      have hf := copyoutPage_exchanges hP.1.plain (hP.2 ▸ hsz) hk
      cases o with
      | inl => exact ⟨hP.1.trans hf.1, hf.2.trans hP.2⟩
      | inr => exact hP.1.trans hf) o ho
  cases o with
  | inl =>
    cases h
    exact hloop.1
  | inr =>
    cases h
    exact hloop

-- == sys_sbrk

theorem grown_le (hsz : sz ≤ mmapBase) (h0 : 0 ≤ n)
    (hn : n < 2 ^ 31) : u64 (sz + n) ≤ trapframe ∧ sz ≤ u64 (sz + n) := by
  have htf : 0x40000000 + 2 ^ 31 < trapframe := by decide
  unfold mmapBase at hsz
  rw [u64_of_lt (n := sz + n.toNat) (by omega) (by omega)]
  omega

theorem growproc_exchanges (hp : p.Plain) (hsz : p.sz ≤ mmapBase) (hn : n < 2 ^ 31)
    (h : growproc p g n = .ok (ok, p', g')) : Exchanges p g p' g' := by
  simp only [growproc] at h
  split at h
  · next hpos =>
    obtain ⟨⟨sz, pt, ph⟩, ha, h⟩ := bind_ok h
    obtain ⟨htop, _⟩ := grown_le hsz hpos.le hn
    obtain ⟨ht, hres⟩ := uvmalloc_trades hp.table hp.below hp.size (.inl htop) ha
    split at h
    · next hz =>
      cases h
      refine ht.exchanges hp ?_ hp.size
      rcases hres with ⟨_, hb⟩ | ⟨hle, _, hb, _⟩
      · exact hb
      · have h0 : p.sz = sz := by omega
        rw [h0]
        exact hb
    · next hz =>
      cases h
      rcases hres with ⟨h0, _⟩ | ⟨_, hle, hb, _⟩
      · exact absurd h0 hz
      · exact ht.exchanges hp hb hle
  · split at h
    · obtain ⟨⟨sz, pt, ph⟩, hd, h⟩ := bind_ok h
      cases h
      obtain ⟨hmin, ht, hb⟩ := uvmdealloc_trades hp.table hp.below hp.size hd
      refine ht.exchanges hp hb ?_
      have := hp.size
      omega
    · cases h
      exact .refl hp

/-- sys_sbrk: eager growth and shrinking exchange pages, lazy growth moves
the size alone. -/
theorem sysSbrk_exchanges {eager : Bool} (hp : p.Plain) (hsz : p.sz ≤ mmapBase) (hn : n < 2 ^ 31)
    (h : sysSbrk p g n eager = .ok (r, p', g')) : Exchanges p g p' g' := by
  simp only [sysSbrk] at h
  split at h
  · obtain ⟨⟨ok, q, g1⟩, hgrow, h⟩ := bind_ok h
    cases h
    exact growproc_exchanges hp hsz hn hgrow
  · next hlazy =>
    split at h
    · cases h
      exact .refl hp
    cases h
    have h0 : 0 ≤ n := by
      simp only [Bool.or_eq_true, decide_eq_true_eq] at hlazy
      omega
    obtain ⟨htop, hle⟩ := grown_le hsz h0 hn
    exact (Trades.refl hp.table g.phys).exchanges hp (hp.below.mono (pgRoundUp_mono hle htop)) htop

end

end Xv6Labs.Model
