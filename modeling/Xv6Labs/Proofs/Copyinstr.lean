/-
copyinstr against copyin: in step, turn by turn, as long as every page of
the string is found. On a page that walkaddr does not find copyin takes a
fault and copyinstr returns -1 (`copyinstr_agrees_iff`).
-/
import Xv6Labs.Proofs.Copyin

namespace Xv6Labs.Model

open Lib

-- == one turn

/-- What walkaddr returns for the page of `va`: 0 for a page that is not
there or not the user's. -/
def Proc.pageOf (p : Proc) (va : Nat) : Nat :=
  match walkaddr p.pagetable (pgRoundDown va) with
  | .ok pa => pa
  | .error _ => 0

theorem walkaddr_pageOf (p : Proc) (va : Nat) :
    walkaddr p.pagetable (pgRoundDown va) = .ok (p.pageOf va) := by
  have hok : ∃ pa, walkaddr p.pagetable (pgRoundDown va) = .ok pa := by
    by_cases hlt : pgRoundDown va < maxVa
    · exact ⟨_, walkaddr_entry hlt⟩
    · exact ⟨0, if_pos (Nat.not_lt.mp hlt)⟩
  obtain ⟨pa, hpa⟩ := hok
  unfold Proc.pageOf
  rw [hpa]

/-- `n` bytes of the page that `src` is on, from `src` on. -/
def Proc.chunk (p : Proc) (g : Glob) (src n : Nat) : List UInt8 :=
  (List.range n).map fun i =>
    g.phys.mem (p.pageOf src + (src - pgRoundDown src) + i)

theorem Proc.chunk_length (p : Proc) (g : Glob) (src n : Nat) : (p.chunk g src n).length = n := by
  unfold Proc.chunk
  rw [List.length_map, List.length_range]

theorem Proc.chunk_add (p : Proc) (g : Glob) (src m n : Nat) :
    ∃ rest, p.chunk g src (m + n) = p.chunk g src m ++ rest := by
  unfold Proc.chunk
  rw [List.range_add, List.map_append]
  exact ⟨_, rfl⟩

/-- The rest of the page of `src`. -/
def room (src : Nat) : Nat := pgSize - (src - pgRoundDown src)

section

variable {p : Proc} {g : Glob} {srcva k src : Nat} {bs : List UInt8}

theorem copyinPage_found {len : Nat} (hsrc : u64 (srcva + bs.length) = src) (h : p.pageOf src ≠ 0) :
    copyinPage srcva len k (bs, p, g) = .ok (.inl
      (bs ++ p.chunk g src (min (room src) (len - bs.length)), p, g)) := by
  unfold copyinPage
  simp only [hsrc, walkaddr_pageOf, ok_bind, if_neg h, pure_eq]
  rfl

theorem copyinstrPage_eq {max : Nat} (hsrc : u64 (srcva + bs.length) = src) :
    copyinstrPage p g srcva max k bs = .ok (if p.pageOf src = 0 then .inr none
      else if 0 ∈ p.chunk g src (min (room src) (max - bs.length)) then
        .inr (some (bs ++ (p.chunk g src
          (min (room src) (max - bs.length))).takeWhile (fun c => c != 0) ++ [0]))
      else .inl (bs ++ p.chunk g src (min (room src) (max - bs.length)))) := by
  unfold copyinstrPage
  simp only [hsrc, walkaddr_pageOf, ok_bind, pure_eq]
  split
  · rfl
  · show (if 0 ∈ p.chunk g src (min (room src) (max - bs.length)) then _ else _) = _
    split <;> rfl

theorem copyinPage_prefix {len : Nat} {t t' : List UInt8 × Proc × Glob}
    (h : copyinPage srcva len k t = .ok (.inl t')) : t.1 <+: t'.1 := by
  unfold copyinPage at h
  obtain ⟨pa, _, h⟩ := bind_ok h
  obtain ⟨⟨pa', q, g'⟩, _, h⟩ := bind_ok h
  dsimp only at h
  split at h
  · cases h
  · cases h
    exact List.prefix_append _ _

end

-- == turns in step

theorem room_u64 (va d : Nat) : room (u64 (va + d)) = pgSize - (va + d) % pgSize := by
  unfold room u64 pgRoundDown pgSize
  omega

/-- The page number of an address of a buffer, in 64 bits. -/
theorem pageOf_u64 (p : Proc) (va k : Nat) :
    p.pageOf (u64 (va + k)) = p.pageOf ((va + k) / pgSize % 2 ^ 52 * pgSize) := by
  have hround : pgRoundDown (u64 (va + k)) = pgRoundDown ((va + k) / pgSize % 2 ^ 52 * pgSize) := by
    unfold pgRoundDown u64 pgSize
    omega
  unfold Proc.pageOf
  rw [hround]

theorem bytesBefore_lt {va len k : Nat} (hk : k < copyPages va len) :
    bytesBefore va len k < len := by
  obtain ⟨n, hn, _⟩ := bytesBefore_succ hk
  omega

section

variable {p p' : Proc} {g g' : Glob} {srcva max : Nat} {s : List UInt8}
  (hs : 0 ∉ s) (hmax : s.length < max)
  (h : forRet (copyinPage srcva (s.length + 1))
    (copyPages srcva (s.length + 1)) ([], p, g) = .ok (.inl (s ++ [0], p', g')))

include hs hmax h

/-- As long as walkaddr finds the pages, copyin has changed nothing and
copyinstr has the same bytes, none of them NUL. -/
theorem copyinstr_in_step {j : Nat} (hj : j < copyPages srcva (s.length + 1))
    (hfound : ∀ i, i < j → p.pageOf (u64 (srcva + bytesBefore srcva (s.length + 1) i)) ≠ 0) :
    ∃ bs, bs.length = bytesBefore srcva (s.length + 1) j ∧ bs <+: s
      ∧ forRet (copyinPage srcva (s.length + 1)) j ([], p, g) = .ok (.inl (bs, p, g))
      ∧ forRet (copyinstrPage p g srcva max) j [] = .ok (.inl bs) := by
  induction j with
  | zero => exact ⟨[], by simp [bytesBefore], List.nil_prefix, rfl, rfl⟩
  | succ j ih =>
    obtain ⟨bs, hlen, hpre, hin, hstr⟩ := ih (by omega) fun i hi => hfound i (by omega)
    obtain ⟨n, hn, hsucc, _⟩ := bytesBefore_succ (show j < copyPages srcva (s.length + 1) by omega)
    have hlt := bytesBefore_lt hj
    have hpage := hfound j (by omega)
    rw [← hlen] at hpage hn hsucc
    have hroom := room_u64 srcva bs.length
    generalize hsrc : u64 ((srcva : Int) + bs.length) = src at hpage hroom
    rw [← hroom] at hn
    -- copyin goes on with the rest of the page
    have hin' : forRet (copyinPage srcva (s.length + 1)) (j + 1) ([], p, g)
        = .ok (.inl (bs ++ p.chunk g src (n + 1), p, g)) := by
      simp only [forRet, hin, ok_bind]
      rw [copyinPage_found hsrc hpage, ← hn]
    obtain ⟨u, hu, hprefix⟩ := forRet_before
      (R := fun a b => a.1 <+: b.1) (fun _ => List.prefix_rfl) (fun _ _ _ => List.IsPrefix.trans)
      (fun _ _ _ hf => copyinPage_prefix hf) hj.le h
    rw [hin'] at hu
    cases hu
    have hlen' : (bs ++ p.chunk g src (n + 1)).length
        = bytesBefore srcva (s.length + 1) (j + 1) := by
      rw [List.length_append, Proc.chunk_length, hsucc]
    have hpre' : bs ++ p.chunk g src (n + 1) <+: s :=
      List.prefix_of_prefix_length_le hprefix (List.prefix_append s [0]) (by omega)
    refine ⟨_, hlen', hpre', hin', ?_⟩
    -- and copyinstr reads the same bytes, since it may read at least as far
    have hsame : min (room src) (max - bs.length) = n + 1 := by omega
    have hno : 0 ∉ p.chunk g src (n + 1) := by
      intro hmem
      exact hs (hpre'.subset (List.mem_append_right bs hmem))
    simp only [forRet, hstr, ok_bind]
    rw [copyinstrPage_eq hsrc, if_neg hpage, hsame, if_neg hno]

/-- The turn in which copyin reads the NUL: copyinstr finds it. -/
theorem copyinstr_last {j : Nat} (hj : j + 1 = copyPages srcva (s.length + 1))
    (hfound : ∀ i, i < j + 1 → p.pageOf (u64 (srcva + bytesBefore srcva (s.length + 1) i)) ≠ 0) :
    forRet (copyinstrPage p g srcva max) (j + 1) [] = .ok (.inr (some (s ++ [0]))) := by
  obtain ⟨bs, hlen, hpre, hin, hstr⟩ := copyinstr_in_step hs hmax h
    (show j < _ by omega) fun i hi => hfound i (by omega)
  obtain ⟨n, hn, hsucc, _⟩ := bytesBefore_succ (show j < copyPages srcva (s.length + 1) by omega)
  have hpage := hfound j (by omega)
  rw [← hlen] at hpage hn hsucc
  have hroom := room_u64 srcva bs.length
  generalize hsrc : u64 ((srcva : Int) + bs.length) = src at hpage hroom
  rw [← hroom] at hn
  -- the bytes of copyin's last turn are the rest of the string
  rw [← hj] at h
  simp only [forRet, hin, ok_bind] at h
  rw [copyinPage_found hsrc hpage, ← hn] at h
  obtain ⟨rest, rfl⟩ := hpre
  have hchunk : p.chunk g src (n + 1) = rest ++ [0] := by
    have heq := (Prod.mk.inj (Sum.inl.inj (Except.ok.inj h))).1
    rw [List.append_assoc] at heq
    exact List.append_cancel_left heq
  have hrest : 0 ∉ rest := fun hmem => hs (List.mem_append_right bs hmem)
  obtain ⟨more, hmore⟩ := p.chunk_add g src (n + 1) (min (room src) (max - bs.length) - (n + 1))
  rw [Nat.add_sub_cancel' (by omega), hchunk] at hmore
  have htake : (rest ++ [0] ++ more).takeWhile (fun c => c != 0) = rest := by
    rw [List.append_assoc, List.takeWhile_append_of_pos]
    · simp
    · intro a ha
      rw [bne_iff_ne]
      rintro rfl
      exact hrest ha
  simp only [forRet, hstr, ok_bind]
  rw [copyinstrPage_eq hsrc, if_neg hpage, hmore, if_pos (by simp), htake]

omit hs h in
theorem copyinstr_turns : copyPages srcva (s.length + 1) ≤ copyPages srcva max := by
  unfold copyPages
  rw [if_neg (by omega), if_neg (by omega)]
  unfold pgSize
  omega

/-- A page that is not found, after pages that are, makes it return -1. -/
theorem copyinstr_missing {j : Nat} (hj : j < copyPages srcva (s.length + 1))
    (hfound : ∀ i, i < j → p.pageOf (u64 (srcva + bytesBefore srcva (s.length + 1) i)) ≠ 0)
    (hzero : p.pageOf (u64 (srcva + bytesBefore srcva (s.length + 1) j)) = 0) :
    copyinstr p g srcva max = .ok none := by
  obtain ⟨bs, hlen, _, _, hbefore⟩ := copyinstr_in_step hs hmax h hj hfound
  have hexit : forRet (copyinstrPage p g srcva max) (j + 1) [] = .ok (.inr none) := by
    simp only [forRet, hbefore, ok_bind]
    rw [copyinstrPage_eq rfl, hlen, if_pos hzero]
  have hle : j + 1 ≤ copyPages srcva max := Nat.le_trans hj (copyinstr_turns hmax)
  unfold copyinstr
  rw [forRet_exit hle hexit]
  rfl

theorem copyinstr_found
    (hfound : ∀ i, i < copyPages srcva (s.length + 1) →
      p.pageOf (u64 (srcva + bytesBefore srcva (s.length + 1) i)) ≠ 0) :
    copyinstr p g srcva max = .ok (some (s ++ [0])) := by
  have hpos : 0 < copyPages srcva (s.length + 1) := by
    unfold copyPages
    rw [if_neg (by omega)]
    unfold pgSize
    omega
  obtain ⟨j, hj⟩ := Nat.exists_eq_add_one.mpr hpos
  have hexit := copyinstr_last hs hmax h hj.symm
    fun i hi => hfound i (Nat.lt_of_lt_of_eq hi hj.symm)
  have hle : j + 1 ≤ copyPages srcva max := by
    rw [← hj]
    exact copyinstr_turns hmax
  unfold copyinstr
  rw [forRet_exit hle hexit]
  rfl

end

/-- The pages of a buffer are those of the turns that copy it. -/
theorem pages_of_turns {p : Proc} {va len : Nat} :
    (∀ k, k < len → p.pageOf (u64 (va + k)) ≠ 0)
      ↔ ∀ j, j < copyPages va len → p.pageOf (u64 (va + bytesBefore va len j)) ≠ 0 := by
  have hiff := @copyPages_iff len va fun n => p.pageOf (n % 2 ^ 52 * pgSize) ≠ 0
  simp only [pageOf_u64]
  rw [hiff]
  refine forall₂_congr fun j hj => ?_
  obtain ⟨_, _, _, hdiv, _⟩ := bytesBefore_succ hj
  rw [hdiv]

/-- Where copyin of a string with its NUL succeeds, copyinstr delivers the
same bytes exactly when walkaddr finds every page of the string. -/
theorem copyinstr_agrees_iff {p p' : Proc} {g g' : Glob} (srcva : UInt64)
    {max : Nat} {s : List UInt8} (hs : 0 ∉ s) (hmax : s.length < max)
    (h : copyin p g srcva.toNat (s.length + 1)
      = .ok (some (s ++ [0]), p', g')) :
    copyinstr p g srcva.toNat max = .ok (some (s ++ [0]))
      ↔ ∀ k, k < s.length + 1 → p.pageOf (u64 (srcva.toNat + k)) ≠ 0 := by
  have hloop : forRet (copyinPage srcva.toNat (s.length + 1))
      (copyPages srcva.toNat (s.length + 1)) ([], p, g)
        = .ok (.inl (s ++ [0], p', g')) := by
    obtain ⟨o, ho, h⟩ := bind_ok h
    cases o with
    | inl t =>
      obtain ⟨b, q, g₁⟩ := t
      obtain ⟨rfl, rfl, rfl⟩ := h
      exact ho
    | inr t => cases h
  rw [pages_of_turns]
  constructor
  · intro hstr j
    -- the turns are found one after the other, or -1 would be returned
    induction j using Nat.strongRecOn with
    | ind j ih =>
      intro hj hzero
      have hnone := copyinstr_missing hs hmax hloop hj
        (fun i hi => ih i hi (by omega)) hzero
      rw [hnone] at hstr
      cases hstr
  · exact copyinstr_found hs hmax hloop

set_option maxRecDepth 10000

/-- A string of one letter in a heap page that was stored to. -/
theorem copyinstr_agrees_boot : ∃ k,
    runAs bootKernel 1 [.sbrk 4096 false, .store 0 65] = .ok k
      ∧ copyinstr (k.proc 1) k.glob 0 128 = .ok (some [65, 0]) := by
  have hrun : ∃ k p' g',
      runAs bootKernel 1 [.sbrk 4096 false, .store 0 65] = .ok k
        ∧ copyin (k.proc 1) k.glob (0 : UInt64).toNat 2
          = .ok (some [65, 0], p', g')
        ∧ (k.proc 1).pageOf 0 ≠ 0 ∧ (k.proc 1).pageOf 1 ≠ 0 :=
    ⟨_, _, _, rfl, rfl, by decide, by decide⟩
  obtain ⟨k, p', g', hk, hin, h0, h1⟩ := hrun
  refine ⟨k, hk, (copyinstr_agrees_iff 0 (s := [65]) (by decide) (by decide)
    hin).mpr fun j hj => ?_⟩
  match j, hj with
  | 0, _ => exact h0
  | 1, _ => exact h1

/-- An empty string in a heap page that was not touched: copyin reads its
NUL, and copyinstr returns -1. -/
theorem copyinstr_refuses_lazy : ∃ k, Runs (fun _ _ _ => True) bootKernel k
    ∧ ∃ p' g', copyin (k.proc 1) k.glob 0 1 = .ok (some [0], p', g')
      ∧ copyinstr (k.proc 1) k.glob 0 128 = .ok none :=
  have hr := Runs.step .refl 1 (.sbrk 4096 false) (by decide) rfl trivial rfl
  ⟨_, hr, _, _, rfl, rfl⟩

end Xv6Labs.Model
