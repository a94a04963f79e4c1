/-
sys_mmap followed by sys_munmap of the same range, again and again.

A pair restores the slot, the file reference and the page table, but not
`cur_vma_start`, which never moves down. So `n` pairs of length `len` cost
`n * len` bytes of the window (`map_unmap_repeats_iff`).
-/
import Xv6Labs.Proofs.Munmap

namespace Xv6Labs.Model

open Lib

variable {p p' : Proc} {g g' : Glob} {f n : Nat}

-- == requests

/-- The arguments of a sys_mmap. -/
structure MapReq where
  addr : Nat
  len : Int
  prot : UInt32
  flags : UInt32
  fd : Int
  offset : Nat

/-- The call. -/
def MapReq.call (q : MapReq) (p : Proc) (g : Glob) : Except Panic (Nat × Proc × Glob) :=
  sysMmap p g q.addr q.len q.prot q.flags q.fd q.offset

/-- sys_mmap succeeds on the request. -/
def Accepts (p : Proc) (g : Glob) (q : MapReq) : Prop :=
  ∃ a p' g', q.call p g = .ok (a, p', g') ∧ a ≠ minusOne

/-- Everything sys_mmap asks of a request but the room for it. -/
def Admits (p : Proc) (g : Glob) (q : MapReq) : Prop :=
  q.len ≠ 0 ∧ q.offset % pgSize = 0 ∧ (freeSlot p).isSome = true
    ∧ ∃ f, ofileAt p q.fd = .ok f ∧ mmapMode g f q.prot q.flags = .ok true
      ∧ ∃ g', filedupOpt g f = .ok g'

/-- Room for `len` bytes when `cur_vma_start` is `c`. -/
def RoomAt (c : Nat) (len : Int) : Prop := pgRoundUp (u64 (c + len)) < mmapTop

instance (c : Nat) (len : Int) : Decidable (RoomAt c len) := inferInstanceAs (Decidable (_ < _))

theorem MapReq.call_eq {q : MapReq} {f : Option Nat} {i : Nat}
    (hlen : q.len ≠ 0) (hoff : q.offset % pgSize = 0)
    (hslot : freeSlot p = some i) (hf : ofileAt p q.fd = .ok f)
    (hmode : mmapMode g f q.prot q.flags = .ok true)
    (hdup : filedupOpt g f = .ok g') (hroom : RoomAt p.curVmaStart q.len) :
    q.call p g = .ok (p.curVmaStart,
      { p.setVma i (newVma p q.len q.prot q.flags q.fd f) with
        curVmaStart := mmapEnd p q.len }, g') := by
  have hargs : ¬ (q.len = 0 ∨ q.offset % pgSize ≠ 0) := by
    rintro (h | h)
    · exact hlen h
    · exact h hoff
  have hend : ¬ mmapTop ≤ mmapEnd p q.len := Nat.not_le.mpr hroom
  unfold MapReq.call sysMmap
  simp only [if_neg hargs, hf, hmode, ok_bind, Bool.true_eq_false, if_false,
    if_neg hend, hslot, hdup, pure_eq]

theorem accepts_iff {q : MapReq} (hcur : p.curVmaStart ≠ minusOne) :
    Accepts p g q ↔ Admits p g q ∧ RoomAt p.curVmaStart q.len := by
  constructor
  · rintro ⟨a, p', g', hcall, ha⟩
    rcases sysMmap_cases hcall with
      ⟨_, _, hr⟩ | ⟨f, i, hlen, hoff, hf, hmode, htop, hslot, hdup, _, _⟩
    · exact absurd hr ha
    · exact ⟨⟨hlen, hoff, by rw [hslot]; rfl, f, hf, hmode, g', hdup⟩, htop⟩
  · rintro ⟨⟨hlen, hoff, hslot, f, hf, hmode, g', hdup⟩, hroom⟩
    obtain ⟨i, hi⟩ := Option.isSome_iff_exists.mp hslot
    exact ⟨_, _, _, MapReq.call_eq hlen hoff hi hf hmode hdup hroom, hcur⟩

/-- Where mappings are laid out there is room for whole pages exactly when
they end below the top of the window. -/
theorem Layout.roomAt (hl : Layout p) {m : Nat} (hm : m * pgSize < 2 ^ 31) :
    mmapEnd p (m * pgSize : Nat) = p.curVmaStart + m * pgSize := by
  have hmod := hl.cur_mod
  rw [mmapEnd_eq hl.cur_top (by omega) (by omega)]
  unfold pgSize at *
  omega

theorem Layout.cur_ne (hl : Layout p) : p.curVmaStart ≠ minusOne := by
  have htop := hl.cur_top
  unfold mmapTop at htop
  unfold minusOne
  omega

-- == the pair

/-- One pair: map, and unmap the address returned over the same length.
`none` when one of the two calls returns an error. -/
def mapUnmap (q : MapReq) (s : Proc × Glob) : Except Panic (Option (Proc × Glob)) := do
  let (a, p, g) ← q.call s.1 s.2
  if a = minusOne then pure none
  else
    let (r, p, g) ← sysMunmap p g a q.len
    pure (if r = 0 then some (p, g) else none)

/-- `n` pairs, until one fails. -/
def mapUnmaps (q : MapReq) : Nat → Proc × Glob → Except Panic (Option (Proc × Glob))
  | 0, s => .ok (some s)
  | n + 1, s => do
    match ← mapUnmaps q n s with
    | none => pure none
    | some s => mapUnmap q s

/-- What pairs that used up `c` bytes of the window leave of the process.
The entries of those pages, and of the page after them, are cleared. -/
structure Paired (p p' : Proc) (c : Nat) : Prop where
  layout : Layout p'
  cur : p'.curVmaStart = p.curVmaStart + c
  ofile : p'.ofile = p.ofile
  valid : ∀ j, (p'.vma j).valid = (p.vma j).valid
  vma : ∀ j, (p.vma j).valid = true → p'.vma j = p.vma j
  entry : ∀ k, p'.pagetable.entry k
    = if 0 < c ∧ p.curVmaStart / pgSize ≤ k ∧ k ≤ (p.curVmaStart + c) / pgSize
      then none else p.pagetable.entry k

theorem Paired.refl (hl : Layout p) : Paired p p 0 := by
  refine ⟨hl, rfl, rfl, fun _ => rfl, fun _ _ => rfl, fun k => ?_⟩
  rw [if_neg (fun h => Nat.lt_irrefl 0 h.1)]

theorem Paired.trans {p1 p2 : Proc} {c d : Nat} (h : Paired p p1 c)
    (h' : Paired p1 p2 d) : Paired p p2 (c + d) := by
  refine ⟨h'.layout, ?_, h'.ofile.trans h.ofile,
    fun j => (h'.valid j).trans (h.valid j), fun j hj => ?_, fun k => ?_⟩
  · rw [h'.cur, h.cur, Nat.add_assoc]
  · rw [h'.vma j ((h.valid j).trans hj), h.vma j hj]
  -- the two ranges meet in the page between them
  have hle1 : p.curVmaStart / pgSize ≤ (p.curVmaStart + c) / pgSize :=
    Nat.div_le_div_right (Nat.le_add_right _ _)
  have hle2 : (p.curVmaStart + c) / pgSize ≤ (p.curVmaStart + c + d) / pgSize :=
    Nat.div_le_div_right (Nat.le_add_right _ _)
  rw [h'.entry, h.cur, h.entry, ← Nat.add_assoc p.curVmaStart c d]
  by_cases hd : 0 < d ∧ (p.curVmaStart + c) / pgSize ≤ k ∧ k ≤ (p.curVmaStart + c + d) / pgSize
  · rw [if_pos hd, if_pos ⟨by omega, by omega, hd.2.2⟩]
  rw [if_neg hd]
  by_cases hc : 0 < c ∧ p.curVmaStart / pgSize ≤ k ∧ k ≤ (p.curVmaStart + c) / pgSize
  · rw [if_pos hc, if_pos ⟨by omega, hc.2.1, by omega⟩]
  rw [if_neg hc]
  refine (if_neg fun hcd => ?_).symm
  -- with `d = 0` the range is the first one
  by_cases hd0 : d = 0
  · subst hd0
    exact hc ⟨by omega, hcd.2.1, hcd.2.2⟩
  by_cases hc0 : c = 0
  · subst hc0
    exact hd ⟨by omega, hcd.2.1, hcd.2.2⟩
  · rcases Nat.le_total k ((p.curVmaStart + c) / pgSize) with hk | hk
    · exact hc ⟨by omega, hcd.2.1, hk⟩
    · exact hd ⟨by omega, hk, hcd.2.2⟩

/-- A request is admitted after the pairs as it was before them. -/
theorem Paired.admits {c : Nat} (h : Paired p p' c) (g : Glob) (q : MapReq) :
    Admits p' g q ↔ Admits p g q := by
  have hslot : freeSlot p' = freeSlot p := by
    simp only [freeSlot, h.valid]
  have hfile : ofileAt p' q.fd = ofileAt p q.fd := by
    simp only [ofileAt, h.ofile]
  unfold Admits
  rw [hslot, hfile]

section

variable {q : MapReq} {m : Nat} (hq : q.len = (m * pgSize : Nat)) (hm : 0 < m)
  (hlt : m * pgSize < 2 ^ 31)

include hq hm hlt

omit hm in
/-- The mapping that sys_mmap has made. -/
theorem newVma_at {p1 : Proc} {i : Nat} {f : Option Nat} (hl : Layout p)
    (h : p1 = { p.setVma i (newVma p q.len q.prot q.flags q.fd f) with
      curVmaStart := mmapEnd p q.len }) :
    p1.vma i = newVma p q.len q.prot q.flags q.fd f ∧ (p1.vma i).start = p.curVmaStart
      ∧ (p1.vma i).stop = p.curVmaStart + m * pgSize ∧ (p1.vma i).valid = true := by
  have hvi : p1.vma i = newVma p q.len q.prot q.flags q.fd f := by
    rw [h]
    exact if_pos rfl
  rw [hvi, ← hl.roomAt hlt, ← hq]
  exact ⟨rfl, rfl, rfl, rfl⟩

/-- What a pair that succeeds does, whatever was mapped. -/
theorem mapUnmap_paired (hl : Layout p) (h : mapUnmap q (p, g) = .ok (some (p', g'))) :
    Paired p p' (m * pgSize) ∧ ∃ f, ofileAt p q.fd = .ok (some f) := by
  obtain ⟨⟨a, p1, g1⟩, hcall, h⟩ := bind_ok h
  have hl1 : Layout p1 := by
    refine sysMmap_layout hl ?_ (.inl ?_) hcall
    · omega
    · omega
  rcases sysMmap_cases hcall with
    ⟨_, _, rfl⟩ | ⟨f, i, _, _, hf, _, htop, hslot, _, rfl, hp1⟩
  · cases h
  dsimp only at h
  rw [if_neg hl.cur_ne] at h
  obtain ⟨⟨r, p2, g2⟩, hun, h⟩ := bind_ok h
  by_cases hr : r = 0
  · subst hr
    cases h
    rw [hq] at hun htop
    obtain ⟨hi, hinv⟩ := freeSlot_some hslot
    obtain ⟨hvi, hstart, hstop, hvalid⟩ := newVma_at hq hlt hl hp1
    obtain ⟨hu, hhold, hcur', hvma, hent⟩ := sysMunmap_process hl1 hi hvalid
      hm hstart.le hstop.ge hun
    have hcuts : MunmapCuts p1 p.curVmaStart (m * pgSize : Nat) := by
      intro j hj
      rw [hu, hhold] at hj
      cases hj
      exact ⟨fun _ hlt' => by omega, fun _ hlt' => by omega⟩
    have hl2 := sysMunmap_layout hl1 hcuts hun
    rcases sysMunmap_cases hun with
      ⟨_, _, hr⟩ | ⟨j, p3, g3, g4, _, hj, _, hloop, hclose, hp'⟩
    · cases hr
    rw [hu] at hj hclose
    cases hhold.symm.trans hj
    obtain ⟨⟨pt, hp3⟩, _⟩ := munmapPages_frame hloop
    dsimp only at hp3
    refine ⟨⟨hl2, ?_, ?_, ?_, ?_, ?_⟩, ?_⟩
    · rw [hcur', hp1, ← hl.roomAt hlt, ← hq]
    · rw [hp', hp3, hp1]
      rfl
    · intro k
      rw [hvma, hp1]
      simp only [Proc.setVma, if_true]
      by_cases hk : k = i
      · rw [if_pos hk, hk, hinv]
        unfold shrink
        rw [if_pos]
        exact ⟨rfl, by rw [← hl.roomAt hlt, ← hq]; rfl⟩
      · rw [if_neg hk, if_neg hk]
    · intro k hk
      have hki : k ≠ i := by
        rintro rfl
        rw [hinv] at hk
        cases hk
      rw [hvma, hp1]
      simp only [Proc.setVma, if_neg hki]
    · intro k
      have hpos : 0 < m * pgSize := Nat.mul_pos hm (by decide)
      have hdiv : (p.curVmaStart + m * pgSize) / pgSize
          = p.curVmaStart / pgSize + m := Nat.add_mul_div_right _ _ (by decide)
      rw [hent, hdiv, hp1]
      simp only [hpos, true_and]
      rfl
    · -- the file is there, or fileclose is called on a null pointer
      rw [hvi] at hclose
      rcases closeWhole_cases hclose with ⟨hpart, _⟩ | ⟨_, f, rfl, _⟩
      · exact absurd ⟨rfl, by rw [← hl.roomAt hlt, ← hq]; rfl⟩ hpart
      · exact ⟨f, hf⟩
  · rw [if_neg hr] at h
    cases h

/-- What pairs that all succeed do. -/
theorem mapUnmaps_paired (hl : Layout p) (h : mapUnmaps q n (p, g) = .ok (some (p', g'))) :
    Paired p p' (n * (m * pgSize)) ∧ (0 < n → ∃ f, ofileAt p q.fd = .ok (some f)) := by
  induction n generalizing p' g' with
  | zero =>
    cases h
    rw [Nat.zero_mul]
    exact ⟨.refl hl, fun h0 => absurd h0 (Nat.lt_irrefl 0)⟩
  | succ n ih =>
    obtain ⟨o, ho, h⟩ := bind_ok h
    cases o with
    | none => cases h
    | some s =>
      have hpre := (ih ho).1
      obtain ⟨hlast, f, hf⟩ := mapUnmap_paired hq hm hlt hpre.layout h
      refine ⟨?_, fun _ => ⟨f, ?_⟩⟩
      · rw [Nat.succ_mul]
        exact hpre.trans hlast
      · unfold ofileAt at hf ⊢
        rw [hpre.ofile] at hf
        exact hf

-- == with nothing mapped

omit hq hm hlt in
/-- Closing what was just duplicated. -/
theorem fileclose_filedup (h : filedup g f = .ok g') : fileclose g' f = .ok g := by
  obtain ⟨href, rfl⟩ := filedup_ok h
  have hfl : (g.setFile f { g.ftable f with
      ref := (g.ftable f).ref + 1 }).ftable f
    = { g.ftable f with ref := (g.ftable f).ref + 1 } := if_pos rfl
  simp only [fileclose, hfl]
  rw [if_neg (by omega), if_pos (by omega)]
  refine congrArg Except.ok ?_
  unfold Glob.setFile
  congr 1
  funext i
  by_cases hi : i = f
  · subst hi
    rw [if_pos rfl, Int.add_sub_cancel]
  · rw [if_neg hi]
    exact if_neg hi

omit hq hm hlt in
theorem writeBack_absent {v : Vma} {lo hi : Nat}
    (h : ∀ k, k < pagesBelow (pgRoundDown lo) (pgRoundDown hi) →
      walkValid p.pagetable (pgRoundDown lo + k * pgSize) = .ok none) :
    writeBack p g v lo hi = .ok g := by
  unfold writeBack
  split
  · obtain ⟨g', hloop, rfl⟩ := forRet_total (f := writeBackPage p v (g.vmaIp v) hi (pgRoundDown lo))
      (n := pagesBelow (pgRoundDown lo) (pgRoundDown hi))
      (fun _ t => t = g) rfl (by
        rintro k hk t rfl
        refine ⟨t, ?_, rfl⟩
        simp only [writeBackPage, h k hk, ok_bind, pure_eq])
    simp only [hloop, ok_bind, pure_eq]
  · rfl

omit hq hm hlt in
theorem munmapPages_absent {v : Vma} {lo : Nat}
    (h : ∀ k, k < n → walkValid p.pagetable (lo + k * pgSize) = .ok none) :
    forUpto (munmapPage v lo) n (p, g) = .ok (p, g) := by
  refine forUpto_id fun k hk => ?_
  simp only [munmapPage, h k hk, ok_bind, pure_eq]

/-- A pair over pages without entries succeeds, and leaves the shared
state as it was. -/
theorem mapUnmap_total (hl : Layout p) (hadm : Admits p g q) (hf : ofileAt p q.fd = .ok (some f))
    (htop : p.curVmaStart + m * pgSize < mmapTop)
    (hnone : ∀ k, p.curVmaStart / pgSize ≤ k →
      k ≤ (p.curVmaStart + m * pgSize) / pgSize → p.pagetable.entry k = none) :
    ∃ p', mapUnmap q (p, g) = .ok (some (p', g)) := by
  obtain ⟨hlen, hoff, hslot, f', hf', hmode, g1, hdup⟩ := hadm
  cases hf.symm.trans hf'
  obtain ⟨i, hi⟩ := Option.isSome_iff_exists.mp hslot
  have hend : mmapEnd p q.len = p.curVmaStart + m * pgSize := by
    rw [hq]
    exact hl.roomAt hlt
  have hcall := MapReq.call_eq hlen hoff hi hf hmode hdup
    (show mmapEnd p q.len < mmapTop by rw [hend]; exact htop)
  have hl1 := sysMmap_layout hl (by omega) (.inl (by omega)) hcall
  generalize hp1 : ({ p.setVma i (newVma p q.len q.prot q.flags q.fd (some f))
    with curVmaStart := mmapEnd p q.len } : Proc) = p1 at hcall hl1
  obtain ⟨hvi, hstart, hstop, hvalid⟩ := newVma_at hq hlt hl hp1.symm
  have hpt : p1.pagetable = p.pagetable := by
    rw [← hp1]
    rfl
  have hu : u64 ((p.curVmaStart : Int) + q.len) = p.curVmaStart + m * pgSize := by
    refine u64_of_lt (by omega) ?_
    unfold mmapTop at htop
    omega
  have hhold : vmaHolding p1 p.curVmaStart (p.curVmaStart + m * pgSize) = some i := by
    refine hl1.holding (freeSlot_some hi).1 hvalid hstart.le hstop.ge ?_
    unfold pgSize
    omega
  have hmod := hl.cur_mod
  have hwalk : ∀ k, k < m + 1 → walkValid p1.pagetable (p.curVmaStart + k * pgSize) = .ok none := by
    intro k hk
    have hmul : k * pgSize ≤ m * pgSize := Nat.mul_le_mul_right _ (Nat.le_of_lt_succ hk)
    have hva : p.curVmaStart + k * pgSize < maxVa :=
      Nat.lt_of_lt_of_le (Nat.lt_of_le_of_lt (Nat.add_le_add_left hmul _) htop) (by decide)
    rw [hpt, walkValid_entry hva, hnone]
    · exact Nat.div_le_div_right (Nat.le_add_right _ _)
    · exact Nat.div_le_div_right (Nat.add_le_add_left hmul _)
  have hwb : writeBack p1 g1 (p1.vma i) p.curVmaStart (p.curVmaStart + m * pgSize) = .ok g1 := by
    refine writeBack_absent fun k hk => ?_
    have hcur : pgRoundDown p.curVmaStart = p.curVmaStart := pgRoundDown_of_aligned hmod
    rw [lt_pagesBelow] at hk
    rw [hcur]
    apply hwalk
    have := pgRoundDown_le (p.curVmaStart + m * pgSize)
    unfold pgSize at *
    omega
  have hclose : closeWhole g1 (p1.vma i) p.curVmaStart (p.curVmaStart + m * pgSize) = .ok g := by
    unfold closeWhole
    rw [if_pos ⟨hstart, hstop⟩, hvi]
    exact fileclose_filedup hdup
  refine ⟨p1.setVma i (shrink (p1.vma i) p.curVmaStart (p.curVmaStart + m * pgSize)), ?_⟩
  simp only [mapUnmap, hcall, ok_bind, if_neg hl.cur_ne, sysMunmap, if_neg hlen,
    hu, hhold, hwb, pagesThrough_pages, munmapPages_absent hwalk, hclose, pure_eq, if_true]

/-- Pairs over pages without entries succeed as long as they fit below the
top of the window. -/
theorem mapUnmaps_total (hl : Layout p) (hadm : Admits p g q) (hf : ofileAt p q.fd = .ok (some f))
    (htop : p.curVmaStart + n * (m * pgSize) < mmapTop)
    (hnone : ∀ k, p.curVmaStart / pgSize ≤ k → k ≤ (p.curVmaStart + n * (m * pgSize)) / pgSize →
      p.pagetable.entry k = none) :
    ∃ p', mapUnmaps q n (p, g) = .ok (some (p', g)) := by
  induction n with
  | zero => exact ⟨p, rfl⟩
  | succ n ih =>
    have hsucc : (n + 1) * (m * pgSize) = n * (m * pgSize) + m * pgSize := Nat.succ_mul _ _
    rw [hsucc, ← Nat.add_assoc] at htop hnone
    have hle : (p.curVmaStart + n * (m * pgSize)) / pgSize
        ≤ (p.curVmaStart + n * (m * pgSize) + m * pgSize) / pgSize :=
      Nat.div_le_div_right (Nat.le_add_right _ _)
    obtain ⟨p1, h1⟩ := ih (by omega) fun k hlo hhi =>
      hnone k hlo (hhi.trans hle)
    have hpair := (mapUnmaps_paired hq hm hlt hl h1).1
    have hf1 : ofileAt p1 q.fd = .ok (some f) := by
      unfold ofileAt at hf ⊢
      rw [hpair.ofile]
      exact hf
    obtain ⟨p2, h2⟩ := mapUnmap_total hq hm hlt hpair.layout
      ((hpair.admits g q).mpr hadm) hf1 (by rw [hpair.cur]; exact htop) (by
        intro k hlo hhi
        rw [hpair.cur] at hlo hhi
        rw [hpair.entry]
        split
        · rfl
        · apply hnone k _ hhi
          exact Nat.le_trans (Nat.div_le_div_right (Nat.le_add_right _ _)) hlo)
    refine ⟨p2, ?_⟩
    simp only [mapUnmaps, h1, ok_bind, h2]

-- == n pairs

/-- Pairs of calls succeed and leave the mappings, the entries, the file
references and the success of a later request as they were, exactly when
there are none or the file is there, the pairs fit in the window, nothing
is mapped in the pages they use or the one after, and the request (if it
is otherwise good) has room after them as before them. -/
theorem map_unmap_repeats_iff {p : Proc} {g : Glob} (hl : Layout p)
    (hacc : Accepts p g q) (n : Nat) (later : MapReq) :
    (∃ p' g', mapUnmaps q n (p, g) = .ok (some (p', g'))
      ∧ (∀ j, (p'.vma j).valid = (p.vma j).valid
        ∧ ((p.vma j).valid = true → p'.vma j = p.vma j))
      ∧ (∀ k, p'.pagetable.entry k = p.pagetable.entry k)
      ∧ (∀ f, (g'.ftable f).ref = (g.ftable f).ref)
      ∧ (Accepts p' g' later ↔ Accepts p g later))
    ↔ n = 0 ∨ ((∃ f, ofileAt p q.fd = .ok (some f))
      ∧ p.curVmaStart + n * (m * pgSize) < mmapTop
      ∧ (∀ k, p.curVmaStart / pgSize ≤ k →
        k ≤ (p.curVmaStart + n * (m * pgSize)) / pgSize →
        p.pagetable.entry k = none)
      ∧ (Admits p g later →
        (RoomAt (p.curVmaStart + n * (m * pgSize)) later.len
          ↔ RoomAt p.curVmaStart later.len))) := by
  have hadm := ((accepts_iff hl.cur_ne).mp hacc).1
  have hlater : ∀ {p' : Proc}, Paired p p' (n * (m * pgSize)) →
      ((Accepts p' g later ↔ Accepts p g later) ↔ (Admits p g later →
        (RoomAt (p.curVmaStart + n * (m * pgSize)) later.len
          ↔ RoomAt p.curVmaStart later.len))) := by
    intro p' hpair
    rw [accepts_iff hpair.layout.cur_ne, accepts_iff hl.cur_ne,
      hpair.admits, hpair.cur]
    constructor
    · intro h ha
      have := h
      simp only [ha, true_and] at this
      exact this
    intro h
    constructor
    · rintro ⟨ha, hr⟩
      exact ⟨ha, (h ha).mp hr⟩
    · rintro ⟨ha, hr⟩
      exact ⟨ha, (h ha).mpr hr⟩
  constructor
  · rintro ⟨p', g', hrun, _, hent, _, hreq⟩
    by_cases hn : n = 0
    · exact .inl hn
    obtain ⟨hpair, hfile⟩ := mapUnmaps_paired hq hm hlt hl hrun
    obtain ⟨f, hf⟩ := hfile (Nat.pos_of_ne_zero hn)
    have htop : p.curVmaStart + n * (m * pgSize) < mmapTop := by
      rw [← hpair.cur]
      exact hpair.layout.cur_top
    have hpos : 0 < n * (m * pgSize) :=
      Nat.mul_pos (Nat.pos_of_ne_zero hn) (Nat.mul_pos hm (by decide))
    have hnone : ∀ k, p.curVmaStart / pgSize ≤ k →
        k ≤ (p.curVmaStart + n * (m * pgSize)) / pgSize →
        p.pagetable.entry k = none := by
      intro k hlo hhi
      rw [← hent k, hpair.entry, if_pos ⟨hpos, hlo, hhi⟩]
    -- so the run is the one that leaves the shared state alone
    obtain ⟨p₁, h₁⟩ := mapUnmaps_total hq hm hlt hl hadm hf htop hnone
    cases hrun.symm.trans h₁
    exact .inr ⟨⟨f, hf⟩, htop, hnone, (hlater hpair).mp hreq⟩
  · rintro (rfl | ⟨⟨f, hf⟩, htop, hnone, hroom⟩)
    · exact ⟨p, g, rfl, fun _ => ⟨rfl, fun _ => rfl⟩, fun _ => rfl,
        fun _ => rfl, Iff.rfl⟩
    obtain ⟨p', hrun⟩ := mapUnmaps_total hq hm hlt hl hadm hf htop hnone
    have hpair := (mapUnmaps_paired hq hm hlt hl hrun).1
    refine ⟨p', g, hrun, fun j => ⟨hpair.valid j, hpair.vma j⟩, fun k => ?_,
      fun _ => rfl, (hlater hpair).mpr hroom⟩
    rw [hpair.entry]
    split
    · next hk => rw [hnone k hk.2.1 hk.2.2]
    · rfl

end

set_option maxRecDepth 10000

/-- Three pairs of one page, then a request of one page. -/
theorem map_unmap_repeats_boot : ∃ p' g',
    mapUnmaps ⟨0, 4096, 3, 1, 0, 0⟩ 3 (bootKernel.proc 1, bootKernel.glob)
        = .ok (some (p', g'))
      ∧ Accepts p' g' ⟨0, 4096, 3, 1, 0, 0⟩ := by
  have hacc : Accepts (bootKernel.proc 1) bootKernel.glob
      ⟨0, 4096, 3, 1, 0, 0⟩ := ⟨_, _, _, rfl, by decide⟩
  have hnone : ∀ k, k ≤ 0x40003 →
      (bootTable 0x87010000).entry k = none := by
    intro k hk
    have hne : k ≠ 67108863 ∧ k ≠ 67108862 := by omega
    simp only [PageTable.entry, bootTable, hne.1, hne.2, if_false, ite_self]
  obtain ⟨p', g', hrun, _, _, _, hlater⟩ :=
    (map_unmap_repeats_iff (m := 1) rfl Nat.one_pos (by decide)
      (p := bootKernel.proc 1) (by decide) hacc 3
      ⟨0, 4096, 3, 1, 0, 0⟩).mpr
      (.inr ⟨⟨0, rfl⟩, by decide, fun k _ hk => hnone k hk,
        fun _ => by decide⟩)
  exact ⟨p', g', hrun, hlater.mpr hacc⟩

/-- One pair of one page, and the largest request that was good before it
is refused. Two pairs of half the window never both succeed. -/
theorem map_unmap_uses_window :
    (∃ p' g', mapUnmaps ⟨0, 4096, 3, 1, 0, 0⟩ 1
          (bootKernel.proc 1, bootKernel.glob) = .ok (some (p', g'))
        ∧ Accepts (bootKernel.proc 1) bootKernel.glob
          ⟨0, 0x3ffff000, 3, 1, 0, 0⟩
        ∧ ¬ Accepts p' g' ⟨0, 0x3ffff000, 3, 1, 0, 0⟩)
      ∧ Accepts (bootKernel.proc 1) bootKernel.glob
        ⟨0, 0x20000000, 3, 1, 0, 0⟩
      ∧ ∀ s, mapUnmaps ⟨0, 0x20000000, 3, 1, 0, 0⟩ 2
        (bootKernel.proc 1, bootKernel.glob) ≠ .ok (some s) := by
  have hacc : ∀ len : Int, len ≠ 0 → RoomAt 0x40000000 len →
      Accepts (bootKernel.proc 1) bootKernel.glob ⟨0, len, 3, 1, 0, 0⟩ := by
    intro len hlen hroom
    have hmode : mmapMode bootKernel.glob (some 0) 3 1 = .ok true := rfl
    exact (accepts_iff (by decide)).mpr
      ⟨⟨hlen, rfl, by decide, some 0, rfl, hmode, _, rfl⟩, hroom⟩
  refine ⟨⟨_, _, rfl, hacc _ (by decide) (by decide), fun h => ?_⟩,
    hacc _ (by decide) (by decide), ?_⟩
  · have hroom := ((accepts_iff (by decide)).mp h).2
    exact absurd hroom (by decide)
  rintro ⟨p', g'⟩ h
  have hpair := (mapUnmaps_paired (m := 0x20000) rfl (by decide) (by decide) (by decide) h).1
  have htop := hpair.layout.cur_top
  rw [hpair.cur] at htop
  exact absurd htop (by decide)

end Xv6Labs.Model
