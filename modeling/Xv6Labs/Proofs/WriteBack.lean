/-
What sys_munmap writes into the file of a shared mapping.

`WrittenAt w`: the bytes of resident pages were written, each at the
position that `w` gives its address; writei takes the position as a uint,
so they go to `Vma.writePos`. The loop ends at `PGROUNDDOWN(unmap_end)`. A
file without links may be gone with its bytes when it is closed.
-/
import Xv6Labs.Proofs.Munmap
import Xv6Labs.Proofs.FirstLoad

namespace Xv6Labs.Model

open Lib

variable {g' t t' : Glob} {a k n : Nat} {w : Nat → Nat} {d : Dinode}

-- == the bytes

/-- The byte of memory at `va`, on a resident page. -/
def memAt (p : Proc) (g : Glob) (va : Nat) : Option UInt8 :=
  (p.pagetable.entry (va / pgSize)).map fun e =>
    g.phys.mem (e.pa + va % pgSize)

/-- Where sys_munmap writes the byte at `va`: writei has the position of its
page as a uint. -/
def Vma.writePos (v : Vma) (va : Nat) : Nat := u32 (v.fileOff (pgRoundDown va)) + va % pgSize

/-- The file `d'` after `[lo, hi)` was written back with the byte at `va`
going to `w va`: the bytes of resident pages are in it, all else is as
before. -/
structure WrittenAt (w : Nat → Nat) (p : Proc) (g : Glob) (ip lo hi : Nat)
    (d' : Dinode) : Prop where
  size : d'.size = (g.dinode ip).size
  range : ∀ va b, lo ≤ va → va < hi → memAt p g va = some b →
    w va < (g.dinode ip).size → d'.data (w va) = b
  rest : ∀ pos, pos < (g.dinode ip).size →
    (∀ va, lo ≤ va → va < hi → w va = pos → memAt p g va = none) →
    d'.data pos = (g.dinode ip).data pos

/-- The file after `[lo, hi)` of a mapping was written back. -/
def WrittenBack (p : Proc) (g : Glob) (v : Vma) (ip lo hi : Nat) (d' : Dinode) : Prop :=
  WrittenAt v.fileOff p g ip lo hi d'

section

variable {p : Proc} {g : Glob} {v : Vma} {ip lo hi : Nat}

/-- Both positions of a byte follow its address. -/
theorem Vma.fileOff_slide (v : Vma) (va va' : Nat) :
    (v.fileOff va + va') % 2 ^ 32 = (v.fileOff va' + va) % 2 ^ 32 := by
  unfold fileOff u64
  omega

theorem Vma.writePos_slide (v : Vma) (va va' : Nat) :
    (v.writePos va + va') % 2 ^ 32 = (v.fileOff va' + va) % 2 ^ 32 := by
  have hpage := v.fileOff_slide (pgRoundDown va) va'
  unfold writePos u32
  unfold pgRoundDown at *
  unfold pgSize at *
  omega

theorem Vma.writePos_page (v : Vma) {j : Nat} (hmod : a % pgSize = 0)
    (hj : j < pgSize) : v.writePos (a + j) = u32 (v.fileOff a) + j := by
  have hround : pgRoundDown (a + j) = a := by
    unfold pgRoundDown
    unfold pgSize at *
    omega
  have hrest : (a + j) % pgSize = j := by
    unfold pgSize at *
    omega
  rw [writePos, hround, hrest]

/-- Pages that are not resident, or past the end of the file, add nothing. -/
theorem WrittenAt.extend (h : WrittenAt w p g ip lo a d) (hle : a ≤ hi)
    (hout : ∀ va, a ≤ va → va < hi → memAt p g va = none ∨ (g.dinode ip).size ≤ w va) :
    WrittenAt w p g ip lo hi d := by
  refine ⟨h.size, fun va b hlo hhi hb hpos => ?_, fun pos hpos hnone => ?_⟩
  · rcases Nat.lt_or_ge va a with hlt | hge
    · exact h.range va b hlo hlt hb hpos
    · rcases hout va hge hhi with hno | hpast
      · rw [hno] at hb
        cases hb
      · omega
  · exact h.rest pos hpos fun va hlo hhi => hnone va hlo (hhi.trans_le hle)

/-- The write of a resident page. -/
theorem WrittenAt.page {o : Nat} {d' : Dinode} {e : Pte}
    (h : WrittenAt w p g ip lo a d) (hle : lo ≤ a) (hmod : a % pgSize = 0)
    (he : p.pagetable.entry (a / pgSize) = some e) (hw : ∀ j, j < pgSize → w (a + j) = o + j)
    (hinj : ∀ va va', lo ≤ va → va < a + pgSize → lo ≤ va' →
      va' < a + pgSize → w va = w va' → va = va')
    (hsize : d'.size = (g.dinode ip).size)
    (hd : d'.data = memput d.data o (min pgSize ((g.dinode ip).size - o))
      fun i => g.phys.mem (e.pa + i)) :
    WrittenAt w p g ip lo (a + pgSize) d' := by
  have hmem : ∀ j, j < pgSize → memAt p g (a + j) = some (g.phys.mem (e.pa + j)) := by
    intro j hj
    have hpage : (a + j) / pgSize = a / pgSize ∧ (a + j) % pgSize = j := by
      unfold pgSize at *
      omega
    rw [memAt, hpage.1, hpage.2, he]
    rfl
  refine ⟨hsize, fun va b hlo hhi hb hpos => ?_, fun pos hpos hnone => ?_⟩
  · rw [hd]
    unfold memput
    rcases Nat.lt_or_ge va a with hlt | hge
    · rw [if_neg, h.range va b hlo hlt hb hpos]
      intro hin
      have hj := hw (w va - o) (by omega)
      have := hinj va (a + (w va - o)) hlo hhi (by omega) (by omega) (by omega)
      omega
    · obtain ⟨j, rfl⟩ := Nat.exists_eq_add_of_le hge
      have hj := hw j (by omega)
      rw [if_pos (by omega), hj, Nat.add_sub_cancel_left]
      exact Option.some.inj ((hmem j (by omega)).symm.trans hb)
  · rw [hd]
    unfold memput
    rw [if_neg]
    · exact h.rest pos hpos fun va hlo hhi => hnone va hlo (by omega)
    intro hin
    have hno := hnone (a + (pos - o)) (by omega) (by omega) (by rw [hw _ (by omega)]; omega)
    rw [hmem _ (by omega)] at hno
    cases hno

/-- `[lo, mid)` was written with the bytes going to `w`. Then `[lo, hi)` is
written back at the positions `u` exactly if each byte that was left out
or went elsewhere is what the file had, where it belongs and where it went. -/
theorem WrittenAt.moved_iff {u : Nat → Nat} {mid : Nat}
    (h : WrittenAt w p g ip lo mid d) (hmid : mid ≤ hi)
    (hinj : ∀ va va', lo ≤ va → va < hi → lo ≤ va' → va' < hi → w va = u va' → va = va') :
    WrittenAt u p g ip lo hi d ↔ ∀ va b, lo ≤ va → va < hi →
      memAt p g va = some b → ¬ (va < mid ∧ w va = u va) →
      (u va < (g.dinode ip).size → (g.dinode ip).data (u va) = b)
        ∧ (va < mid → w va < (g.dinode ip).size → (g.dinode ip).data (w va) = b) := by
  -- a byte that is not in its place has left its place alone
  have hold : ∀ va, lo ≤ va → va < hi → ¬ (va < mid ∧ w va = u va) → u va < (g.dinode ip).size →
      d.data (u va) = (g.dinode ip).data (u va) := by
    intro va hlo hhi hno hpos
    refine h.rest _ hpos fun va' hlo' hmid' hw => absurd ?_ hno
    have := hinj va' va hlo' (by omega) hlo hhi hw
    rw [← this] at hw ⊢
    exact ⟨hmid', hw⟩
  constructor
  · intro hu va b hlo hhi hb hno
    refine ⟨fun hpos => ?_, fun hlt hpos => ?_⟩
    · rw [← hold va hlo hhi hno hpos]
      exact hu.range va b hlo hhi hb hpos
    rw [← h.range va b hlo hlt hb hpos]
    refine (hu.rest _ hpos fun va' hlo' hhi' heq => absurd ?_ hno).symm
    have := hinj va va' hlo hhi hlo' hhi' heq.symm
    rw [this] at hlt ⊢
    exact ⟨hlt, (this ▸ heq).symm⟩
  intro hcond
  refine ⟨h.size, fun va b hlo hhi hb hpos => ?_, fun pos hpos hnone => ?_⟩
  · by_cases hin : va < mid ∧ w va = u va
    · rw [← hin.2] at hpos ⊢
      exact h.range va b hlo hin.1 hb hpos
    · rw [hold va hlo hhi hin hpos]
      exact (hcond va b hlo hhi hb hin).1 hpos
  by_cases hex : ∃ va b, lo ≤ va ∧ va < mid ∧ memAt p g va = some b ∧ w va = pos
  · obtain ⟨va, b, hlo, hlt, hb, rfl⟩ := hex
    rw [h.range va b hlo hlt hb hpos]
    refine ((hcond va b hlo (by omega) hb fun hin => ?_).2 hlt hpos).symm
    rw [hnone va hlo (by omega) hin.2.symm] at hb
    cases hb
  · refine h.rest pos hpos fun va hlo hlt hw => ?_
    cases hb : memAt p g va with
    | none => rfl
    | some b => exact absurd ⟨va, b, hlo, hlt, hb, hw⟩ hex

-- == one turn

/-- Only the bytes of the file behind `ip`, and whether its slot was read,
are different. -/
structure OnlyFile (g : Glob) (ip : Nat) (t : Glob) : Prop where
  phys : t.phys = g.phys
  ftable : t.ftable = g.ftable
  inum : (t.itable ip).inum = (g.itable ip).inum
  ref : (t.itable ip).ref = (g.itable ip).ref
  dinode : t.dinode ip = { g.dinode ip with data := (t.dinode ip).data }

theorem OnlyFile.refl (g : Glob) (ip : Nat) : OnlyFile g ip g := ⟨rfl, rfl, rfl, rfl, rfl⟩

theorem OnlyFile.size (h : OnlyFile g ip t) : (t.dinode ip).size = (g.dinode ip).size := by
  rw [h.dinode]

theorem ilock_onlyFile (h : OnlyFile g ip t) (hl : ilock t ip = .ok t') :
    OnlyFile g ip t' ∧ t'.dinode ip = t.dinode ip ∧ (t'.itable ip).valid = true := by
  simp only [ilock] at hl
  split at hl
  · cases hl
  split at hl
  · next hv =>
    cases hl
    exact ⟨h, rfl, hv⟩
  split at hl
  · cases hl
  cases hl
  have hslot : ∀ nd, (t.setInode ip nd).itable ip = nd := fun _ => if_pos rfl
  have hd : (t.setInode ip { t.itable ip with valid := true }).dinode ip = t.dinode ip := by
    unfold Glob.dinode
    rw [hslot]
    rfl
  refine ⟨⟨h.phys, h.ftable, ?_, ?_, ?_⟩, hd, ?_⟩
  · rw [hslot]
    exact h.inum
  · rw [hslot]
    exact h.ref
  · rw [hd]
    exact h.dinode
  · rw [hslot]

/-- writei of bytes that end inside the file. -/
theorem writei_inside {t : Glob} {src : Nat → UInt8} {off n : Nat}
    (hsize : (t.dinode ip).size ≤ maxFile * bsize)
    (hn : n ≤ (t.dinode ip).size - u32 off ∨ (t.dinode ip).size < u32 off) :
    ((writei t ip src off n 0).2).dinode ip = { t.dinode ip with
        data := memput (t.dinode ip).data (u32 off) (min n ((t.dinode ip).size - u32 off)) src }
      ∧ (writei t ip src off n 0).2.phys = t.phys ∧ (writei t ip src off n 0).2.ftable = t.ftable
      ∧ (writei t ip src off n 0).2.itable = t.itable := by
  have hmax : maxFile * bsize < 2 ^ 32 := by decide
  simp only [writei]
  generalize u32 off = o at hn ⊢
  have hnone : ∀ d : Dinode, d.size ≤ o →
      d = { d with data := memput d.data o (min n (d.size - o)) src } := by
    intro d hd
    have hdata : memput d.data o (min n (d.size - o)) src = d.data := by
      funext a
      unfold memput
      rw [if_neg (by omega)]
    rw [hdata]
  by_cases hpast : (t.dinode ip).size < o
  · rw [if_pos (.inl hpast)]
    exact ⟨hnone _ hpast.le, rfl, rfl, rfl⟩
  have hle : o + n ≤ (t.dinode ip).size := by omega
  have hsum : u32 ((o : Int) + n) = o + n := by
    unfold u32
    omega
  rw [if_neg (by rw [hsum]; omega), if_neg (by omega)]
  have htot : writeLen (t.dinode ip).size o n 0 = n := by
    unfold writeLen bsize
    omega
  have hmin : min n ((t.dinode ip).size - o) = n := by omega
  rw [htot, hmin, Nat.max_eq_left hle]
  exact ⟨if_pos rfl, rfl, rfl, rfl⟩

/-- One turn on a page that lies in the range: nothing is resident; the
page starts at the end of the file and the loop is left; or its bytes go
into the file. -/
theorem writeBackPage_turn {o : Glob ⊕ Glob}
    (hon : OnlyFile g ip t) (hsize : (g.dinode ip).size ≤ maxFile * bsize)
    (ha : lo + k * pgSize = a) (hroom : a + pgSize ≤ hi)
    (h : writeBackPage p v (some ip) hi lo k t = .ok o) :
    (p.pagetable.entry (a / pgSize) = none ∧ o = .inl t)
      ∨ ∃ e, p.pagetable.entry (a / pgSize) = some e
        ∧ ((u32 (v.fileOff a) = (g.dinode ip).size ∧ o = .inr t)
          ∨ (u32 (v.fileOff a) ≠ (g.dinode ip).size
            ∧ ∃ t', o = .inl t' ∧ OnlyFile g ip t' ∧ (t'.itable ip).valid = true
              ∧ (t'.dinode ip).data = memput (t.dinode ip).data (u32 (v.fileOff a))
                (min pgSize ((g.dinode ip).size - u32 (v.fileOff a)))
                fun i => g.phys.mem (e.pa + i))) := by
  have hmax : maxFile * bsize < 2 ^ 32 := by decide
  subst ha
  generalize hoffk : v.fileOff (lo + k * pgSize) = off
  obtain ⟨o1, hwalk, h⟩ := bind_ok h
  rw [walkValid_entry (walkValid_lt hwalk)] at hwalk
  cases o1 with
  | none =>
    cases h
    exact .inl ⟨Except.ok.inj hwalk, rfl⟩
  | some e =>
    refine .inr ⟨e, Except.ok.inj hwalk, ?_⟩
    dsimp only at h
    rw [hoffk, hon.size, if_neg (Nat.not_lt.mpr hroom)] at h
    -- the clamp, by the side of the end of the file the page is on
    have hclamp : (u32 off ≤ (g.dinode ip).size
          ∧ u32 (((g.dinode ip).size : Int) - off) = (g.dinode ip).size - u32 off)
        ∨ ((g.dinode ip).size < u32 off ∧ 0 < u32 (((g.dinode ip).size : Int) - off)) := by
      unfold u32
      omega
    split at h
    · next hzero =>
      cases h
      exact .inl ⟨by omega, rfl⟩
    · next hzero =>
      obtain ⟨t1, hlock, h⟩ := bind_ok h
      cases h
      obtain ⟨hon1, hd1, hv1⟩ := ilock_onlyFile hon hlock
      have hsz1 := hon1.size
      obtain ⟨hd2, hp2, hf2, hi2⟩ := @writei_inside ip t1 (fun i => t1.phys.mem (e.pa + i)) off
        (min pgSize (u32 (((g.dinode ip).size : Int) - off)))
        (by rw [hsz1]; exact hsize) (by rw [hsz1]; omega)
      refine .inr ⟨by omega, _, rfl, ⟨?_, ?_, ?_, ?_, ?_⟩, ?_, ?_⟩
      · rw [hp2]
        exact hon1.phys
      · rw [hf2]
        exact hon1.ftable
      · rw [hi2]
        exact hon1.inum
      · rw [hi2]
        exact hon1.ref
      · rw [hd2, hon1.dinode]
      · rw [hi2]
        exact hv1
      · have hmin : min (min pgSize (u32 (((g.dinode ip).size : Int) - off)))
            ((g.dinode ip).size - u32 off) = min pgSize ((g.dinode ip).size - u32 off) := by omega
        rw [hd2, hsz1, hmin, hd1, hon1.phys]

-- == the loop

/-- The loop locks the inode: before the page at which it is left, if any,
there is a resident one. -/
def LoopLocks (p : Proc) (v : Vma) (lo n size : Nat) : Prop :=
  ∃ j, j < n ∧ (p.pagetable.entry (lo / pgSize + j)).isSome = true
    ∧ ∀ i, i ≤ j → (p.pagetable.entry (lo / pgSize + i)).isSome = true →
      u32 (v.fileOff (lo + i * pgSize)) ≠ size

/-- After `k` turns that went on: the bytes of `k` pages, whether a
resident page was met, and that none of them starts at the end of the
file. -/
structure FlushedTo (p : Proc) (g : Glob) (v : Vma) (ip lo k : Nat) (t : Glob) : Prop where
  only : OnlyFile g ip t
  bytes : WrittenAt v.writePos p g ip lo (lo + k * pgSize) (t.dinode ip)
  valid : (t.itable ip).valid = true ↔ (g.itable ip).valid = true
    ∨ ∃ j, j < k ∧ (p.pagetable.entry (lo / pgSize + j)).isSome = true
  inside : ∀ j, j < k → (p.pagetable.entry (lo / pgSize + j)).isSome = true →
    u32 (v.fileOff (lo + j * pgSize)) ≠ (g.dinode ip).size

theorem FlushedTo.start : FlushedTo p g v ip lo 0 g := by
  refine ⟨.refl g ip, ⟨rfl, fun va b _ _ => ?_, fun _ _ _ => rfl⟩, ?_,
    fun j hj => absurd hj (by omega)⟩
  · omega
  constructor
  · exact .inl
  · rintro (h | ⟨j, hj, _⟩)
    · exact h
    · omega

theorem FlushedTo.turn (ht : FlushedTo p g v ip lo k t) (hmod : lo % pgSize = 0)
    (hsize : (g.dinode ip).size ≤ maxFile * bsize)
    (hroom : lo + k * pgSize + pgSize ≤ hi) (hspan : hi - lo < 2 ^ 31)
    (h : writeBackPage p v (some ip) hi lo k t = .ok (.inl t')) :
    FlushedTo p g v ip lo (k + 1) t' := by
  obtain ⟨a, ha⟩ : ∃ a, lo + k * pgSize = a := ⟨_, rfl⟩
  have hamod : a % pgSize = 0 := by
    unfold pgSize at *
    omega
  have hnext : lo + (k + 1) * pgSize = a + pgSize := by
    rw [Nat.succ_mul, ← Nat.add_assoc, ha]
  have hbytes := ht.bytes
  rw [ha] at hbytes hroom
  rcases writeBackPage_turn ht.only hsize ha hroom h with
    ⟨hnone, heq⟩ | ⟨e, he, ⟨_, heq⟩ | ⟨hne, t1, heq, hon, hv, hd⟩⟩
  · cases heq
    have hno : ¬ (p.pagetable.entry (lo / pgSize + k)).isSome = true := by
      rw [← page_add lo k, ha, hnone]
      exact Bool.false_ne_true
    refine ⟨ht.only, ?_, ht.valid.trans (or_congr Iff.rfl ?_), fun j hj hs => ?_⟩
    · rw [hnext]
      refine hbytes.extend (Nat.le_add_right _ _) fun va hge hlt => .inl ?_
      have hpage : va / pgSize = a / pgSize := by
        unfold pgSize at *
        omega
      rw [memAt, hpage, hnone]
      rfl
    · constructor
      · rintro ⟨j, hj, hs⟩
        exact ⟨j, by omega, hs⟩
      rintro ⟨j, hj, hs⟩
      refine ⟨j, ?_, hs⟩
      rcases Nat.lt_succ_iff_lt_or_eq.mp hj with hlt' | rfl
      · exact hlt'
      · exact absurd hs hno
    · rcases Nat.lt_succ_iff_lt_or_eq.mp hj with hlt' | rfl
      · exact ht.inside j hlt' hs
      · exact absurd hs hno
  · cases heq
  cases heq
  refine ⟨hon, ?_, ?_, fun j hj hs => ?_⟩
  · rw [hnext]
    refine hbytes.page (by omega) hamod he (fun j hj => v.writePos_page hamod hj)
      (fun va va' h1 h2 h3 h4 heq => ?_) hon.size hd
    have hs1 := v.writePos_slide va lo
    have hs2 := v.writePos_slide va' lo
    omega
  · constructor
    · intro _
      refine .inr ⟨k, Nat.lt_succ_self k, ?_⟩
      rw [← page_add lo k, ha, he]
      rfl
    · exact fun _ => hv
  · rcases Nat.lt_succ_iff_lt_or_eq.mp hj with hlt' | rfl
    · exact ht.inside j hlt' hs
    · rw [ha]
      exact hne

/-- The write-back of a range: the file holds the bytes of all pages that
lie in it. -/
theorem writeBack_bytes (hsh : v.isShared = true)
    (hw : hasBit v.prot protWrite = true) (hip : g.vmaIp v = some ip)
    (hmod : lo % pgSize = 0) (hle : lo ≤ hi) (hspan : hi - lo < 2 ^ 31)
    (hsize : (g.dinode ip).size ≤ maxFile * bsize) (h : writeBack p g v lo hi = .ok g') :
    OnlyFile g ip g' ∧ WrittenAt v.writePos p g ip lo (pgRoundDown hi) (g'.dinode ip)
      ∧ ((g'.itable ip).valid = true ↔ (g.itable ip).valid = true
        ∨ LoopLocks p v lo (pagesBelow lo (pgRoundDown hi)) (g.dinode ip).size) := by
  have hround : pgRoundDown lo = lo := pgRoundDown_of_aligned hmod
  have hdown := pgRoundDown_le hi
  have hdmod := pgRoundDown_mod hi
  generalize hn : pagesBelow lo (pgRoundDown hi) = n
  have hend : lo + n * pgSize = pgRoundDown hi := by
    have hge : lo ≤ pgRoundDown hi := by
      unfold pgRoundDown
      unfold pgSize at *
      omega
    rw [← hn]
    unfold pagesBelow
    unfold pgSize at *
    omega
  have hroom : ∀ k, k < n → lo + k * pgSize + pgSize ≤ hi := by
    intro k hk
    have hmul : (k + 1) * pgSize ≤ n * pgSize := Nat.mul_le_mul_right _ hk
    rw [Nat.succ_mul] at hmul
    omega
  simp only [writeBack, hsh, hw, Bool.and_self, if_true, hip, hround, hn] at h
  obtain ⟨o, hloop, h⟩ := bind_ok h
  have hrun := forRet_inv (FlushedTo p g v ip lo)
    (fun r => ∃ k, k < n ∧ FlushedTo p g v ip lo k r
      ∧ (p.pagetable.entry (lo / pgSize + k)).isSome = true
      ∧ u32 (v.fileOff (lo + k * pgSize)) = (g.dinode ip).size)
    .start (fun k hk t t' hP hf => hP.turn hmod hsize (hroom k hk) hspan hf)
    (fun k hk t r hP hf => by
      rcases writeBackPage_turn hP.only hsize rfl (hroom k hk) hf with
        ⟨_, heq⟩ | ⟨e, he, ⟨hat, heq⟩ | ⟨_, _, heq, _⟩⟩
      · cases heq
      · cases heq
        refine ⟨k, hk, hP, ?_, hat⟩
        rw [← page_add lo k, he]
        rfl
      · cases heq) hloop
  rcases hrun with ⟨t, rfl, ht⟩ | ⟨t, rfl, k, hk, ht, hs, hat⟩
  · cases h
    refine ⟨ht.only, hend ▸ ht.bytes, ht.valid.trans (or_congr Iff.rfl ?_)⟩
    constructor
    · rintro ⟨j, hj, hsj⟩
      exact ⟨j, hj, hsj, fun i hi => ht.inside i (by omega)⟩
    · rintro ⟨j, hj, hsj, _⟩
      exact ⟨j, hj, hsj⟩
  cases h
  refine ⟨ht.only, ?_, ht.valid.trans (or_congr Iff.rfl ?_)⟩
  · -- positions from here on are not below the size
    have hmul := hroom k hk
    have hmax : maxFile * bsize < 2 ^ 31 := by decide
    refine ht.bytes.extend ?_ fun va hge hlt => .inr ?_
    · have := Nat.mul_le_mul_right pgSize hk.le
      omega
    have hslide := v.fileOff_slide (pgRoundDown va) (lo + k * pgSize)
    unfold Vma.writePos u32 at *
    unfold pgRoundDown at *
    unfold pgSize at *
    omega
  · constructor
    · rintro ⟨j, hj, hsj⟩
      exact ⟨j, by omega, hsj, fun i hi => ht.inside i (by omega)⟩
    · rintro ⟨j, hj, hsj, hne⟩
      refine ⟨j, ?_, hsj⟩
      by_contra hge
      exact hne k (by omega) hs hat

-- == the close

theorem munmapPages_itable {s s' : Proc × Glob} (h : forUpto (munmapPage v lo) n s = .ok s') :
    s'.2.itable = s.2.itable := by
  refine forUpto_inv (fun _ t => t.2.itable = s.2.itable) rfl ?_ h
  intro k _ t t' hP hk
  rw [← hP]
  rcases munmapPage_turn hk with ⟨_, rfl⟩ | ⟨e, _, ⟨_, g1, _, _, hd, _, rfl⟩ | ⟨_, _, _, _, rfl⟩⟩
  · rfl
  · obtain ⟨⟨tab, ph⟩, _, hd⟩ := bind_ok hd
    cases hd
    rfl
  · rfl

/-- The close drops the last reference to the inode of a file without
links: iput frees it. -/
def LastClose (g : Glob) (f ip : Nat) : Prop :=
  (g.ftable f).ref = 1 ∧ (g.itable ip).ref = 1
    ∧ (g.itable ip).valid = true ∧ (g.dinode ip).nlink = 0

theorem iput_last (h : (g.itable ip).ref = 1 ∧ (g.itable ip).valid = true
    ∧ (g.dinode ip).nlink = 0) : ((iput g ip).disk (g.itable ip).inum).size = 0 := by
  unfold iput
  rw [if_pos h]
  simp only [Glob.setInode, Glob.setDisk, itrunc, Glob.dinode, if_true]

theorem fileclose_disk {f : Nat}
    (htype : (g.ftable f).type = .inode) (hip : (g.ftable f).ip = some ip)
    (h : fileclose g f = .ok g') :
    (LastClose g f ip → (g'.disk (g.itable ip).inum).size = 0)
      ∧ (¬ LastClose g f ip → g'.disk = g.disk) := by
  cases fileclose_closed h with
  | more href =>
    refine ⟨fun hlast => ?_, fun _ => rfl⟩
    have := hlast.1
    omega
  | inode href _ hip' =>
    cases hip.symm.trans hip'
    refine ⟨fun hlast => iput_last hlast.2, fun hno => ?_⟩
    unfold iput
    rw [if_neg]
    · rfl
    · exact fun hc => hno ⟨href, hc⟩
  | pipe _ ht => cases htype.symm.trans ht
  | none _ ht => cases htype.symm.trans ht

end

/-- sys_munmap of a page-aligned start and any length. The file holds the
bytes of the range exactly when every resident byte that the loop leaves
out, on the last, partial page, or that writei puts elsewhere, as its
position does not fit in a uint, was in the file already, and the call does
not drop the last reference to a file without links (or the file was
empty). -/
theorem munmap_writes_back_iff {p p' : Proc} {g g' : Glob}
    {addr len i f ip : Nat}
    (hhold : vmaHolding p addr (addr + len) = some i)
    (hstop : (p.vma i).stop < 2 ^ 64) (haddr : addr % pgSize = 0)
    (hlen : 0 < len ∧ len < 2 ^ 31)
    (hsh : hasBit (p.vma i).flags mapShared = true)
    (hw : hasBit (p.vma i).prot protWrite = true)
    (hf : (p.vma i).file = some f) (htype : (g.ftable f).type = .inode)
    (hip : (g.ftable f).ip = some ip)
    (hsize : (g.dinode ip).size ≤ maxFile * bsize)
    (h : sysMunmap p g addr (len : Nat) = .ok (0, p', g')) :
    WrittenBack p g (p.vma i) ip addr (addr + len)
        (g'.disk (g.itable ip).inum)
      ↔ (∀ va b, addr ≤ va → va < addr + len → memAt p g va = some b →
          ¬ (va < pgRoundDown (addr + len)
            ∧ (p.vma i).writePos va = (p.vma i).fileOff va) →
          ((p.vma i).fileOff va < (g.dinode ip).size →
            (g.dinode ip).data ((p.vma i).fileOff va) = b)
          ∧ (va < pgRoundDown (addr + len) →
            (p.vma i).writePos va < (g.dinode ip).size →
            (g.dinode ip).data ((p.vma i).writePos va) = b))
        ∧ ¬ ((p.vma i).start = addr ∧ (p.vma i).stop = addr + len
          ∧ (g.ftable f).ref = 1 ∧ (g.itable ip).ref = 1
          ∧ (g.dinode ip).nlink = 0 ∧ (g.dinode ip).size ≠ 0
          ∧ ((g.itable ip).valid = true ∨ LoopLocks p (p.vma i) addr
            (pagesBelow addr (pgRoundDown (addr + len)))
            (g.dinode ip).size)) := by
  obtain ⟨_, _, hlo, hhi⟩ := vmaHolding_some hhold
  have hu : u64 ((addr : Int) + (len : Nat)) = addr + len :=
    u64_of_lt (by omega) (by omega)
  have hshared : (p.vma i).isShared = true := by
    unfold Vma.isShared
    rw [hsh, hf]
    rfl
  have hvip : g.vmaIp (p.vma i) = some ip := by
    unfold Glob.vmaIp
    rw [hf]
    exact hip
  rcases sysMunmap_cases h with
    ⟨_, _, hr⟩ | ⟨j, p₁, g₁, g₂, _, hj, hwb, hloop, hclose, _⟩
  · cases hr
  rw [hu] at hj hwb hloop hclose
  cases hhold.symm.trans hj
  obtain ⟨hon, hbytes, hvalid⟩ := writeBack_bytes hshared hw hvip haddr
    (Nat.le_add_right _ _) (by omega) hsize hwb
  have hquiet := (munmapPages_frame hloop).2
  have hit := munmapPages_itable hloop
  have hd₂ : g₂.dinode ip = g₁.dinode ip := by
    unfold Glob.dinode
    rw [hquiet.disk, hit]
  have hinum : (g₂.itable ip).inum = (g.itable ip).inum := by
    rw [hit]
    exact hon.inum
  have hlast : LastClose g₂ f ip ↔ (g.ftable f).ref = 1
      ∧ (g.itable ip).ref = 1 ∧ (g.dinode ip).nlink = 0
      ∧ ((g.itable ip).valid = true ∨ LoopLocks p (p.vma i) addr
        (pagesBelow addr (pgRoundDown (addr + len))) (g.dinode ip).size) := by
    unfold LastClose
    rw [hquiet.ftable, hon.ftable, hit, hon.ref, hd₂, hon.dinode]
    tauto
  have hclosed : (((p.vma i).start = addr ∧ (p.vma i).stop = addr + len)
        ∧ LastClose g₂ f ip → (g'.disk (g.itable ip).inum).size = 0)
      ∧ (¬ (((p.vma i).start = addr ∧ (p.vma i).stop = addr + len)
        ∧ LastClose g₂ f ip) → g'.disk (g.itable ip).inum = g₁.dinode ip) := by
    have hkeep : g₂.disk (g.itable ip).inum = g₁.dinode ip := by
      rw [← hinum]
      exact hd₂
    rcases closeWhole_cases hclose with ⟨hpart, rfl⟩ | ⟨hwhole, f', hf', hclose⟩
    · exact ⟨fun hc => absurd hc.1 hpart, fun _ => hkeep⟩
    cases hf.symm.trans hf'
    obtain ⟨hgone, hstays⟩ := fileclose_disk
      (by rw [hquiet.ftable, hon.ftable]; exact htype)
      (by rw [hquiet.ftable, hon.ftable]; exact hip) hclose
    rw [hinum] at hgone
    refine ⟨fun hc => hgone hc.2, fun hno => ?_⟩
    rw [hstays fun hc => hno ⟨hwhole, hc⟩]
    exact hkeep
  by_cases hgone : ((p.vma i).start = addr ∧ (p.vma i).stop = addr + len)
      ∧ LastClose g₂ f ip
  · -- the file is gone: it had no bytes, or it lost them
    have hzero := hclosed.1 hgone
    obtain ⟨⟨hs, he⟩, hc⟩ := hgone
    obtain ⟨h₁, h₂, h₃, h₄⟩ := hlast.mp hc
    constructor
    · intro hback
      have hsz : (g.dinode ip).size = 0 := hback.size.symm.trans hzero
      refine ⟨fun va b _ _ _ _ => ⟨?_, ?_⟩, fun hno => hno.2.2.2.2.2.1 hsz⟩ <;>
        omega
    rintro ⟨_, hno⟩
    have hsz : (g.dinode ip).size = 0 := by
      by_contra hne
      exact hno ⟨hs, he, h₁, h₂, h₃, hne, h₄⟩
    refine ⟨hzero.trans hsz.symm, fun va b _ _ _ => ?_, fun pos => ?_⟩ <;>
      omega
  · rw [hclosed.2 hgone]
    have hno : ¬ ((p.vma i).start = addr ∧ (p.vma i).stop = addr + len
        ∧ (g.ftable f).ref = 1 ∧ (g.itable ip).ref = 1
        ∧ (g.dinode ip).nlink = 0 ∧ (g.dinode ip).size ≠ 0
        ∧ ((g.itable ip).valid = true ∨ LoopLocks p (p.vma i) addr
          (pagesBelow addr (pgRoundDown (addr + len)))
          (g.dinode ip).size)) := by
      rintro ⟨hs, he, h₁, h₂, h₃, _, h₄⟩
      exact hgone ⟨⟨hs, he⟩, hlast.mpr ⟨h₁, h₂, h₃, h₄⟩⟩
    refine (hbytes.moved_iff (pgRoundDown_le _) ?_).trans
      (and_iff_left hno).symm
    intro va va' h₁ h₂ h₃ h₄ heq
    have hslide := (p.vma i).writePos_slide va va'
    omega

set_option maxRecDepth 10000

/-- A byte is stored in the first of two pages, and that page unmapped. -/
theorem munmap_writes_back_boot : ∃ k p' g',
    runAs bootKernel 1 [.mmap 0 8192 3 1 0 0, .store 0x40000000 0xAA] = .ok k
      ∧ sysMunmap (k.proc 1) k.glob 0x40000000 4096 = .ok (0, p', g')
      ∧ WrittenBack (k.proc 1) k.glob ((k.proc 1).vma 0) 0 0x40000000
        0x40001000 (g'.disk 2)
      ∧ (g'.disk 2).data 0 = 0xAA := by
  have hrun : ∃ k p' g', runAs bootKernel 1
        [.mmap 0 8192 3 1 0 0, .store 0x40000000 0xAA] = .ok k
      ∧ sysMunmap (k.proc 1) k.glob 0x40000000 (4096 : Nat) = .ok (0, p', g')
      ∧ vmaHolding (k.proc 1) 0x40000000 (0x40000000 + 4096) = some 0
      ∧ (k.proc 1).vma 0 = ⟨0x40000000, 0x40002000, true, 8192, 3, 1, 0,
          some 0, 0⟩
      ∧ (k.glob.ftable 0).type = .inode ∧ (k.glob.ftable 0).ip = some 0
      ∧ (k.glob.itable 0).inum = 2 ∧ (k.glob.dinode 0).size = 8192
      ∧ memAt (k.proc 1) k.glob 0x40000000 = some 0xAA :=
    ⟨_, _, _, rfl, rfl, rfl, rfl, rfl, rfl, rfl, rfl, rfl⟩
  obtain ⟨k, p', g', hk, hm, hhold, hv, htype, hip, hinum, hsize, hmem⟩ := hrun
  have hin : ∀ va, 0x40000000 ≤ va → va < 0x40000000 + 4096 →
      va < pgRoundDown (0x40000000 + 4096) ∧
        ((k.proc 1).vma 0).writePos va = ((k.proc 1).vma 0).fileOff va := by
    intro va h₁ h₂
    rw [hv]
    simp only [Vma.writePos, Vma.fileOff, pgRoundDown, pgSize, u32, u64]
    omega
  have hback := (munmap_writes_back_iff hhold (by rw [hv]; decide) (by decide)
    (by decide) (by rw [hv]; rfl) (by rw [hv]; rfl) (by rw [hv]) htype hip
    (by rw [hsize]; decide) hm).mpr
    ⟨fun va b h₁ h₂ _ hno => absurd (hin va h₁ h₂) hno,
    fun hno => absurd hno.2.1 (by rw [hv]; decide)⟩
  rw [hinum] at hback
  refine ⟨k, p', g', hk, hm, hback, ?_⟩
  have hoff : ((k.proc 1).vma 0).fileOff 0x40000000 = 0 := by
    rw [hv]
    rfl
  have := hback.range 0x40000000 0xAA (by decide) (by decide) hmem
    (by rw [hoff, hsize]; decide)
  rw [hoff] at this
  exact this

/-- The same byte, and a range that ends inside its page: sys_munmap
returns 0, drops the page, and the file has the old byte. -/
theorem munmap_tail_not_written : ∃ k,
    Runs (fun _ _ _ => True) bootKernel k ∧ ∃ p' g',
      sysMunmap (k.proc 1) k.glob 0x40000000 100 = .ok (0, p', g')
      ∧ memAt (k.proc 1) k.glob 0x40000000 = some 0xAA
      ∧ (k.glob.dinode 0).size = 8192
      ∧ p'.pagetable.entry (0x40000000 / pgSize) = none
      ∧ (g'.disk 2).data 0 = 2 :=
  have hr := (Runs.step .refl 1 (.mmap 0 8192 3 1 0 0) (by decide) rfl trivial
    rfl).step 1 (.store 0x40000000 0xAA) (by decide) rfl trivial rfl
  ⟨_, hr, _, _, rfl, rfl, rfl, rfl, rfl⟩

end Xv6Labs.Model
