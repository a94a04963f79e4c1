/-
What a file mapping shows when it is touched first.

The first load of a page that no process has resident gives the file's
byte at the distance of the address from the start of the mapping
(`firstLoad_byte`); this is the byte the caller asked for when the offset
is 0, since sys_mmap stores 0 (`mapped_bytes_iff`).
-/
import Xv6Labs.Proofs.Copyin
import Xv6Labs.Proofs.Tally

namespace Xv6Labs.Model

variable {ph ph' : Phys} {g : Glob} {f i ip j : Nat} {p : Proc}

open Lib

-- == fresh pages

/-- The free list of a running kernel: every page once, page-aligned,
none at address 0. -/
structure Phys.Sound (ph : Phys) : Prop where
  nodup : ph.freelist.Nodup
  aligned : ∀ r ∈ ph.freelist, r % pgSize = 0
  nonzero : 0 ∉ ph.freelist

theorem Phys.Takes.sound (h : ph.Takes ph') (hs : ph.Sound) : ph'.Sound := by
  obtain ⟨l, hl⟩ := h.suffix
  have hmem : ∀ r ∈ ph'.freelist, r ∈ ph.freelist := fun r hr => hl ▸ List.mem_append_right l hr
  exact ⟨(List.nodup_append.mp (hl ▸ hs.nodup)).2.1,
    fun r hr => hs.aligned r (hmem r hr), fun h0 => hs.nonzero (hmem 0 h0)⟩

/-- An allocation leaves the pages alone that are not free. -/
theorem Phys.Takes.page (h : ph.Takes ph') (hs : ph.Sound)
    {pa : Nat} (hpa : pa % pgSize = 0) (hnot : pa ∉ ph.freelist)
    (hj : j < pgSize) : ph'.mem (pa + j) = ph.mem (pa + j) := by
  refine h.mem _ fun r hr hon => hnot ?_
  have hmod := hs.aligned r hr
  obtain ⟨hlo, hhi⟩ := hon
  have : pa = r := by
    unfold pgSize at *
    omega
  exact this ▸ hr

theorem Phys.Sound.taken (hs : ph.Sound) {mem : Nat}
    (hc : ∀ x, ph'.freelist.count x + points (some mem) x
      = ph.freelist.count x) : mem ∉ ph'.freelist := by
  intro hm
  have h1 := List.nodup_iff_count_le_one.mp hs.nodup mem
  have h2 := hc mem
  have h3 := List.count_pos_iff.mpr hm
  rw [points_some, if_pos rfl] at h2
  omega

-- == the file's page

/-- Byte `x` of a file as a reader sees it: 0 past the end. -/
def Dinode.byteAt (d : Dinode) (x : Nat) : UInt8 := if x < d.size then d.data x else 0

/-- A page of a file whose position fits a `uint`. -/
theorem pageByte_eq {d : Dinode} {off : Nat} (hoff : off + pgSize < 2 ^ 32)
    (hj : j < pgSize) : d.pageByte off j = d.byteAt (off + j) := by
  have hu : ∀ x : Nat, x < 2 ^ 32 → u32 (x : Int) = x := by
    intro x hx
    unfold u32
    omega
  have hsum : u32 ((off : Int) + (pgSize : Nat)) = off + pgSize := by
    exact hu (off + pgSize) hoff
  unfold Dinode.pageByte Dinode.byteAt readLen
  rw [hu off (by omega)]
  by_cases hlt : off + j < d.size
  · rw [if_pos hlt, if_pos]
    rw [if_neg (by omega)]
    split <;> omega
  rw [if_neg hlt, if_neg]
  split
  · omega
  · rw [if_pos (by omega)]
    omega

/-- An inode slot ilock accepts. -/
def Glob.Lockable (g : Glob) (ip : Nat) : Prop := 1 ≤ (g.itable ip).ref ∧ (g.dinode ip).type ≠ .free

theorem ilock_total (h : g.Lockable ip) : ∃ g', ilock g ip = .ok g' := by
  unfold ilock
  rw [if_neg (by have := h.1; omega)]
  cases hv : (g.itable ip).valid with
  | true => exact ⟨g, rfl⟩
  | false =>
    simp only [Bool.false_eq_true, if_false, h.2]
    exact ⟨_, rfl⟩

theorem fillPage_total (off : Nat)
    (hl : g.Lockable ip) (hmem : 0 < g.phys.freelist.length) :
    ∃ mem g', fillPage g (some ip) off = .ok (some mem, g')
      ∧ g'.phys.freelist.length + 1 = g.phys.freelist.length := by
  obtain ⟨mem, ph, halloc, hlen⟩ := kalloc_of_pos hmem
  have hlock : ({ g with phys := ph.zero mem } : Glob).Lockable ip := hl
  obtain ⟨g1, h1⟩ := ilock_total hlock
  refine ⟨mem, (readi g1 ip mem off pgSize).2, ?_, ?_⟩
  · simp only [fillPage, halloc, h1, ok_bind, pure_eq]
  · rw [← hlen]
    show g1.phys.freelist.length + 1 = _
    rw [(ilock_memory h1).1]
    rfl

-- == the fault

/-- The first touch of a page of the file mapping in slot `i`: nobody has
the page, and there is memory for the page, its entry and two tables. -/
structure FirstTouch (p : Proc) (g : Glob) (i f ip va : Nat) : Prop where
  below : va ≤ p.curVmaStart
  bound : va < maxVa
  slot : vmaAt p va = some i
  file : (p.vma i).file = some f
  inode : (g.ftable f).ip = some ip
  lockable : g.Lockable ip
  absent : p.pagetable.entry (va / pgSize) = none
  unregistered : g.shared.lookup (some ip) ((p.vma i).fileOff (pgRoundDown va)) = none
  memory : 4 ≤ g.phys.freelist.length
  sound : g.phys.Sound

section

variable {p : Proc} {g : Glob} {i f ip va : Nat}

theorem FirstTouch.vmaIp (h : FirstTouch p g i f ip va) : g.vmaIp (p.vma i) = some ip := by
  rw [Glob.vmaIp, h.file]
  exact h.inode

/-- The page is taken from the free list and mapped. -/
theorem FirstTouch.handled (h : FirstTouch p g i f ip va) (hbase : mmapBase ≤ va) (read : Bool)
    (hallow : (p.vma i).allows read = true) :
    ∃ r p' g', vmfault p g va read = .ok (r, p', g') ∧ r ≠ 0 := by
  have hround := (pgRoundDown_le va).trans_lt h.bound
  have hwalk : walkValid p.pagetable (pgRoundDown va) = .ok none := by
    rw [walkValid_entry hround, roundDown_div, h.absent]
  have hentry : p.pagetable.entry (pgRoundDown va / pgSize) = none := by
    rw [roundDown_div]
    exact h.absent
  obtain ⟨mem, g1, hfill, hlen1⟩ := fillPage_total
    ((p.vma i).fileOff (pgRoundDown va)) h.lockable (by have := h.memory; omega)
  obtain ⟨hsh, _, _, hpage⟩ := fillPage_spec hfill
  have hne : mem ≠ 0 := by
    rintro rfl
    exact h.sound.nonzero (hpage 0 rfl).1
  have hmem := h.memory
  rw [vmfault_inMmap ⟨hbase, h.below⟩]
  simp only [lazyMmap, h.slot, hwalk, ok_bind, hallow, if_true]
  cases hs : (p.vma i).isShared with
  | true =>
    obtain ⟨self, ph, halloc, hlen2⟩ := kalloc_of_pos (show 0 < g1.phys.freelist.length by omega)
    have hl1 := h.unregistered
    rw [← hsh] at hl1
    obtain ⟨pt', ph', hmap⟩ := mappages_total mem (p.vma i).perm hround (pgRoundDown_mod va) hentry
      (show 2 ≤ ph.freelist.length by omega)
    have hlazy : ∃ g', lazyShared p.pagetable g (p.vma i) (pgRoundDown va)
        = .ok (mem, pt', g') := by
      simp only [lazyShared, faultLookup, h.vmaIp, h.unregistered, hfill,
        ok_bind, faultInsert, sharedGetOrCreate, hl1, halloc, faultMap,
        hwalk, hmap, if_true, pure_eq]
      exact ⟨_, rfl⟩
    obtain ⟨g', hlazy⟩ := hlazy
    simp only [if_true, hlazy, ok_bind, pure_eq]
    exact ⟨mem, _, g', rfl, hne⟩
  | false =>
    obtain ⟨pt', ph', hmap⟩ := mappages_total mem (p.vma i).perm hround (pgRoundDown_mod va) hentry
      (show 2 ≤ g1.phys.freelist.length by omega)
    have hlazy : ∃ g', lazyPrivate p.pagetable g (p.vma i) (pgRoundDown va)
        = .ok (mem, pt', g') := by
      simp only [lazyPrivate, privatePage, h.file, h.vmaIp, hfill, ok_bind,
        hwalk, hmap, if_true, pure_eq]
      exact ⟨_, rfl⟩
    obtain ⟨g', hlazy⟩ := hlazy
    simp only [Bool.false_eq_true, if_false, hlazy, ok_bind, pure_eq]
    exact ⟨mem, _, g', rfl, hne⟩

/-- The page that is supplied is off the free list and holds the file's
page. -/
theorem FirstTouch.supplied (h : FirstTouch p g i f ip va) {r : Nat}
    {g1 : Glob} (hsup : Supplied g (p.vma i) (pgRoundDown va) r g1) :
    g1.phys.Sound ∧ r ∉ g1.phys.freelist ∧ r % pgSize = 0
      ∧ ∀ j, j < pgSize → g1.phys.mem (r + j) = (g.dinode ip).pageByte
        ((p.vma i).fileOff (pgRoundDown va)) j := by
  have hfilled : ∀ {g1 : Glob},
      fillPage g (some ip) ((p.vma i).fileOff (pgRoundDown va)) = .ok (some r, g1) →
      g1.phys.Sound ∧ r ∉ g1.phys.freelist ∧ r % pgSize = 0
        ∧ ∀ j, j < pgSize → g1.phys.mem (r + j) = (g.dinode ip).pageByte
          ((p.vma i).fileOff (pgRoundDown va)) j := by
    intro g1 hfill
    obtain ⟨_, htake, hcount, hpage⟩ := fillPage_spec hfill
    obtain ⟨hmem, ip', hip, hbytes⟩ := hpage r rfl
    cases hip
    exact ⟨htake.sound h.sound, h.sound.taken hcount, h.sound.aligned r hmem, hbytes⟩
  cases hsup with
  | hit hs hl =>
    rw [h.vmaIp, h.unregistered] at hl
    cases hl
  | miss hs hl hfill hself =>
    rw [h.vmaIp] at hfill
    obtain ⟨hsound, hnot, hmod, hbytes⟩ := hfilled hfill
    obtain ⟨hlist, htake⟩ := kalloc_some hself
    refine ⟨htake.sound hsound, fun hin => hnot ?_, hmod, fun j hj => ?_⟩
    · rw [hlist]
      exact List.mem_cons_of_mem _ hin
    · exact (htake.page hsound hmod hnot hj).trans (hbytes j hj)
  | own hs hpage =>
    simp only [privatePage, h.file, h.vmaIp] at hpage
    exact hfilled hpage

/-- The first load of a page. -/
theorem firstTouch_load (h : FirstTouch p g i f ip va) (hbase : mmapBase ≤ va)
    (hread : hasBit (p.vma i).prot protRead = true) :
    ∃ p' g', userLoad p g va = .ok (some ((g.dinode ip).pageByte
      ((p.vma i).fileOff (pgRoundDown va)) (va % pgSize)), p', g') := by
  obtain ⟨r, p', g', hf, hr⟩ := h.handled hbase true hread
  have hno : userPte p va true = none := by
    rw [userPte_entry h.bound, h.absent]
    rfl
  obtain ⟨hva, hh⟩ := vmfault_handled hf hr
  have hent : p'.pagetable.entry (va / pgSize) = some ⟨r, (p.vma i).perm⟩ := by
    rcases hh.entries hva with ⟨_, _, he, _⟩ | ⟨perm, _, hnew, hcase⟩
    · rw [h.absent] at he
      cases he
    rw [hnew, if_pos rfl]
    rcases hcase with ⟨_, j, hj, _, rfl⟩ | ⟨hout, _⟩
    · rw [h.slot] at hj
      cases hj
      rfl
    · exact absurd ⟨hbase, h.below⟩ hout
  have hyes : userPte p' va true = some ⟨r, (p.vma i).perm⟩ := by
    rw [userPte_entry hva, hent, Option.filter_some]
    simp [Pte.grants, Vma.perm, hread]
  have hbyte : g'.phys.mem (r + va % pgSize) = (g.dinode ip).pageByte
      ((p.vma i).fileOff (pgRoundDown va)) (va % pgSize) := by
    have hj : va % pgSize < pgSize := Nat.mod_lt _ (by decide)
    cases hh with
    | resident _ _ he =>
      rw [h.absent] at he
      cases he
    | mapped hin hat hnone hallow hsup hmap =>
      rw [h.slot] at hat
      cases hat
      obtain ⟨hsound, hnot, hmod, hbytes⟩ := h.supplied hsup
      have hlt : pgRoundDown va < 2 ^ 64 := by
        have := (pgRoundDown_le va).trans_lt hva
        unfold maxVa at this
        omega
      obtain ⟨_, _, htake, _⟩ := mappages_entry hlt hmap
      exact (htake.page hsound hmod hnot hj).trans (hbytes _ hj)
    | heap hout => exact absurd ⟨hbase, h.below⟩ hout
  refine ⟨p', g', ?_⟩
  simp only [userLoad, userAccess, hno, hf, ok_bind, if_neg hr, hyes, pure_eq, hbyte]

end

-- == after sys_mmap

/-- The byte the first load gives: the one at the distance of the address
from the start of the mapping. -/
theorem firstLoad_byte {p2 : Proc} {g2 : Glob} {len fd : Int}
    {prot flags : UInt32} {fo : Option Nat} {k : Nat}
    (hv : p2.vma i = newVma p len prot flags fd fo)
    (hmod : p.curVmaStart % pgSize = 0) (hbase : mmapBase ≤ p.curVmaStart)
    (htop : mmapEnd p len < mmapTop) (hread : hasBit prot protRead = true)
    (h : FirstTouch p2 g2 i f ip (p.curVmaStart + k)) :
    ∃ p3 g3, userLoad p2 g2 (p.curVmaStart + k) = .ok (some ((g2.dinode ip).byteAt k), p3, g3) := by
  obtain ⟨p3, g3, hload⟩ := firstTouch_load h (by omega) (by
    rw [hv]
    exact hread)
  refine ⟨p3, g3, ?_⟩
  have hstop : p.curVmaStart + k < mmapEnd p len := by
    have hin := (vmaAt_some h.slot).2.2.2
    rw [hv] at hin
    exact hin
  have hoff : (p2.vma i).fileOff (pgRoundDown (p.curVmaStart + k))
      = pgRoundDown (p.curVmaStart + k) - p.curVmaStart := by
    rw [hv]
    dsimp only [Vma.fileOff, newVma]
    refine u64_of_lt ?_ ?_
    · unfold pgRoundDown pgSize at *
      omega
    · unfold mmapTop pgRoundDown pgSize at *
      omega
  have hsmall : pgRoundDown (p.curVmaStart + k) - p.curVmaStart + pgSize < 2 ^ 32 := by
    unfold mmapTop pgRoundDown pgSize at *
    omega
  have hsum : pgRoundDown (p.curVmaStart + k) - p.curVmaStart
      + (p.curVmaStart + k) % pgSize = k := by
    unfold pgRoundDown pgSize at *
    omega
  rw [hload, hoff, pageByte_eq hsmall (Nat.mod_lt _ (by decide)), hsum]

/-- A later state in which the file is the one byte 1 and nothing else is
mapped. -/
def oneByteGlob (g : Glob) (f : Nat) : Glob :=
  { g with
    phys := { g.phys with freelist := [0x1000, 0x2000, 0x3000, 0x4000] }
    shared := { g.shared with buckets := fun _ => [] }
    ftable := fun j => if j = f then bootOpen 0 else g.ftable j
    itable := fun _ => ⟨1, 1, 1, true⟩
    disk := fun _ => { bootProgram with size := 1, data := fun _ => 1 } }

/-- The process of such a state: only the mapping in slot `i`. -/
def onlySlot (p : Proc) (i : Nat) : Proc :=
  { p with
    pagetable := .empty 0, sz := 0,
    vma := fun j => if j = i then p.vma i else .zero }

theorem onlySlot_firstTouch (hi : i < nvma)
    (hv : (p.vma i).valid = true) (hlt : (p.vma i).start < (p.vma i).stop)
    (hstop : (p.vma i).stop ≤ p.curVmaStart) (hcur : p.curVmaStart < mmapTop)
    (hf : (p.vma i).file = some f) :
    FirstTouch (onlySlot p i) (oneByteGlob g f) i f 0 (p.vma i).start where
  below := hlt.le.trans hstop
  bound := by
    unfold mmapTop at hcur
    unfold maxVa
    omega
  slot := by
    refine List.find?_range_eq_some.mpr ⟨?_, List.mem_range.mpr hi, ?_⟩
    · simp [onlySlot, hv, hlt]
    · intro j hj
      simp [onlySlot, Nat.ne_of_lt hj, Vma.zero]
  file := by simp [onlySlot, hf]
  inode := by simp [oneByteGlob, bootOpen]
  lockable := ⟨Int.le_refl 1, by simp [oneByteGlob, Glob.dinode, bootProgram]⟩
  absent := rfl
  unregistered := rfl
  memory := Nat.le_refl 4
  sound := ⟨by simp [oneByteGlob], by simp [oneByteGlob, pgSize], by simp [oneByteGlob]⟩

/-- Every first load from a new mapping gives the byte at the requested
offset exactly when that offset is 0 and the mapping lies in the mmap
area (or is empty, and there is nothing to load). -/
theorem mapped_bytes_iff {p p₁ : Proc} {g g₁ : Glob} {addr offset a f : Nat}
    {prot flags : UInt32} (len fd : Int32)
    (h : sysMmap p g addr len.toInt prot flags fd.toInt offset
      = .ok (a, p₁, g₁)) (ha : a ≠ minusOne)
    (hread : hasBit prot protRead = true)
    (hf : p.ofile fd.toInt.toNat = some f)
    (hcur : p.curVmaStart < mmapTop) (hmod : p.curVmaStart % pgSize = 0) :
    (∀ p₂ g₂ i ip (k : Nat), (k : Int) < len.toInt → freeSlot p = some i →
      p₂.vma i = p₁.vma i → FirstTouch p₂ g₂ i f ip (a + k) →
      (g₂.dinode ip).type = .file →
      ∃ p₃ g₃, userLoad p₂ g₂ (a + k)
        = .ok (some ((g₂.dinode ip).byteAt (offset + k)), p₃, g₃))
    ↔ len.toInt ≤ 0 ∨ mmapBase ≤ p.curVmaStart ∧ offset = 0 := by
  obtain ⟨fo, i, hfo, htop, hi, rfl, rfl⟩ : ∃ fo i,
      ofileAt p fd.toInt = .ok fo ∧ mmapEnd p len.toInt < mmapTop
        ∧ freeSlot p = some i ∧ a = p.curVmaStart
        ∧ p₁ = { p.setVma i (newVma p len.toInt prot flags fd.toInt fo) with
            curVmaStart := mmapEnd p len.toInt } := by
    rcases sysMmap_cases h with
      ⟨_, _, hr⟩ | ⟨fo, i, _, _, hfo, _, htop, hi, _, hr, hp⟩
    · exact absurd hr ha
    · exact ⟨fo, i, hfo, htop, hi, hr, hp⟩
  have hslot := (freeSlot_some hi).1
  have hfo : fo = some f := by
    unfold ofileAt at hfo
    split at hfo
    · cases hfo
      exact hf
    · cases hfo
  subst hfo
  constructor
  · intro hall
    by_contra hno
    rw [not_or, not_and, Int.not_le] at hno
    obtain ⟨hpos, himp⟩ := hno
    obtain ⟨hlt, _⟩ := mmapEnd_of_pos hcur hpos len.toInt_lt
    -- a later state with the one-byte file, and its first byte
    obtain ⟨q, hq⟩ : ∃ q : Proc, q =
        { p.setVma i (newVma p len.toInt prot flags fd.toInt (some f)) with
          curVmaStart := mmapEnd p len.toInt } := ⟨_, rfl⟩
    have hqi : q.vma i = newVma p len.toInt prot flags fd.toInt (some f) := by
      rw [hq]
      exact if_pos rfl
    have hqc : q.curVmaStart = mmapEnd p len.toInt := by rw [hq]
    have htouch : FirstTouch (onlySlot q i) (oneByteGlob g f) i f 0
        (p.curVmaStart + 0) := by
      have := onlySlot_firstTouch (g := g) hslot (by rw [hqi]; rfl)
        (by rw [hqi]; exact hlt) (by rw [hqi, hqc]; exact Nat.le_refl _)
        (by rw [hqc]; exact htop) (by rw [hqi]; rfl)
      rw [hqi] at this
      exact this
    have hvma : (onlySlot q i).vma i
        = newVma p len.toInt prot flags fd.toInt (some f) := by
      rw [← hqi]
      exact if_pos rfl
    obtain ⟨p₃, g₃, hload⟩ := hall (onlySlot q i) (oneByteGlob g f) i 0 0 hpos
      hi (hvma.trans (hqi.symm.trans (by rw [hq]))) htouch rfl
    by_cases hbase : mmapBase ≤ p.curVmaStart
    · -- the load gives 1, and the file has no byte at a nonzero offset
      obtain ⟨p₄, g₄, hone⟩ := firstLoad_byte hvma hmod hbase htop hread htouch
      rw [hone] at hload
      have hoff : offset ≠ 0 := himp hbase
      have hbyte : (oneByteGlob g f |>.dinode 0).byteAt 0
          = (oneByteGlob g f |>.dinode 0).byteAt (offset + 0) :=
        Option.some.inj (congrArg Prod.fst (Except.ok.inj hload))
      simp [Dinode.byteAt, oneByteGlob, Glob.dinode, bootProgram] at hbyte
      exact hoff hbyte
    · -- below the mmap area the fault is not lazy_mmap's
      have hno : userPte (onlySlot q i) (p.curVmaStart + 0) true = none := by
        rw [userPte_entry htouch.bound]
        rfl
      have hfault : vmfault (onlySlot q i) (oneByteGlob g f)
          (p.curVmaStart + 0) true = .ok (0, onlySlot q i, oneByteGlob g f) := by
        unfold vmfault
        rw [if_neg fun hin => hbase hin.1]
        exact if_pos (Nat.zero_le _)
      simp only [userLoad, userAccess, hno, hfault, ok_bind, if_true,
        pure_eq] at hload
      cases hload
  · rintro (hneg | ⟨hbase, rfl⟩) p₂ g₂ j ip k hk hj hv htouch _
    · omega
    · rw [hi] at hj
      cases hj
      rw [Nat.zero_add]
      exact firstLoad_byte (hv.trans (if_pos rfl)) hmod hbase htop hread htouch

set_option maxRecDepth 10000

/-- Byte 5 of a mapping at offset 0. -/
theorem mapped_bytes_boot : ∃ k p₃ g₃,
    runAs bootKernel 1 [.mmap 0 4096 1 2 0 0] = .ok k
      ∧ userLoad (k.proc 1) k.glob 0x40000005 = .ok (some 7, p₃, g₃) := by
  have hrun : ∃ p₁ g₁ k, sysMmap (bootKernel.proc 1) bootKernel.glob 0
        (4096 : Int32).toInt 1 2 (0 : Int32).toInt 0 = .ok (mmapBase, p₁, g₁)
      ∧ runAs bootKernel 1 [.mmap 0 4096 1 2 0 0] = .ok k
      ∧ k.proc 1 = p₁ ∧ k.glob = g₁
      ∧ FirstTouch p₁ g₁ 0 0 0 (mmapBase + 5) ∧ (g₁.dinode 0).type = .file
      ∧ (g₁.dinode 0).byteAt (0 + 5) = 7 :=
    ⟨_, _, _, rfl, rfl, rfl, rfl,
      { below := by decide, bound := by decide, slot := rfl, file := rfl,
        inode := rfl, lockable := ⟨by decide, by decide⟩, absent := rfl,
        unregistered := rfl, memory := by decide,
        sound := ⟨by decide, by decide, by decide⟩ }, rfl, rfl⟩
  obtain ⟨p₁, g₁, k, hmap, hk, rfl, rfl, htouch, htype, hbyte⟩ := hrun
  obtain ⟨p₃, g₃, hload⟩ := (mapped_bytes_iff 4096 0 hmap (by decide)
    (by decide) rfl (by decide) (by decide)).mpr
      (.inr ⟨Nat.le_refl _, rfl⟩) _ _ 0 0 5 (by decide) rfl rfl htouch htype
  rw [hbyte] at hload
  exact ⟨k, p₃, g₃, hk, hload⟩

/-- A mapping of a two-page file from its end on: every byte should be 0,
and the first load gives the first byte of the file. -/
theorem mapped_offset_lost : ∃ p₁ g₁ p₃ g₃,
    sysMmap (bootKernel.proc 1) bootKernel.glob 0 4096 1 2 0 8192
        = .ok (mmapBase, p₁, g₁)
      ∧ userLoad p₁ g₁ mmapBase = .ok (some 2, p₃, g₃)
      ∧ (g₁.dinode 0).byteAt (8192 + 0) = 0 :=
  ⟨_, _, _, _, rfl, rfl, rfl⟩

end Xv6Labs.Model
