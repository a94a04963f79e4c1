/-
A directory is a finite map from names to inode numbers.

`Entry` and `Binds` read the map off the bytes of the file; `IsDir` is what
every directory keeps: whole entries, and no name twice. One entry is
written at a time, and `entry_put` says what that does to the others.
-/
import Xv6Labs.Model.Boot
import Xv6Labs.Model.Strings
import Xv6Labs.Proofs.Inodes

namespace Xv6Labs.Model

open Lib

variable {blocks dev i inum ip n : Nat} {name : List UInt8} {d : Dinode}
  {g' : Glob}

-- == the map of names

/-- Entry `n` of a directory gives `name` the inode number `inum`. -/
def Dinode.Entry (d : Dinode) (n : Nat) (name : List UInt8) (inum : Nat) : Prop :=
  n < direntCount d ∧ direntInum d (n * direntSize) = inum ∧ inum ≠ 0
    ∧ direntName d (n * direntSize) = name

/-- The map that a directory stores. -/
def Dinode.Binds (d : Dinode) (name : List UInt8) (inum : Nat) : Prop := ∃ n, d.Entry n name inum

/-- What every directory keeps. -/
structure Dinode.IsDir (d : Dinode) : Prop where
  type : d.type = .dir
  whole : d.size % direntSize = 0
  small : d.size ≤ maxFile * bsize
  unique : ∀ {n m name i j}, d.Entry n name i → d.Entry m name j → n = m

/-- The file after 16 bytes were written over entry `n`. -/
def Dinode.put (d : Dinode) (n : Nat) (src : Nat → UInt8) : Dinode :=
  { d with size := max d.size (n * direntSize + direntSize),
           data := memput d.data (n * direntSize) direntSize src }

section
variable {d : Dinode} {n m : Nat} {src : Nat → UInt8}
variable {nm : List UInt8}

theorem Dinode.IsDir.size_eq (h : d.IsDir) : d.size = direntCount d * direntSize := by
  have := h.whole
  simp only [direntCount, direntSize] at this ⊢
  omega

theorem put_data_self (hi : i < direntSize) : (d.put n src).data (n * direntSize + i) = src i := by
  refine (if_pos ⟨by omega, by omega⟩).trans ?_
  rw [Nat.add_sub_cancel_left]

theorem direntInum_put_self :
    direntInum (d.put n src) (n * direntSize) = (src 0).toNat + 256 * (src 1).toNat := by
  have h0 : (d.put n src).data (n * direntSize) = src 0 := put_data_self (i := 0) (by decide)
  have h1 : (d.put n src).data (n * direntSize + 1) = src 1 := put_data_self (by decide)
  rw [direntInum, h0, h1]

theorem put_data_of_ne (hne : m ≠ n) (hi : i < direntSize) :
    (d.put n src).data (m * direntSize + i) = d.data (m * direntSize + i) := by
  refine if_neg fun hin => hne ?_
  simp only [direntSize] at hin hi
  omega

theorem direntInum_put_of_ne (hne : m ≠ n) :
    direntInum (d.put n src) (m * direntSize) = direntInum d (m * direntSize) := by
  have h0 : (d.put n src).data (m * direntSize) = d.data (m * direntSize) :=
    put_data_of_ne (i := 0) hne (by decide)
  have h1 : (d.put n src).data (m * direntSize + 1)
      = d.data (m * direntSize + 1) := put_data_of_ne hne (by decide)
  rw [direntInum, direntInum, h0, h1]

theorem direntName_put_of_ne (hne : m ≠ n) :
    direntName (d.put n src) (m * direntSize) = direntName d (m * direntSize) := by
  refine congrArg cutName (List.map_congr_left fun i hi => ?_)
  rw [Nat.add_assoc]
  refine put_data_of_ne hne ?_
  have := List.mem_range.mp hi
  simp only [dirSiz, direntSize] at this ⊢
  omega

theorem direntCount_put (h : d.IsDir) (hn : n ≤ direntCount d) :
    direntCount (d.put n src) = max (direntCount d) (n + 1) := by
  have := h.size_eq
  simp only [direntCount, direntSize, Dinode.put] at this hn ⊢
  omega

/-- What a written entry does to the map: the other entries are as they
were. -/
theorem entry_put (h : d.IsDir) (hn : n ≤ direntCount d) :
    (d.put n src).Entry m name i ↔
      if m = n then direntInum (d.put n src) (n * direntSize) = i ∧ i ≠ 0
        ∧ direntName (d.put n src) (n * direntSize) = name
      else d.Entry m name i := by
  rw [Dinode.Entry, direntCount_put h hn]
  by_cases hm : m = n
  · subst hm
    rw [if_pos rfl]
    exact and_iff_right (by omega)
  · rw [if_neg hm, direntInum_put_of_ne hm, direntName_put_of_ne hm]
    exact and_congr_left' (by omega)

-- == entry bytes

theorem direntInum_put_dirent (hi : inum < 65536) :
    direntInum (d.put n (direntByte inum name)) (n * direntSize) = inum := by
  rw [direntInum_put_self, direntByte, direntByte, if_pos rfl,
    if_neg (by decide), if_pos rfl, UInt8.toNat_ofNat', UInt8.toNat_ofNat']
  omega

theorem direntName_put_dirent :
    direntName (d.put n (direntByte inum name)) (n * direntSize) = cutName name := by
  have hbytes : ∀ i, i < dirSiz →
      (d.put n (direntByte inum name)).data (n * direntSize + 2 + i) = cstr (cutName name) i := by
    intro i hi
    have hin : i + 2 < direntSize := Nat.add_lt_add_right hi 2
    rw [Nat.add_assoc, Nat.add_comm 2 i, put_data_self hin, direntByte, if_neg (by omega)]
    rfl
  rw [direntName_eq_strAt, strAt_congr hbytes, strAt_cstr]
  exact cutName_cutName name

-- == one more binding

theorem Dinode.IsDir.put (h : d.IsDir) (hn : n ≤ direntCount d)
    (hmax : n * direntSize + direntSize ≤ maxFile * bsize)
    (hnew : direntInum (d.put n src) (n * direntSize) ≠ 0 →
      ∀ m i, m ≠ n → ¬ d.Entry m (direntName (d.put n src) (n * direntSize)) i) :
    (d.put n src).IsDir where
  type := h.type
  whole := by
    have := h.size_eq
    simp only [Dinode.put, direntSize] at this ⊢
    omega
  small := Nat.max_le.mpr ⟨h.small, hmax⟩
  unique {a b name i j} ha hb := by
    rw [entry_put h hn] at ha hb
    split at ha <;> split at hb
    case isTrue.isTrue ha' hb' => exact ha'.trans hb'.symm
    case isTrue.isFalse ha' hb' =>
      exact absurd hb (ha.2.2 ▸ hnew (ha.1 ▸ ha.2.1) b j hb')
    case isFalse.isTrue ha' hb' =>
      exact absurd ha (hb.2.2 ▸ hnew (hb.1 ▸ hb.2.1) a i ha')
    case isFalse.isFalse => exact h.unique ha hb

/-- A free entry, or the end of the file, takes a new name. -/
theorem Dinode.IsDir.link (h : d.IsDir) (hn : n ≤ direntCount d)
    (hfree : n < direntCount d → direntInum d (n * direntSize) = 0)
    (h0 : inum ≠ 0) (hi : inum < 65536) (hnew : ∀ i, ¬ d.Binds (cutName name) i) :
    (d.put n (direntByte inum name)).Binds nm i
      ↔ nm = cutName name ∧ i = inum ∨ nm ≠ cutName name ∧ d.Binds nm i := by
  constructor
  · rintro ⟨m, hm⟩
    rw [entry_put h hn, direntInum_put_dirent hi, direntName_put_dirent] at hm
    split at hm
    · exact .inl ⟨hm.2.2.symm, hm.1.symm⟩
    · exact .inr ⟨fun he => hnew i ⟨m, he ▸ hm⟩, m, hm⟩
  · rintro (⟨rfl, rfl⟩ | ⟨-, m, hm⟩)
    · refine ⟨n, (entry_put h hn).mpr ?_⟩
      rw [if_pos rfl]
      exact ⟨direntInum_put_dirent hi, h0, direntName_put_dirent⟩
    · refine ⟨m, (entry_put h hn).mpr ?_⟩
      have hmn : m ≠ n := fun he => hm.2.2.1 (hm.2.1 ▸ he ▸ hfree (he ▸ hm.1))
      rw [if_neg hmn]
      exact hm

theorem direntInum_put_zero : direntInum (d.put n fun _ => 0) (n * direntSize) = 0 := by
  rw [direntInum_put_self]
  rfl

theorem Dinode.IsDir.clear (h : d.IsDir) (he : d.Entry n name inum)
    : (d.put n fun _ => 0).Binds nm i ↔ nm ≠ name ∧ d.Binds nm i := by
  have hn : n ≤ direntCount d := Nat.le_of_lt he.1
  constructor
  · rintro ⟨m, hm⟩
    rw [entry_put h hn, direntInum_put_zero] at hm
    split at hm
    · exact absurd hm.1.symm hm.2.1
    · rename_i hmn
      exact ⟨fun hnm => hmn (h.unique (hnm ▸ hm) he), m, hm⟩
  · rintro ⟨hnm, m, hm⟩
    refine ⟨m, (entry_put h hn).mpr ?_⟩
    have hmn : m ≠ n := fun hmn =>
      hnm (hm.2.2.2.symm.trans (hmn ▸ he.2.2.2))
    rw [if_neg hmn]
    exact hm

end

-- == dirlookup

/-- dirlookup's scan: the first entry that is in use and has the name. -/
def Dinode.scan (d : Dinode) (name : List UInt8) : Option Nat :=
  (List.range (direntCount d)).find? fun n =>
    direntInum d (n * direntSize) ≠ 0 ∧ direntName d (n * direntSize) = cutName name

theorem Dinode.scan_none (hnone : ∀ i, ¬ d.Binds (cutName name) i) : d.scan name = none := by
  refine List.find?_eq_none.mpr fun n hn hp => ?_
  obtain ⟨hi, hname⟩ := of_decide_eq_true hp
  exact hnone _ ⟨n, List.mem_range.mp hn, rfl, hi, hname⟩

theorem Dinode.entry_of_scan (hs : d.scan name = some n) :
    d.Entry n (cutName name) (direntInum d (n * direntSize)) := by
  have hp := List.find?_some hs
  obtain ⟨hi, hname⟩ := of_decide_eq_true hp
  exact ⟨List.mem_range.mp (List.mem_of_find?_eq_some hs), rfl, hi, hname⟩

theorem Dinode.IsDir.scan_some (h : d.IsDir)
    (he : d.Entry n (cutName name) inum) : d.scan name = some n := by
  -- the scan finds some entry with the name, and the name has only one
  cases hs : d.scan name with
  | none =>
    have hno := List.find?_eq_none.mp hs n (List.mem_range.mpr he.1)
    exact absurd (decide_eq_true ⟨he.2.1 ▸ he.2.2.1, he.2.2.2⟩) hno
  | some m => exact congrArg some (h.unique (Dinode.entry_of_scan hs) he)

section
variable {g : Glob} {dp : Nat} {name : List UInt8}
variable {room : Nat} {r : Bool}

theorem dirlookup_eq_scan : dirlookup g dp name =
    if (g.dinode dp).type ≠ .dir then .error .dirlookup
    else match (g.dinode dp).scan name with
      | none =>
        if direntsWhole (g.dinode dp) then .ok (none, g) else .error .dirRead
      | some n => (do
          let (ip, g') ← iget g (g.itable dp).dev (direntInum (g.dinode dp) (n * direntSize))
          pure (some (ip, n * direntSize), g')) := rfl

theorem Dinode.IsDir.dirlookup_none (h : (g.dinode dp).IsDir)
    (hnone : ∀ i, ¬ (g.dinode dp).Binds (cutName name) i) :
    dirlookup g dp name = .ok (none, g) := by
  rw [dirlookup_eq_scan, Dinode.scan_none hnone]
  simp [h.type, direntsWhole, h.whole]

theorem Dinode.IsDir.dirlookup_some (h : (g.dinode dp).IsDir)
    (he : (g.dinode dp).Entry n (cutName name) inum) :
    dirlookup g dp name = (do
      let (ip, g') ← iget g (g.itable dp).dev inum
      pure (some (ip, n * direntSize), g')) := by
  have hi : direntInum (g.dinode dp) (n * direntSize) = inum := he.2.1
  rw [dirlookup_eq_scan, h.scan_some he, if_neg (not_not.mpr h.type)]
  dsimp only
  rw [hi]

-- == dirlink

/-- dirlink finds a place for one more entry, with `blocks` blocks left on
the disk: a free entry, the rest of the last block, or a new block. -/
def Dinode.HasRoom (d : Dinode) (blocks : Nat) : Prop :=
  freeDirent d < d.size ∨ d.size + direntSize ≤ maxFile * bsize ∧ (d.size % bsize ≠ 0 ∨ 0 < blocks)

theorem Dinode.IsDir.freeDirent_eq (h : d.IsDir) :
    ∃ n, freeDirent d = n * direntSize ∧ n ≤ direntCount d
      ∧ (n < direntCount d → direntInum d (n * direntSize) = 0) := by
  unfold freeDirent
  split
  · exact ⟨direntCount d, h.size_eq, Nat.le_refl _, fun hlt => absurd hlt (Nat.lt_irrefl _)⟩
  rename_i n hf
  have hn := List.mem_range.mp (List.mem_of_find?_eq_some hf)
  refine ⟨n, rfl, Nat.le_of_lt hn, fun _ => ?_⟩
  exact of_decide_eq_true (List.find?_some (p := fun n =>
    decide (direntInum d (n * direntSize) = 0)) hf)

theorem u32_of_lt {x : Nat} (h : x < 4294967296) : u32 x = x := by
  unfold u32
  omega

/-- writei of one whole entry. -/
theorem Dinode.IsDir.writei_entry (h : (g.dinode dp).IsDir)
    {src : Nat → UInt8} (hn : n ≤ direntCount (g.dinode dp))
    (hmax : n * direntSize + direntSize ≤ maxFile * bsize)
    (hroom : writeLen (g.dinode dp).size (n * direntSize) direntSize room = direntSize) :
    writei g dp src (n * direntSize) direntSize room
      = (((direntSize : Nat) : Int), g.setDisk (g.itable dp).inum ((g.dinode dp).put n src)) := by
  have hsize := h.size_eq
  have hle : n * direntSize ≤ (g.dinode dp).size := hsize ▸ Nat.mul_le_mul_right _ hn
  have hoff : u32 (n * direntSize : Nat) = n * direntSize := u32_of_lt (by
    simp only [direntSize, maxFile, bsize] at hmax ⊢
    omega)
  have hend : u32 ((n * direntSize : Nat) + (direntSize : Nat))
      = n * direntSize + direntSize := u32_of_lt (by
    simp only [direntSize, maxFile, bsize] at hmax ⊢
    omega)
  simp only [writei, hoff]
  rw [if_neg (by omega), if_neg (by omega), hroom]
  rfl

theorem memput_zero (mem : Nat → UInt8) (dst : Nat) (src : Nat → UInt8) :
    memput mem dst 0 src = mem :=
  funext fun a => if_neg (by omega)

theorem dinode_setDisk (g : Glob) (dp : Nat) (d : Dinode) :
    (g.setDisk (g.itable dp).inum d).dinode dp = d := if_pos rfl

theorem Dinode.IsDir.writeLen_entry (h : d.IsDir) (hn : n ≤ direntCount d)
    (hroom : n < direntCount d ∨ d.size % bsize ≠ 0 ∨ 0 < blocks) :
    writeLen d.size (n * direntSize) direntSize (blocks * bsize) = direntSize := by
  have := h.size_eq
  simp only [writeLen, direntSize, bsize] at this hroom ⊢
  omega

/-- Without room the write fails and the directory is as it was. -/
theorem Dinode.IsDir.writei_full (h : (g.dinode dp).IsDir) (src : Nat → UInt8)
    (hfull : ¬ (g.dinode dp).HasRoom blocks) :
    (writei g dp src (freeDirent (g.dinode dp)) direntSize (blocks * bsize)).1 ≠ (direntSize : Nat)
      ∧ (writei g dp src (freeDirent (g.dinode dp)) direntSize
        (blocks * bsize)).2.dinode dp = g.dinode dp := by
  obtain ⟨n, hoff, hn, -⟩ := h.freeDirent_eq
  have hsize := h.size_eq
  have hsmall := h.small
  simp only [Dinode.HasRoom, hoff, direntSize, maxFile, bsize] at hfull
  simp only [direntSize, maxFile, bsize] at hsize hsmall
  have hend : n * direntSize = (g.dinode dp).size := by
    simp only [direntSize]
    omega
  have hu : u32 ((g.dinode dp).size : Nat) = (g.dinode dp).size := u32_of_lt (by omega)
  rw [hoff, hend]
  simp only [writei, hu]
  split
  · exact ⟨(by decide : (-1 : Int) ≠ (direntSize : Nat)), rfl⟩
  split
  · exact ⟨(by decide : (-1 : Int) ≠ (direntSize : Nat)), rfl⟩
  rename_i hmax
  have hlen : writeLen (g.dinode dp).size (g.dinode dp).size direntSize (blocks * bsize) = 0 := by
    simp only [writeLen, direntSize, maxFile, bsize] at hmax ⊢
    omega
  rw [hlen]
  refine ⟨(by decide : ((0 : Nat) : Int) ≠ (direntSize : Nat)), (dinode_setDisk g dp _).trans ?_⟩
  rw [memput_zero, Nat.add_zero, Nat.max_self]

-- == the slot of an entry

theorem iget_slot (h : iget g dev inum = .ok (ip, g')) :
    g'.disk = g.disk ∧ (g'.itable ip).inum = inum
      ∧ ((g'.itable ip).ref ≠ 1 ∨ (g'.itable ip).valid = false) := by
  simp only [iget] at h
  split at h
  · rename_i hf
    cases h
    have hp := (List.find?_range_eq_some.mp hf).1
    simp only [decide_eq_true_eq] at hp
    refine ⟨rfl, (congrArg Inode.inum (if_pos rfl)).trans hp.2.2, .inl fun h1 => ?_⟩
    have href : (g.itable ip).ref + 1 = 1 := (congrArg Inode.ref (if_pos rfl)).symm.trans h1
    omega
  · split at h
    · cases h
    · cases h
      exact ⟨rfl, congrArg Inode.inum (if_pos rfl), .inr (congrArg Inode.valid (if_pos rfl))⟩

theorem iget_dinode (h : iget g dev inum = .ok (ip, g'))
    (hdp : 0 < (g.itable dp).ref) : g'.dinode dp = g.dinode dp := by
  have hs := (iget_covers (fun _ => Int.le_refl _) h).2
  rw [Glob.dinode, (iget_slot h).1, hs.inum dp hdp]
  rfl

/-- Giving back what iget handed out frees nothing. -/
theorem iget_iput_dinode (h : iget g dev inum = .ok (ip, g'))
    (hdp : 0 < (g.itable dp).ref) : (iput g' ip).dinode dp = g.dinode dp := by
  have hno : ¬ ((g'.itable ip).ref = 1 ∧ (g'.itable ip).valid = true
      ∧ (g'.dinode ip).nlink = 0) := by
    rintro ⟨h1, hv, -⟩
    rcases (iget_slot h).2.2 with hr | hf
    · exact hr h1
    · exact absurd (hf.symm.trans hv) nofun
  rw [← iget_dinode h hdp]
  unfold iput
  rw [if_neg hno]
  simp only [Glob.dinode, Glob.setInode]
  split
  · rename_i heq
    rw [heq]
  · rfl

-- == dirlink's cases

theorem Dinode.IsDir.dirlink_unbound (h : (g.dinode dp).IsDir)
    (hnone : ∀ i, ¬ (g.dinode dp).Binds (cutName name) i) (inum room : Nat) :
    dirlink g dp name inum room = .ok
      (decide ((writei g dp (direntByte inum name) (freeDirent (g.dinode dp))
          direntSize room).1 = (direntSize : Nat)),
        (writei g dp (direntByte inum name) (freeDirent (g.dinode dp)) direntSize room).2) := by
  rw [dirlink, h.dirlookup_none hnone]
  rfl

theorem Dinode.IsDir.dirlink_bound (h : (g.dinode dp).IsDir)
    (hdp : 0 < (g.itable dp).ref)
    (hb : (g.dinode dp).Binds (cutName name) i) (hl : dirlink g dp name inum room = .ok (r, g')) :
    r = false ∧ g'.dinode dp = g.dinode dp := by
  obtain ⟨n, he⟩ := hb
  rw [dirlink, h.dirlookup_some he] at hl
  obtain ⟨⟨o, g1⟩, h1, hl⟩ := bind_ok hl
  obtain ⟨⟨ip, g2⟩, h2, h1⟩ := bind_ok h1
  cases h1
  cases hl
  exact ⟨rfl, iget_iput_dinode h2 hdp⟩

/-- dirlink of a new name: it is there afterwards, if there was room. -/
theorem Dinode.IsDir.dirlink_room (h : (g.dinode dp).IsDir)
    (hnone : ∀ i, ¬ (g.dinode dp).Binds (cutName name) i) (inum : Nat)
    (hroom : (g.dinode dp).HasRoom blocks) :
    ∃ n, n ≤ direntCount (g.dinode dp)
      ∧ (n < direntCount (g.dinode dp) → direntInum (g.dinode dp) (n * direntSize) = 0)
      ∧ n * direntSize + direntSize ≤ maxFile * bsize
      ∧ dirlink g dp name inum (blocks * bsize) = .ok (true,
        g.setDisk (g.itable dp).inum ((g.dinode dp).put n (direntByte inum name))) := by
  obtain ⟨n, hoff, hn, hfree⟩ := h.freeDirent_eq
  have hsize := h.size_eq
  have hsmall := h.small
  have hcase : n < direntCount (g.dinode dp) ∨ (g.dinode dp).size % bsize ≠ 0 ∨ 0 < blocks := by
    rcases hroom with hlt | ⟨-, hr⟩
    · rw [hoff, hsize] at hlt
      exact .inl (Nat.lt_of_mul_lt_mul_right hlt)
    · exact .inr hr
  have hmax : n * direntSize + direntSize ≤ maxFile * bsize := by
    simp only [Dinode.HasRoom, hoff, direntSize, maxFile, bsize] at hroom
    simp only [direntSize, maxFile, bsize] at hsize hsmall ⊢
    omega
  refine ⟨n, hn, hfree, hmax, ?_⟩
  rw [h.dirlink_unbound hnone, hoff, h.writei_entry hn hmax (h.writeLen_entry hn hcase)]
  rfl

theorem Dinode.IsDir.dirlink (h : (g.dinode dp).IsDir) (hdp : 0 < (g.itable dp).ref)
    (hl : dirlink g dp name inum (blocks * bsize) = .ok (r, g')) : (g'.dinode dp).IsDir := by
  by_cases hb : ∃ i, (g.dinode dp).Binds (cutName name) i
  · obtain ⟨i, hb⟩ := hb
    rw [(h.dirlink_bound hdp hb hl).2]
    exact h
  have hnone : ∀ i, ¬ (g.dinode dp).Binds (cutName name) i := fun i hi => hb ⟨i, hi⟩
  by_cases hroom : (g.dinode dp).HasRoom blocks
  · obtain ⟨n, hn, -, hmax, heq⟩ := h.dirlink_room hnone inum hroom
    rw [heq] at hl
    cases hl
    rw [dinode_setDisk]
    refine h.put hn hmax fun _ m i _ he => hnone i ⟨m, ?_⟩
    rw [direntName_put_dirent] at he
    exact he
  · rw [h.dirlink_unbound hnone] at hl
    cases hl
    rw [(h.writei_full _ hroom).2]
    exact h

/-- The write that sys_unlink makes over the entry it found. -/
theorem Dinode.IsDir.writei_clear (h : (g.dinode dp).IsDir)
    (hdp : 0 < (g.itable dp).ref) {off : Nat} (room : Nat) {g1 : Glob}
    (hl : dirlookup g dp name = .ok (some (ip, off), g1)) :
    ∃ n, (g.dinode dp).Entry n (cutName name) (g1.itable ip).inum ∧ off = n * direntSize
      ∧ writei g1 dp (fun _ => 0) off direntSize room
        = (((direntSize : Nat) : Int), g1.setDisk (g1.itable dp).inum
          ((g.dinode dp).put n fun _ => 0)) := by
  by_cases hb : ∃ i, (g.dinode dp).Binds (cutName name) i
  · obtain ⟨i, n, he⟩ := hb
    rw [h.dirlookup_some he] at hl
    obtain ⟨⟨ip', g2⟩, h2, hl⟩ := bind_ok hl
    cases hl
    have hd := iget_dinode h2 hdp
    have hn : n ≤ direntCount (g.dinode dp) := Nat.le_of_lt he.1
    have hsize := h.size_eq
    have hin : n * direntSize + direntSize ≤ (g.dinode dp).size := by
      rw [hsize, ← Nat.succ_mul]
      exact Nat.mul_le_mul_right _ he.1
    have hlen : writeLen (g1.dinode dp).size (n * direntSize) direntSize room = direntSize := by
      rw [hd]
      simp only [writeLen, direntSize, bsize] at hin ⊢
      omega
    refine ⟨n, (iget_slot h2).2.1 ▸ he, rfl, ?_⟩
    rw [(hd ▸ h : (g1.dinode dp).IsDir).writei_entry (hd ▸ hn) (Nat.le_trans hin h.small) hlen, hd]
  · rw [h.dirlookup_none fun i hi => hb ⟨i, hi⟩] at hl
    cases hl

end

-- == the main law

/-- The directories that dirlink and sys_unlink's clearing write can make,
starting from an empty one. Between the calls anything else may happen to
the rest of the state, and to the directory's link count. -/
inductive DirContents : Dinode → Prop
  | empty {d : Dinode} : d.type = .dir → d.size = 0 → DirContents d
  | link {g g' : Glob} {dp inum blocks : Nat} {name : List UInt8} {r : Bool} :
      DirContents (g.dinode dp) → 0 < (g.itable dp).ref →
      0 < inum → inum < 65536 →
      dirlink g dp name inum (blocks * bsize) = .ok (r, g') →
      DirContents (g'.dinode dp)
  | clear {g g₁ : Glob} {dp ip off room : Nat} {name : List UInt8} :
      DirContents (g.dinode dp) → 0 < (g.itable dp).ref →
      dirlookup g dp name = .ok (some (ip, off), g₁) →
      DirContents ((writei g₁ dp (fun _ => 0) off direntSize room).2.dinode dp)
  | nlink {d : Dinode} {nlink : Int} : DirContents d → DirContents { d with nlink }

theorem DirContents.isDir (h : DirContents d) : d.IsDir := by
  induction h with
  | empty htype hsize =>
    refine ⟨htype, by rw [hsize, Nat.zero_mod], hsize ▸ Nat.zero_le _, ?_⟩
    rintro n m name i j ⟨hn, -⟩
    rw [direntCount, hsize] at hn
    exact absurd hn (Nat.not_lt_zero _)
  | link _ hdp _ _ hl ih => exact ih.dirlink hdp hl
  | clear _ hdp hl ih =>
    obtain ⟨n, he, -, heq⟩ := ih.writei_clear hdp _ hl
    have hmax := Nat.le_trans (Nat.mul_le_mul_right direntSize he.1)
      (Nat.le_trans (Nat.le_of_eq ih.size_eq.symm) ih.small)
    rw [Nat.succ_mul] at hmax
    rw [heq, dinode_setDisk]
    exact ih.put (Nat.le_of_lt he.1) hmax fun hne => absurd direntInum_put_zero hne
  | nlink _ ih => exact { ih with }

/-- What dirlookup returns: the inode number bound to the name, in a slot
from iget, or nothing. -/
def LookupLaw (g : Glob) (dp : Nat) (name : List UInt8) : Prop :=
  ((∀ i, ¬ (g.dinode dp).Binds (cutName name) i) → dirlookup g dp name = .ok (none, g))
  ∧ (∀ i, (g.dinode dp).Binds (cutName name) i →
    ∃ off, dirlookup g dp name = (do
      let (ip, g') ← iget g (g.itable dp).dev i
      pure (some (ip, off), g')))
  ∧ ∀ ip off g', dirlookup g dp name = .ok (some (ip, off), g') →
    (g.dinode dp).Binds (cutName name) (g'.itable ip).inum

/-- What dirlink does: a bound name is refused; a new one is bound, and
nothing else changes, exactly if there is room. -/
def LinkLaw (g : Glob) (dp : Nat) (name : List UInt8) (inum blocks : Nat) : Prop :=
  (∀ i r g', (g.dinode dp).Binds (cutName name) i →
    dirlink g dp name inum (blocks * bsize) = .ok (r, g') → r = false ∧ g'.dinode dp = g.dinode dp)
  ∧ ((∀ i, ¬ (g.dinode dp).Binds (cutName name) i) →
    ∃ r g', dirlink g dp name inum (blocks * bsize) = .ok (r, g')
      ∧ (r = true ↔ (g.dinode dp).HasRoom blocks)
      ∧ (r = false → g'.dinode dp = g.dinode dp)
      ∧ (r = true → ∀ nm i, (g'.dinode dp).Binds nm i
          ↔ nm = cutName name ∧ i = inum ∨ nm ≠ cutName name ∧ (g.dinode dp).Binds nm i))

/-- What sys_unlink's write over the entry that dirlookup found does. -/
def ClearLaw (g : Glob) (dp : Nat) (name : List UInt8) : Prop :=
  ∀ ip off g₁ room, dirlookup g dp name = .ok (some (ip, off), g₁) →
    ∃ g', writei g₁ dp (fun _ => 0) off direntSize room = (((direntSize : Nat) : Int), g')
      ∧ ∀ nm i, (g'.dinode dp).Binds nm i ↔ nm ≠ cutName name ∧ (g.dinode dp).Binds nm i

theorem Dinode.IsDir.linkLaw {g : Glob} {dp : Nat} (h : (g.dinode dp).IsDir)
    (hdp : 0 < (g.itable dp).ref) (h0 : 0 < inum) (hi : inum < 65536) :
    LinkLaw g dp name inum blocks := by
  refine ⟨fun i r g' hb hl => h.dirlink_bound hdp hb hl, fun hnone => ?_⟩
  by_cases hroom : (g.dinode dp).HasRoom blocks
  · obtain ⟨n, hn, hfree, -, heq⟩ := h.dirlink_room hnone inum hroom
    refine ⟨true, _, heq, iff_of_true rfl hroom, nofun, fun _ nm i => ?_⟩
    rw [dinode_setDisk]
    exact h.link hn hfree (Nat.pos_iff_ne_zero.mp h0) hi hnone
  obtain ⟨hne, hsame⟩ := h.writei_full (direntByte inum name) hroom
  rw [h.dirlink_unbound hnone]
  refine ⟨_, _, rfl, ?_, fun _ => hsame, fun hr => ?_⟩
  · exact iff_of_false (fun hr => hne (of_decide_eq_true hr)) hroom
  · exact absurd (of_decide_eq_true hr) hne

/-- Every directory that dirlink and sys_unlink can make is a finite map:
no two entries in use have one name, dirlookup reads the map, dirlink adds
one binding or fails, and a cleared entry takes one binding away. -/
theorem directory_is_map {g : Glob} {dp : Nat}
    (hd : DirContents (g.dinode dp)) (hdp : 0 < (g.itable dp).ref) :
    (∀ n m, n < direntCount (g.dinode dp) → m < direntCount (g.dinode dp) →
      direntInum (g.dinode dp) (n * direntSize) ≠ 0 →
      direntInum (g.dinode dp) (m * direntSize) ≠ 0 →
      namecmp (fun i => (g.dinode dp).data (n * direntSize + 2 + i))
        (fun i => (g.dinode dp).data (m * direntSize + 2 + i)) = 0 → n = m)
    ∧ (∀ name, LookupLaw g dp name)
    ∧ (∀ name inum blocks, 0 < inum → inum < 65536 →
      LinkLaw g dp name inum blocks)
    ∧ ∀ name, ClearLaw g dp name := by
  have h := hd.isDir
  refine ⟨fun n m hn hm hin him hcmp => ?_, fun name => ⟨?_, ?_, ?_⟩,
    fun name inum blocks h0 hi => h.linkLaw hdp h0 hi, ?_⟩
  · rw [namecmp, strncmp_eq_zero_iff, ← direntName_eq_strAt,
      ← direntName_eq_strAt] at hcmp
    exact h.unique ⟨hn, rfl, hin, hcmp⟩ ⟨hm, rfl, him, rfl⟩
  · exact h.dirlookup_none
  · rintro i ⟨n, he⟩
    exact ⟨_, h.dirlookup_some he⟩
  · intro ip off g' hl
    obtain ⟨n, he, -⟩ := h.writei_clear hdp 0 hl
    exact ⟨n, he⟩
  intro name ip off g₁ room hl
  obtain ⟨n, he, -, heq⟩ := h.writei_clear hdp room hl
  refine ⟨_, heq, fun nm i => ?_⟩
  rw [dinode_setDisk]
  exact h.clear he

set_option maxRecDepth 10000 in
/-- A directory with the entry "." for inode 1: "sh" is bound in it, and
both are found. -/
theorem directory_is_map_sh :
    ∃ g₁ g', dirlink (bootGlob.setDisk 1 { Dinode.zero with type := .dir }) 2
        [46] 1 (1 * bsize) = .ok (true, g₁)
      ∧ dirlink g₁ 2 [115, 104] 4 (1 * bsize) = .ok (true, g')
      ∧ (g'.dinode 2).Binds [46] 1 ∧ (g'.dinode 2).Binds [115, 104] 4 := by
  have hempty : DirContents ((bootGlob.setDisk 1
      { Dinode.zero with type := .dir }).dinode 2) := .empty rfl rfl
  have hfree : ∀ nm i, ¬ ((bootGlob.setDisk 1
      { Dinode.zero with type := .dir }).dinode 2).Binds nm i := by
    rintro nm i ⟨n, hn, _⟩
    exact absurd hn (Nat.not_lt_zero n)
  obtain ⟨r₁, g₁, h₁, hroom₁, -, hbinds₁⟩ := ((directory_is_map hempty
    (by decide)).2.2.1 [46] 1 1 (by decide) (by decide)).2 (hfree _)
  obtain rfl : r₁ = true := hroom₁.mpr (.inr ⟨by decide, .inr (by decide)⟩)
  have hone := DirContents.link hempty (by decide) (by decide) (by decide) h₁
  have hmap := hbinds₁ rfl
  obtain ⟨href, hroom'⟩ : 0 < (g₁.itable 2).ref ∧ (g₁.dinode 2).HasRoom 1 := by
    have hlink : dirlink (bootGlob.setDisk 1 { Dinode.zero with type := .dir })
        2 [46] 1 (1 * bsize) = .ok (true, _) := rfl
    cases hlink.symm.trans h₁
    exact ⟨by decide, .inr ⟨by decide, .inr (by decide)⟩⟩
  obtain ⟨r, g', h', hroom, -, hbinds⟩ := ((directory_is_map hone href).2.2.1
    [115, 104] 4 1 (by decide) (by decide)).2 fun i hi => by
      rcases (hmap _ i).mp hi with ⟨hname, _⟩ | ⟨_, hold⟩
      · exact absurd hname (by decide)
      · exact hfree _ _ hold
  obtain rfl : r = true := hroom.mpr hroom'
  refine ⟨g₁, g', h₁, h', ?_, (hbinds rfl _ _).mpr (.inl ⟨rfl, rfl⟩)⟩
  exact (hbinds rfl _ _).mpr (.inr ⟨by decide, (hmap _ _).mpr (.inl ⟨rfl, rfl⟩)⟩)

end Xv6Labs.Model
