/-
What bmap does to the map of a file.

`Bmapped` lists the five ways bmap can answer: the block is there, it is
new in a direct slot or in an entry of the indirect block, or there was no
indirect block and balloc was asked for one first, in vain or not.
-/
import Xv6Labs.Model.Blocks

namespace Xv6Labs.Model.Blocks

open Lib

variable {s s' : Store} {ip ip' : Ino} {a b bn i j ind : Nat}

-- == words

theorem load32_zero (i : Nat) : load32 (fun _ => 0) i = 0 := rfl

-- == turns

/-- Bytes that are done before turn `k`. -/
def before (off n k : Nat) : Nat := min n (k * bsize - off % bsize)

theorem before_zero (off n : Nat) : before off n 0 = 0 := by
  simp [before]

/-- Turn `k` does the rest of block `k`, counted from the first. -/
theorem before_succ {off n k : Nat} (hk : k < blocksIn off n) :
    before off n k < n
      ∧ before off n (k + 1) = before off n k
        + min (n - before off n k) (bsize - (off + before off n k) % bsize)
      ∧ (off + before off n k) / bsize = off / bsize + k := by
  unfold blocksIn at hk
  split at hk
  · omega
  · unfold before bsize at *
    rcases Nat.eq_zero_or_pos k with rfl | hpos
    · omega
    · omega

/-- `off + n < off` is the test for an overflow. -/
theorem sum_toNat {off n : UInt32} : ¬ off + n < off ↔ off.toNat + n.toNat < 2 ^ 32 := by
  have hn := n.toNat_lt
  rw [UInt32.lt_iff_toNat_lt, UInt32.toNat_add]
  omega

theorem add_toNat {off n : UInt32} (h : ¬ off + n < off) :
    (off + n).toNat = off.toNat + n.toNat := by
  rw [UInt32.toNat_add, Nat.mod_eq_of_lt (sum_toNat.mp h)]

-- == balloc

@[simp] theorem take_log (s : Store) (b : Nat) :
    (s.take b).log = s.log ++ [bblock s b] ++ [b] := rfl

/-- The two ways balloc can answer. -/
inductive Balloced (s : Store) : Nat → Store → Prop where
  | full (h : ∀ b, b < s.size → s.inuse b = true) : Balloced s 0 s
  | took {b : Nat} (hb : b < s.size) (h : s.inuse b = false) : Balloced s b (s.take b)

theorem balloc_balloced (s : Store) : Balloced s (balloc s).1 (balloc s).2 := by
  unfold balloc
  cases h : (List.range s.size).find? fun b => s.inuse b = false with
  | none =>
    refine .full fun b hb => ?_
    have hb := List.find?_eq_none.mp h b (List.mem_range.mpr hb)
    simpa using hb
  | some b =>
    refine .took (List.mem_range.mp (List.mem_of_find?_eq_some h)) ?_
    simpa using List.find?_some h

/-- A new block is zero. -/
theorem Balloced.zero (h : Balloced s a s') (ha : a ≠ 0) : s'.block a = fun _ => 0 := by
  cases h with
  | full => exact absurd rfl ha
  | took => exact if_pos rfl

-- == bmap

theorem setAddr_addrs (ip : Ino) (i a j : Nat) :
    (ip.setAddr i a).addrs j = if j = i then a else ip.addrs j := rfl

/-- The block of number `bn`, 0 where there is none. -/
def blockOf (s : Store) (ip : Ino) (bn : Nat) : Nat :=
  if bn < ndirect then ip.addrs bn
  else if bn - ndirect < nindirect ∧ ip.addrs ndirect ≠ 0 then
    load32 (s.block (ip.addrs ndirect)) (bn - ndirect)
  else 0

/-- Every block below the size is there. -/
def NoHoles (s : Store) (ip : Ino) : Prop := ∀ bn, bn * bsize < ip.size → blockOf s ip bn ≠ 0

/-- What bmap can have done. -/
inductive Bmapped (s : Store) (ip : Ino) (bn : Nat) : Nat → Store → Ino → Prop where
  | there (h : blockOf s ip bn ≠ 0) : Bmapped s ip bn (blockOf s ip bn) s ip
  | slot {a : Nat} {s' : Store} (hbn : bn < ndirect) (h0 : ip.addrs bn = 0)
      (h : Balloced s a s') :
      Bmapped s ip bn a s' (if a = 0 then ip else ip.setAddr bn a)
  | entry {a : Nat} {s' : Store} (hbn : ndirect ≤ bn)
      (hlt : bn - ndirect < nindirect) (hind : ip.addrs ndirect ≠ 0)
      (h0 : blockOf s ip bn = 0) (h : Balloced s a s') :
      Bmapped s ip bn a (if a = 0 then s' else s'.setEntry (ip.addrs ndirect) (bn - ndirect) a) ip
  | refused {s' : Store} (hbn : ndirect ≤ bn) (hind : ip.addrs ndirect = 0)
      (h : Balloced s 0 s') : Bmapped s ip bn 0 s' ip
  | indirect {ind a : Nat} {s₁ s' : Store} (hbn : ndirect ≤ bn)
      (hlt : bn - ndirect < nindirect) (hind : ip.addrs ndirect = 0)
      (hne : ind ≠ 0) (h₁ : Balloced s ind s₁) (h : Balloced s₁ a s') :
      Bmapped s ip bn a (if a = 0 then s'
        else s'.setEntry ind (bn - ndirect) a) (ip.setAddr ndirect ind)

/-- bmap answers for every block that a file can have. -/
theorem bmap_bmapped (s : Store) (ip : Ino) (bn : Nat) (hbn : bn < maxFile) :
    ∃ a s' ip', bmap s ip bn = .ok (a, s', ip') ∧ Bmapped s ip bn a s' ip' := by
  have hlt : bn - ndirect < nindirect := by
    unfold maxFile ndirect nindirect bsize at *
    omega
  by_cases hd : bn < ndirect
  · have hof : blockOf s ip bn = ip.addrs bn := if_pos hd
    refine ⟨_, _, _, by rw [bmap, if_pos hd], ?_⟩
    unfold addrAt
    by_cases h0 : ip.addrs bn = 0
    · rw [if_pos h0]
      exact .slot hd h0 (balloc_balloced s)
    · rw [if_neg h0, ← hof]
      exact .there (hof ▸ h0)
  have hge : ndirect ≤ bn := Nat.not_lt.mp hd
  by_cases h0 : ip.addrs ndirect = 0
  · have hb := balloc_balloced s
    by_cases hne : (balloc s).1 = 0
    · refine ⟨0, _, ip, ?_, .refused hge h0 (hne ▸ hb)⟩
      simp only [bmap, if_neg hd, if_pos hlt, addrAt, if_pos h0, hne]
      rfl
    have hz : load32 ((balloc s).2.block (balloc s).1) (bn - ndirect)
        = 0 := by rw [hb.zero hne, load32_zero]
    refine ⟨_, _, _, ?_, .indirect hge hlt h0 hne hb (balloc_balloced _)⟩
    simp only [bmap, if_neg hd, if_pos hlt, addrAt, if_pos h0, if_neg hne, entryAt, hz]
    rfl
  · have hof : blockOf s ip bn = load32 (s.block (ip.addrs ndirect)) (bn - ndirect) := by
      rw [blockOf, if_neg hd, if_pos ⟨hlt, h0⟩]
    simp only [bmap, if_neg hd, if_pos hlt, addrAt, if_neg h0, entryAt, ← hof]
    by_cases hz : blockOf s ip bn = 0
    · rw [if_pos hz]
      exact ⟨_, _, _, rfl, .entry hge hlt h0 hz (balloc_balloced s)⟩
    · rw [if_neg hz]
      exact ⟨_, _, _, rfl, .there hz⟩

/-- A disk of sixteen blocks of which ten are free, all zero. -/
def smallDisk : Store where
  size := 16
  size_lt := by decide
  inodestart := 2
  bmapstart := 3
  inuse := fun b => b ≤ 5
  block := fun _ _ => 0
  dinode := fun inum => ⟨inum, 0, fun _ => 0⟩
  log := []

/-- A file on it: half a block. -/
def smallFile : Ino := ⟨1, 512, fun i => if i = 0 then 5 else 0⟩

theorem smallFile_noHoles : NoHoles smallDisk smallFile := by
  intro bn hbn
  have h0 : bn = 0 := by
    change bn * 1024 < 512 at hbn
    omega
  rw [h0]
  decide

end Xv6Labs.Model.Blocks
