/-
in_cksum computes the internet checksum.

Up to 131070 bytes the sum of the words is below 2^32, so the accumulator
holds it, and the two folds give the word that stands for it in
ones'-complement arithmetic (`OnesRep`).
-/
import Xv6Labs.Lib.OnesSum
import Xv6Labs.Proofs.RoundTrip

namespace Xv6Labs.Model

open Lib

variable {mem : Nat → UInt8} {a len : Nat}
variable {mem' : Nat → UInt8} {k : Nat}

-- == words

/-- The little-endian 16-bit words of some bytes, an odd byte at the end
padded with zero. -/
def leWords : List UInt8 → List Nat
  | [] => []
  | [b] => [b.toNat]
  | b :: c :: bs => (b.toNat + 256 * c.toNat) :: leWords bs

theorem leWords_lt (bs : List UInt8) : ∀ w ∈ leWords bs, w < 2 ^ 16 := by
  fun_induction leWords bs with
  | case1 => simp
  | case2 b =>
    intro w hw
    have hb := b.toNat_lt
    simp at hw
    omega
  | case3 b c bs ih =>
    intro w hw
    have hb := b.toNat_lt
    have hc := c.toNat_lt
    rcases List.mem_cons.mp hw with rfl | hw
    · omega
    · exact ih w hw

/-- `n` words sum to at most `n` times the greatest word. -/
theorem leWords_sum_le (bs : List UInt8) : (leWords bs).sum ≤ (bs.length + 1) / 2 * 65535 := by
  fun_induction leWords bs with
  | case1 => simp
  | case2 b =>
    have hb := b.toNat_lt
    simp
    omega
  | case3 b c bs ih =>
    have hb := b.toNat_lt
    have hc := c.toNat_lt
    simp only [List.sum_cons, List.length_cons]
    omega

theorem bytesAt_succ (mem : Nat → UInt8) (a k : Nat) :
    bytesAt mem a (k + 1) = mem a :: bytesAt mem (a + 1) k := by
  simp only [bytesAt, List.range_succ_eq_map, List.map_cons, List.map_map]
  refine congrArg₂ _ rfl (List.map_congr_left fun i _ => ?_)
  simp only [Function.comp]
  congr 1
  omega

theorem load16_toNat (mem : Nat → UInt8) (a : Nat) :
    (load16 mem a).toNat = (mem a).toNat + 256 * (mem (a + 1)).toNat := by
  have hlow := (mem a).toNat_lt
  have hhigh := (mem (a + 1)).toNat_lt
  have hor := Nat.shiftLeft_add_eq_or_of_lt hlow (mem (a + 1)).toNat
  have hshift : (mem (a + 1)).toNat <<< 8 % 2 ^ 16 = (mem (a + 1)).toNat <<< 8 := by
    exact Nat.mod_eq_of_lt (by omega)
  have h : (load16 mem a).toNat = (mem a).toNat ||| (mem (a + 1)).toNat <<< 8 % 2 ^ 16 := by
    simp [load16, UInt16.toNat_or, UInt16.toNat_shiftLeft]
  rw [h, hshift, Nat.or_comm, ← hor]
  omega

/-- The sum of the words of `len` bytes from `a`. -/
def wordSum (mem : Nat → UInt8) (a len : Nat) : Nat := (leWords (bytesAt mem a len)).sum

theorem wordSum_step (mem : Nat → UInt8) (a len : Nat) :
    wordSum mem a (len + 2) = (load16 mem a).toNat + wordSum mem (a + 2) len := by
  simp [wordSum, bytesAt_succ, leWords, load16_toNat]

theorem wordSum_congr (h : ∀ j, j < len → mem' (a + j) = mem (a + j)) :
    wordSum mem' a len = wordSum mem a len := by
  have hbytes : bytesAt mem' a len = bytesAt mem a len :=
    List.map_congr_left fun j hj => h j (List.mem_range.mp hj)
  rw [wordSum, wordSum, hbytes]

-- == the loop

/-- The accumulator, up to the width of the register. -/
theorem inCksumSum_toNat (mem : Nat → UInt8) (a len : Nat) (sum : UInt32) :
    (inCksumSum mem a len sum).toNat = (sum.toNat + wordSum mem a len) % 2 ^ 32 := by
  fun_induction inCksumSum mem a len sum with
  | case1 a sum =>
    simp [wordSum, bytesAt, leWords]
  | case2 a sum => simp [wordSum, bytesAt, leWords]
  | case3 a len sum ih =>
    rw [ih, wordSum_step, UInt32.toNat_add, UInt16.toNat_toUInt32]
    omega

theorem wordSum_lt (h : len ≤ 131070) : wordSum mem a len < 2 ^ 32 := by
  have hle := leWords_sum_le (bytesAt mem a len)
  rw [length_bytesAt] at hle
  have hhalf : (len + 1) / 2 ≤ 65535 := by omega
  calc wordSum mem a len ≤ (len + 1) / 2 * 65535 := hle
    _ ≤ 65535 * 65535 := Nat.mul_le_mul_right _ hhalf
    _ < 2 ^ 32 := by norm_num

/-- The accumulator does not overflow. -/
theorem inCksumSum_exact (h : len ≤ 131070) :
    (inCksumSum mem a len 0).toNat = wordSum mem a len := by
  rw [inCksumSum_toNat, UInt32.toNat_zero, Nat.zero_add]
  exact Nat.mod_eq_of_lt (wordSum_lt h)

-- == the folds

theorem low_toNat (s : UInt32) : (s &&& (0xffff : UInt32)).toNat = s.toNat % 2 ^ 16 := by
  exact Nat.and_two_pow_sub_one_eq_mod s.toNat 16

theorem high_toNat (s : UInt32) : (s >>> 16).toNat = s.toNat / 2 ^ 16 := by
  exact Nat.shiftRight_eq_div_pow s.toNat 16

theorem fold_toNat (s : UInt32) :
    ((s &&& (0xffff : UInt32)) + (s >>> 16) +
      (((s &&& (0xffff : UInt32)) + (s >>> 16)) >>> 16)).toNat =
      s.toNat % 2 ^ 16 + s.toNat / 2 ^ 16 + (s.toNat % 2 ^ 16 + s.toNat / 2 ^ 16) / 2 ^ 16 := by
  have hs := s.toNat_lt
  have honce : ((s &&& (0xffff : UInt32)) + (s >>> 16)).toNat =
      s.toNat % 2 ^ 16 + s.toNat / 2 ^ 16 := by
    rw [UInt32.toNat_add, low_toNat, high_toNat]
    omega
  rw [UInt32.toNat_add, high_toNat]
  omega

/-- in_cksum is the complement of the word that stands for the sum. -/
theorem inCksum_eq {r : Nat} (h : len ≤ 131070) (hr : OnesRep (2 ^ 16) (wordSum mem a len) r) :
    inCksum mem a len = ~~~ UInt16.ofNat r := by
  have hlt : wordSum mem a len < 2 ^ 16 * 2 ^ 16 := wordSum_lt h
  have hfolds := hr.unique (OnesRep.twoFolds (by norm_num) hlt)
  have hfold := fold_toNat (inCksumSum mem a len 0)
  rw [inCksumSum_exact h] at hfold
  unfold inCksum
  dsimp only
  generalize (inCksumSum mem a len 0 &&& (0xffff : UInt32)) +
    (inCksumSum mem a len 0 >>> 16) + _ = s at hfold ⊢
  rw [← hfold] at hfolds
  rw [UInt32.toUInt16_not, hfolds]
  congr 1
  apply UInt16.toNat.inj
  simp

theorem onesRep_words (mem : Nat → UInt8) (a len : Nat) :
    OnesRep (2 ^ 16) (wordSum mem a len) (onesSum (2 ^ 16) (leWords (bytesAt mem a len))) :=
  onesRep_onesSum (by norm_num) (leWords_lt _)

-- == the stored sum

/-- A word stored in the place of a zero word adds its value. -/
theorem wordSum_store16 {v : UInt16} (hk : 2 * k + 2 ≤ len)
    (hzero : load16 mem (a + 2 * k) = 0) :
    wordSum (store16 mem (a + 2 * k) v) a len = wordSum mem a len + v.toNat := by
  -- on the number of words before it
  induction k generalizing a len with
  | zero =>
    obtain ⟨len, rfl⟩ : ∃ l, len = l + 2 := ⟨len - 2, by omega⟩
    have hword : load16 (store16 mem (a + 2 * 0) v) a = v :=
      load16_bytes16 fun j hj => by
        simp [store16, memput, hj]
    have hrest : wordSum (store16 mem (a + 2 * 0) v) (a + 2) len = wordSum mem (a + 2) len :=
      wordSum_congr fun j _ => memput_of_not (by omega)
    rw [wordSum_step, wordSum_step, hword, hrest]
    simp only [Nat.mul_zero, Nat.add_zero] at hzero
    simp [hzero, Nat.add_comm]
  | succ k ih =>
    obtain ⟨len, rfl⟩ : ∃ l, len = l + 2 := ⟨len - 2, by omega⟩
    have hplace : a + 2 * (k + 1) = a + 2 + 2 * k := by omega
    rw [hplace] at hzero ⊢
    have hword : load16 (store16 mem (a + 2 + 2 * k) v) a = load16 mem a :=
      load16_congr fun j hj => memput_of_not (by omega)
    rw [wordSum_step, wordSum_step, hword, ih (by omega) hzero]
    omega

/-- Where a header holds zero for its sum, in_cksum of the header stored
there makes in_cksum zero. -/
theorem inCksum_store16 (h : len ≤ 131070) (hk : 2 * k + 2 ≤ len)
    (hzero : load16 mem (a + 2 * k) = 0) :
    inCksum (store16 mem (a + 2 * k) (inCksum mem a len)) a len = 0 := by
  have hrep := onesRep_words mem a len
  generalize onesSum (2 ^ 16) (leWords (bytesAt mem a len)) = r at hrep
  have hv : (inCksum mem a len).toNat = 2 ^ 16 - 1 - r := by
    rw [inCksum_eq h hrep]
    have hr := hrep.lt
    simp
    omega
  have hones : OnesRep (2 ^ 16) (wordSum (store16 mem (a + 2 * k) (inCksum mem a len)) a len)
      (2 ^ 16 - 1) := by
    rw [wordSum_store16 hk hzero, hv]
    exact hrep.complement (by norm_num)
  rw [inCksum_eq h hones]
  decide

/-- in_cksum is the complement of the ones'-complement sum of the words,
its accumulator is the sum of the words as numbers, and the sum stored in
a header whose ip_sum is zero makes the header's own sum zero. -/
theorem in_cksum_complement (mem : Nat → UInt8) (a len : Nat)
    (h : len ≤ 131070) :
    (inCksumSum mem a len 0).toNat =
        (leWords (bytesAt mem a len)).sum ∧
      inCksum mem a len =
        ~~~ UInt16.ofNat (onesSum (2 ^ 16) (leWords (bytesAt mem a len))) ∧
      (12 ≤ len → load16 mem (a + 10) = 0 →
        inCksum (store16 mem (a + 10) (inCksum mem a len)) a len = 0) := by
  refine ⟨inCksumSum_exact h, inCksum_eq h (onesRep_words mem a len), ?_⟩
  intro hlen hzero
  exact inCksum_store16 (k := 5) h hlen hzero

/-- The header of 20 bytes whose bytes are all 0xff but the two of the
sum: its nine words of ones carry in both folds. -/
theorem in_cksum_complement_ones :
    (inCksumSum (fun x => if x = 10 ∨ x = 11 then 0 else 0xff) 0 20 0).toNat =
        9 * 65535 ∧
      inCksum (store16 (fun x => if x = 10 ∨ x = 11 then 0 else 0xff) (0 + 10)
        (inCksum (fun x => if x = 10 ∨ x = 11 then 0 else 0xff) 0 20)) 0 20 =
        0 := by
  have h := in_cksum_complement
    (fun x => if x = 10 ∨ x = 11 then 0 else 0xff) 0 20 (by decide)
  exact ⟨h.1.trans (by decide), h.2.2 (by decide) (by decide)⟩

theorem inCksum_congr (h : len ≤ 131070)
    (heq : ∀ j, j < len → mem' (a + j) = mem (a + j)) : inCksum mem' a len = inCksum mem a len := by
  have hbytes : bytesAt mem' a len = bytesAt mem a len :=
    List.map_congr_left fun j hj => heq j (List.mem_range.mp hj)
  rw [inCksum_eq h (onesRep_words mem' a len), hbytes, ← inCksum_eq h (onesRep_words mem a len)]

theorem sendHeaders_sum (mem : Nat → UInt8) (buf : Nat) (sport dst dport len : Int) :
    inCksum (sendHeaders mem buf sport dst dport len) (buf + 14) ipLen = 0 := by
  obtain ⟨m, v1, v2, v3, hm, hzero⟩ : ∃ m v1 v2 v3,
      sendHeaders mem buf sport dst dport len =
        store16 (store16 (store16 (store16 m (buf + 14 + 2 * 5)
          (inCksum m (buf + 14) ipLen)) (buf + 34) v1) (buf + 36) v2)
          (buf + 38) v3 ∧ load16 m (buf + 14 + 2 * 5) = 0 := by
    refine ⟨_, _, _, _, rfl, load16_bytes16 fun j hj => ?_⟩
    interval_cases j <;> simp [store16, store32, memput, memset, pgSize, bytes16, Nat.add_assoc]
  rw [hm, ← inCksum_store16 (by decide : ipLen ≤ 131070) (by decide) hzero]
  refine inCksum_congr (by decide) fun j hj => ?_
  -- the ports and the length of the datagram come after the header
  have hlt : j < 20 := hj
  unfold store16
  rw [memput_of_not (by omega), memput_of_not (by omega), memput_of_not (by omega)]

/-- The header of every frame that sys_send hands to e1000_transmit sums to
zero, whatever its arguments and the user's memory are. -/
theorem send_header_sums {n n' : Net} {pt : PageTable} {bufaddr buf : Nat}
    {sport dst dport len total : Int}
    (h : sysSendFrame n pt sport dst dport bufaddr len
      = .ok (some (buf, total), n')) :
    inCksum n'.phys.mem (buf + ethLen) ipLen = 0 := by
  unfold sysSendFrame at h
  extract_lets at h
  split at h
  · cases h
  split at h
  · cases h
  · next b n₁ hk =>
    obtain ⟨ok, mem', hcopy, hframe⟩ := copyinUser_total pt
      (sendHeaders n₁.phys.mem b sport dst dport len) (b + headersLen)
      bufaddr (u64 len)
    dsimp only at h
    rw [hcopy] at h
    obtain ⟨r, hr, h⟩ := bind_ok h
    cases hr
    cases ok with
    | false =>
      obtain ⟨_, _, h⟩ := bind_ok h
      cases h
    | true =>
      simp only [pure_eq, Except.ok.injEq, Prod.mk.injEq, Option.some.injEq] at h
      obtain ⟨⟨rfl, _⟩, rfl⟩ := h
      refine Eq.trans (inCksum_congr (by decide) fun j hj => hframe _ ?_)
        (sendHeaders_sum n₁.phys.mem b sport dst dport len)
      unfold headersLen ethLen ipLen udpLen at *
      omega

/-- A datagram of four bytes. -/
theorem send_header_sums_four : ∃ n',
    sysSendFrame (idleNet [1, 2, 3, 4]) (onePage 0x87000000) 9 0x0a00020f 7 0 4
        = .ok (some (0x87001000, 46), n') ∧
      bytesAt n'.phys.mem (0x87001000 + headersLen) 4 = [1, 2, 3, 4] ∧
      inCksum n'.phys.mem (0x87001000 + ethLen) ipLen = 0 := by
  have h : sysSendFrame (idleNet [1, 2, 3, 4]) (onePage 0x87000000) 9
      0x0a00020f 7 0 4 = .ok (some (0x87001000, 46), _) := rfl
  exact ⟨_, h, by decide, send_header_sums h⟩

end Xv6Labs.Model
