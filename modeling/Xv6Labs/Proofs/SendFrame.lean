/-
The frames that sys_send builds, read back: the headers do not overlap, so
each field reads as it was stored, and the payload follows them.
-/
import Mathlib.Tactic.IntervalCases
import Xv6Labs.Proofs.NetRx
import Xv6Labs.Proofs.UserCopy

namespace Xv6Labs.Model

open Lib

-- == byte order

-- two words are equal when all their bits are: each bit is one case

theorem bswaps_bswaps (v : UInt16) : bswaps (bswaps v) = v := by
  unfold bswaps
  apply UInt16.eq_of_toBitVec_eq
  ext i hi
  simp
  interval_cases i <;> simp

theorem bswapl_bswapl (v : UInt32) : bswapl (bswapl v) = v := by
  unfold bswapl
  apply UInt32.eq_of_toBitVec_eq
  ext i hi
  simp
  interval_cases i <;> simp

section

variable {mem : Nat → UInt8} {a buf : Nat}
variable {dport len sport : Int}

theorem load16_bytes16 {v : UInt16}
    (h : ∀ j, j < 2 → mem (a + j) = bytes16 v j) : load16 mem a = v := by
  have h0 : mem a = bytes16 v 0 := h 0 (by decide)
  unfold load16
  rw [h0, h 1 (by decide)]
  unfold bytes16
  apply UInt16.eq_of_toBitVec_eq
  ext i hi
  simp [-UInt16.toUInt16_toUInt8]
  interval_cases i <;> simp

theorem load32_bytes32 {v : UInt32}
    (h : ∀ j, j < 4 → mem (a + j) = bytes32 v j) : load32 mem a = v := by
  have h0 : mem a = bytes32 v 0 := h 0 (by decide)
  unfold load32
  rw [h0, h 1 (by decide), h 2 (by decide), h 3 (by decide)]
  unfold bytes32
  apply UInt32.eq_of_toBitVec_eq
  ext i hi
  simp [-UInt32.toUInt32_toUInt8]
  interval_cases i <;> simp

-- == the headers

theorem memput_at (mem : Nat → UInt8) (buf o n k : Nat) (f : Nat → UInt8) :
    memput mem (buf + o) n f (buf + k) =
      if o ≤ k ∧ k < o + n then f (k - o) else mem (buf + k) := by
  unfold memput
  by_cases h : o ≤ k ∧ k < o + n
  · rw [if_pos h, if_pos (by omega), Nat.add_sub_add_left]
  · rw [if_neg h, if_neg (by omega)]

/-- The headers of a frame of sys_send, as far as they are read. -/
structure SendHeaders (mem : Nat → UInt8) (buf : Nat) (sport dport len : Int) : Prop where
  type : load16 mem (buf + 12) = bswaps ethtypeIp
  protocol : mem (buf + 23) = 17
  src : load32 mem (buf + ethLen + 12) = bswapl localIp
  sport : load16 mem (buf + ethLen + ipLen) = bswaps (toU16 sport)
  dport : load16 mem (buf + ethLen + ipLen + 2) = bswaps (toU16 dport)
  ulen : load16 mem (buf + ethLen + ipLen + 4) = bswaps (toU16 (len + udpLen))

theorem sendHeaders_spec (mem : Nat → UInt8) (buf : Nat) (sport dst dport len : Int) :
    SendHeaders (sendHeaders mem buf sport dst dport len) buf sport dport len := by
  refine ⟨load16_bytes16 ?_, ?_, load32_bytes32 ?_, load16_bytes16 ?_,
    load16_bytes16 ?_, load16_bytes16 ?_⟩
  all_goals
    try intro j hj
    try interval_cases j
    all_goals
      unfold sendHeaders store16 store32
      simp [memput_at, ethLen, ipLen, Nat.add_assoc]

/-- The headers are in the first bytes of the page. -/
theorem SendHeaders.congr {mem' : Nat → UInt8} {buf' : Nat}
    (h : SendHeaders mem buf sport dport len)
    (heq : ∀ j, j < headersLen → mem' (buf' + j) = mem (buf + j)) :
    SendHeaders mem' buf' sport dport len := by
  have h16 : ∀ o, o + 2 ≤ headersLen → load16 mem' (buf' + o) = load16 mem (buf + o) := by
    intro o ho
    unfold load16
    rw [heq o (by omega), Nat.add_assoc, heq (o + 1) (by omega)]
    rfl
  have h32 : load32 mem' (buf' + 26) = load32 mem (buf + 26) := by
    unfold load32
    rw [heq 26 (by decide), heq (26 + 1) (by decide),
      heq (26 + 2) (by decide), heq (26 + 3) (by decide)]
  exact ⟨(h16 12 (by decide)).trans h.type, (heq 23 (by decide)).trans h.protocol, h32.trans h.src,
    (h16 34 (by decide)).trans h.sport, (h16 36 (by decide)).trans h.dport,
    (h16 38 (by decide)).trans h.ulen⟩

-- == the packet

theorem length_bytesAt (mem : Nat → UInt8) (a k : Nat) : (bytesAt mem a k).length = k := by
  unfold bytesAt
  rw [List.length_map, List.length_range]

theorem bytesAt_eq {bs : List UInt8} (h : ∀ (j : Nat) b, bs[j]? = some b → mem (a + j) = b) :
    bytesAt mem a bs.length = bs := by
  unfold bytesAt
  refine List.ext_getElem ?_ ?_
  · rw [List.length_map, List.length_range]
  · intro j hj hj'
    rw [List.getElem_map, List.getElem_range]
    exact h j _ (List.getElem?_eq_getElem hj')

theorem toU16_toNat {k : Nat} (hk : k < 2 ^ 16) : (toU16 k).toNat = k := by
  unfold toU16 u16
  rw [UInt16.toNat_ofNat']
  omega

/-- ip_rx finds in the frame what sys_send was called with. -/
theorem SendHeaders.packet {payload : List UInt8}
    (h : SendHeaders mem buf sport dport payload.length)
    (hlen : payload.length + headersLen ≤ pgSize)
    (hpay : ∀ (j : Nat) b, payload[j]? = some b → mem (buf + headersLen + j) = b) :
    ¬ Malformed mem buf (payload.length + headersLen : Nat) ∧
      frameUlen mem buf - udpLen = payload.length ∧ frameDport mem buf = toU16 dport ∧
      framePacket mem buf = ⟨payload, localIp, toU16 sport⟩ := by
  have hulen : frameUlen mem buf = payload.length + udpLen := by
    unfold frameUlen
    rw [h.ulen, bswaps_bswaps]
    refine toU16_toNat ?_
    unfold pgSize headersLen ethLen ipLen udpLen at *
    omega
  have hdata : frameUlen mem buf - udpLen = payload.length := by omega
  refine ⟨?_, hdata, ?_, ?_⟩
  · unfold Malformed u64
    unfold pgSize headersLen ethLen ipLen udpLen at *
    omega
  · unfold frameDport
    rw [h.dport, bswaps_bswaps]
  · unfold framePacket
    rw [hdata, bytesAt_eq hpay, h.src, bswapl_bswapl, h.sport, bswaps_bswaps]

-- == sys_send

theorem sendHeaders_apart {dst : Int} (h : ¬ (buf ≤ a ∧ a < buf + pgSize)) :
    sendHeaders mem buf sport dst dport len a = mem a := by
  unfold pgSize at h
  unfold sendHeaders store16 store32 memput
  repeat rw [if_neg (by omega)]
  exact memset_apart h

/-- The length that sys_send passes on, where no conversion changes it. -/
theorem send_total (len : Int) (hlen : 0 ≤ len) (hmax : len + headersLen < 2 ^ 31) :
    i32 (u64 len + headersLen) = len + headersLen := by
  have hu : (u64 len : Int) = len := by
    unfold u64
    omega
  unfold i32
  rw [Int.bmod_def]
  split <;> omega

/-- A frame of sys_send in page `buf`. -/
structure Net.Built (n n' : Net) (qs : List (List Nat)) (xs all : List Nat)
    (buf : Nat) (sport dport len : Int) : Prop where
  owns : n'.Owns qs (buf :: xs) all
  page : buf ∈ n.phys.freelist
  fits : len + headersLen ≤ pgSize
  headers : SendHeaders n'.phys.mem buf sport dport len
  tx : n'.tx = n.tx
  mem : ∀ a, ¬ (buf ≤ a ∧ a < buf + pgSize) → n'.phys.mem a = n.phys.mem a

/-- sys_send up to e1000_transmit. -/
theorem Net.Owns.send {n : Net} {qs : List (List Nat)} {xs all : List Nat}
    (pt : PageTable) (sport dst dport : Int) (bufaddr : Nat)
    (h : n.Owns qs xs all) (hlen : 0 ≤ len) (hmax : len + headersLen < 2 ^ 31) :
    (∃ n', sysSendFrame n pt sport dst dport bufaddr len = .ok (none, n') ∧
      n'.Owns qs xs all ∧ n'.tx = n.tx ∧
      ∀ a, (∀ p ∈ n.phys.freelist, ¬ (p ≤ a ∧ a < p + pgSize)) → n'.phys.mem a = n.phys.mem a) ∨
    ∃ buf n', sysSendFrame n pt sport dst dport bufaddr len =
        .ok (some (buf, len + headersLen), n') ∧
      n.Built n' qs xs all buf sport dport len := by
  unfold sysSendFrame
  rw [send_total len hlen hmax]
  by_cases hbig : pgSize < len + headersLen
  · rw [if_pos hbig]
    exact .inl ⟨n, rfl, h, rfl, fun _ _ => rfl⟩
  rw [if_neg hbig]
  obtain ⟨hf, heq⟩ | ⟨buf, n1, heq, hf⟩ := n.kalloc_cases
  · rw [heq]
    exact .inl ⟨n, rfl, h, rfl, fun _ _ => rfl⟩
  rw [heq]
  dsimp only
  obtain ⟨hown1, _, hpage, htx1, _, hmem1⟩ := h.kalloc heq
  have hin := Net.kalloc_mem heq
  obtain ⟨b, mem', hcopy, hframe⟩ := copyinUser_total pt
    (sendHeaders n1.phys.mem buf sport dst dport len) (buf + headersLen) bufaddr (u64 len)
  have hlen' : u64 len = len.toNat := by
    unfold u64
    omega
  have hmem : ∀ a, ¬ (buf ≤ a ∧ a < buf + pgSize) → mem' a = n.phys.mem a := by
    intro a ha
    rw [hframe a (by omega), sendHeaders_apart ha, hmem1 a ha]
  rw [hcopy]
  cases b with
  | false =>
    obtain ⟨n', hk, hown', _, _, htx', _, _, hmem'⟩ := (hown1.setMem mem').kfree
    refine .inl ⟨n', ?_, hown', htx'.trans htx1, ?_⟩
    · show (do
        let n ← (n1.setMem mem').kfree buf
        pure (none, n)) = Except.ok (none, n')
      rw [hk]
      rfl
    · intro a ha
      rw [hmem' a (ha buf hin)]
      exact hmem a (ha buf hin)
  | true =>
    refine .inr ⟨buf, _, rfl, hown1.setMem mem', hin, by omega, ?_, htx1, hmem⟩
    refine (sendHeaders_spec n1.phys.mem buf sport dst dport len).congr ?_
    intro j hj
    exact hframe _ (by omega)

end

end Xv6Labs.Model
