/-
What sys_recv writes to user memory.

copyout is `userPut`, so with a length that is not negative sys_recv is
three times `userPut` of bytes of the packet. A negative `maxlen` is the
smaller of the two lengths, and copyout copies on behind the packet.
-/
import Xv6Labs.Proofs.RoundTrip

namespace Xv6Labs.Model

open Lib Function

variable {a pa : Nat} {f : Nat → UInt8} {src : (Nat → UInt8) → Nat → UInt8}

-- == bytes to users

/-- `bs` to the user addresses from `va` on, up to the first that the user
may not write. -/
def userPut (pt : PageTable) : Nat → List UInt8 → (Nat → UInt8) → Bool × (Nat → UInt8)
  | _, [], mem => (true, mem)
  | va, b :: bs, mem =>
    match pt.find Pte.forCopyout (u64 va) with
    | none => (false, mem)
    | some pa => userPut pt (va + 1) bs (update mem pa b)

section

variable {pt : PageTable} {va len : Nat} {mem mem' : Nat → UInt8}
  {xs ys bs : List UInt8}

theorem userPut_append :
    userPut pt va (xs ++ ys) mem =
      match userPut pt va xs mem with
      | (false, m) => (false, m)
      | (true, m) => userPut pt (va + xs.length) ys m := by
  induction xs generalizing va mem with
  | nil => rfl
  | cons x xs ih =>
    have hva : va + (x :: xs).length = va + 1 + xs.length := by
      rw [List.length_cons]
      omega
    rw [hva]
    simp only [List.cons_append, userPut]
    cases pt.find Pte.forCopyout (u64 va) with
    | none => rfl
    | some pa => exact ih

theorem userPut_none (h : pt.find Pte.forCopyout (u64 va) = none)
    (hbs : bs ≠ []) : userPut pt va bs mem = (false, mem) := by
  cases bs with
  | nil => exact absurd rfl hbs
  | cons b bs => simp only [userPut, h]

/-- Within one page. -/
theorem userPut_page (h : pt.find Pte.forCopyout (u64 va) = some pa)
    (hroom : va % pgSize + bs.length ≤ pgSize) :
    userPut pt va bs mem = (true, memput mem pa bs.length (bytesOf bs)) := by
  induction bs generalizing va pa mem with
  | nil =>
    refine Prod.ext rfl (funext fun a => ?_)
    exact (if_neg (by simp)).symm
  | cons b bs ih =>
    have hput : memput mem pa (b :: bs).length (bytesOf (b :: bs)) =
        memput (update mem pa b) (pa + 1) bs.length (bytesOf bs) := by
      funext a
      unfold memput
      by_cases ha : a = pa
      · subst ha
        simp [bytesOf]
      rw [update_of_ne ha]
      by_cases hin : pa + 1 ≤ a ∧ a < pa + 1 + bs.length
      · have hsub : a - pa = a - (pa + 1) + 1 := by omega
        rw [if_pos (by rw [List.length_cons]; omega), if_pos hin, hsub]
        rfl
      · rw [if_neg (by rw [List.length_cons]; omega), if_neg hin]
    rw [hput]
    simp only [userPut, h]
    cases hbs : bs with
    | nil =>
      refine Prod.ext rfl (funext fun a => ?_)
      exact (if_neg (by simp)).symm
    | cons c cs =>
      rw [← hbs]
      rw [List.length_cons] at hroom
      have hpos : 0 < bs.length := by
        rw [hbs]
        exact Nat.succ_pos _
      have hmod := u64_mod_page va 0
      rw [Int.natCast_zero, Int.add_zero, Nat.add_zero] at hmod
      have hnext := PageTable.find_add (n := 1) h (by omega)
      have hstep : u64 ((va + 1 : Nat) : Int) = u64 va + 1 := by
        unfold u64 pgSize at *
        omega
      refine ih (hstep ▸ hnext) ?_
      unfold pgSize at *
      omega

theorem userPut_congr (pt : PageTable) (va : Nat) (bs : List UInt8) (h : mem' a = mem a) :
    (userPut pt va bs mem').1 = (userPut pt va bs mem).1 ∧
      (userPut pt va bs mem').2 a = (userPut pt va bs mem).2 a := by
  induction bs generalizing va mem mem' with
  | nil => exact ⟨rfl, h⟩
  | cons b bs ih =>
    simp only [userPut]
    cases pt.find Pte.forCopyout (u64 va) with
    | none => exact ⟨rfl, h⟩
    | some pa =>
      refine ih (va + 1) ?_
      by_cases ha : a = pa
      · subst ha
        rw [update_self, update_self]
      · rw [update_of_ne ha, update_of_ne ha, h]

theorem userPut_outside (va : Nat) (bs : List UInt8) (mem : Nat → UInt8)
    (ha : pt.Outside a) : (userPut pt va bs mem).2 a = mem a := by
  induction bs generalizing va mem with
  | nil => rfl
  | cons b bs ih =>
    simp only [userPut]
    cases hfind : pt.find Pte.forCopyout (u64 va) with
    | none => rfl
    | some pa =>
      rw [ih]
      refine update_of_ne ?_ ..
      rintro rfl
      exact PageTable.not_outside_of_find hfind ha

/-- Every byte is written exactly if the user may write the area. -/
theorem userPut_fst (va : Nat) (bs : List UInt8) (mem : Nat → UInt8) :
    (userPut pt va bs mem).1 = true ↔ pt.Covers Pte.forCopyout va bs.length := by
  induction bs generalizing va mem with
  | nil => simp [userPut, PageTable.Covers]
  | cons b bs ih =>
    simp only [userPut]
    have hsucc : ∀ j : Nat, ((va + 1 : Nat) : Int) + j = va + (j + 1 : Nat) := fun j => by omega
    cases hfind : pt.find Pte.forCopyout (u64 va) with
    | none =>
      refine ⟨fun h => absurd h Bool.false_ne_true, fun h => ?_⟩
      obtain ⟨pa, hpa⟩ := h 0 (Nat.succ_pos _)
      rw [Int.natCast_zero, Int.add_zero, hfind] at hpa
      cases hpa
    | some pa =>
      refine (ih ..).trans ⟨fun h j hj => ?_, fun h j hj => ?_⟩
      · cases j with
        | zero => exact ⟨pa, by rw [Int.natCast_zero]; exact hfind⟩
        | succ j =>
          rw [← hsucc]
          exact h j (Nat.lt_of_succ_lt_succ hj)
      · rw [hsucc]
        exact h (j + 1) (Nat.succ_lt_succ hj)

theorem bytesOf_map_range {n i : Nat} (hi : i < n) : bytesOf ((List.range n).map f) i = f i := by
  simp [bytesOf, List.getD, List.getElem?_range hi]

theorem memput_congr {d n : Nat} {g : Nat → UInt8}
    (h : ∀ i, i < n → g i = f i) : memput mem d n g = memput mem d n f := by
  funext a
  unfold memput
  split
  · exact h _ (by omega)
  · rfl

section

variable {f : Nat → UInt8} {m : Nat → UInt8} {done n : Nat}

/-- The bytes of one more page. -/
theorem userPut_range_some (hput : userPut pt va ((List.range done).map f) mem = (true, m))
    (hfind : pt.find Pte.forCopyout (u64 (va + done)) = some pa)
    (hroom : (va + done) % pgSize + n ≤ pgSize) :
    userPut pt va ((List.range (done + n)).map f) mem =
      (true, memput m pa n fun i => f (done + i)) := by
  rw [List.range_add, List.map_append, userPut_append, hput]
  dsimp only
  rw [List.map_map, List.length_map, List.length_range,
    userPut_page (by rw [Nat.cast_add]; exact hfind) (by simpa using hroom),
    List.length_map, List.length_range]
  exact Prod.ext rfl (memput_congr fun i hi => bytesOf_map_range hi)

/-- The next page may not be written. -/
theorem userPut_range_none (hput : userPut pt va ((List.range done).map f) mem = (true, m))
    (hfind : pt.find Pte.forCopyout (u64 (va + done)) = none) (hlt : done < len) :
    userPut pt va ((List.range len).map f) mem = (false, m) := by
  obtain ⟨n, rfl⟩ : ∃ n, len = done + (n + 1) := ⟨len - done - 1, by omega⟩
  rw [List.range_add, List.map_append, userPut_append, hput]
  rw [List.length_map, List.length_range]
  refine userPut_none (by rw [Nat.cast_add]; exact hfind) ?_
  simp

end

/-- copyout from a source outside the user's pages. -/
theorem copyoutUser_eq_put
    (hsrc : ∀ m, (∀ a, pt.Outside a → m a = mem a) → ∀ i, i < len → src m i = f i) :
    copyoutUser pt mem va src len = .ok (userPut pt va ((List.range len).map f) mem) := by
  -- after each turn the bytes so far were put, all of them
  have hends : CopyEnds pt Pte.forCopyout va len
      (fun done m => userPut pt va ((List.range done).map f) mem = (true, m))
      (copyoutUser pt mem va src len) := by
    refine copyoutUser_ends ?_ rfl
    intro done m n pa hput _ hle hroom hfind
    have hm : ∀ a, pt.Outside a → m a = mem a := by
      intro a ha
      have hout := userPut_outside va ((List.range done).map f) mem ha
      rw [hput] at hout
      exact hout
    rw [userPut_range_some hput hfind hroom]
    refine congrArg (Prod.mk true) (memput_congr fun i hi => ?_)
    exact (hsrc m hm _ (by omega)).symm
  obtain ⟨m, hrun, hput⟩ | ⟨done, m, hrun, hlt, hnone, hput⟩ := hends
  · rw [hrun, hput]
  · rw [hrun, userPut_range_none hput hnone hlt]

theorem copyoutUser_none (hfind : pt.find Pte.forCopyout (u64 va) = none)
    (hlen : 0 < len) : copyoutUser pt mem va src len = .ok (false, mem) := by
  have hends : CopyEnds pt Pte.forCopyout va len (fun done m => done = 0 ∧ m = mem)
      (copyoutUser pt mem va src len) := by
    refine copyoutUser_ends ?_ ⟨rfl, rfl⟩
    rintro _ _ n pa ⟨rfl, rfl⟩ _ _ _ hsome
    rw [Int.natCast_zero, Int.add_zero, hfind] at hsome
    cases hsome
  obtain ⟨_, _, hzero, _⟩ | ⟨_, _, hrun, _, _, _, rfl⟩ := hends
  · omega
  · exact hrun

/-- copyout to a first address that the user may write: the byte there is
the first of the source, whatever comes after it. -/
theorem copyoutUser_first {b : Bool} (hpt : pt.Simple)
    (hfind : pt.find Pte.forCopyout (u64 va) = some pa) (hpos : 0 < len)
    (hlen : len < 2 ^ 64) (h : copyoutUser pt mem va src len = .ok (b, mem')) :
    mem' pa = src mem 0 := by
  have hends : CopyEnds pt Pte.forCopyout va len
      (fun done m => (done = 0 → m = mem) ∧ (0 < done → m pa = src mem 0))
      (copyoutUser pt mem va src len) := by
    refine copyoutUser_ends ?_ ⟨fun _ => rfl, fun h0 => absurd h0 (Nat.lt_irrefl 0)⟩
    rintro done m n pb ⟨hfirst, hput⟩ hn hle hroom hnext
    refine ⟨fun h => by omega, fun _ => ?_⟩
    by_cases h0 : done = 0
    · subst h0
      rw [Int.natCast_zero, Int.add_zero, hfind] at hnext
      cases hnext
      rw [hfirst rfl]
      simp [memput, hn]
    · refine (memput_of_not fun hin => ?_).trans (hput (by omega))
      -- a later byte is at another address
      have hat := PageTable.find_turn (i := pa - pb) hnext hroom (by omega)
      rw [Nat.add_sub_cancel' hin.1] at hat
      have hva := hpt.find_inj hfind hat
      unfold u64 at hva
      omega
  rw [h] at hends
  obtain ⟨_, hrun, _, hput⟩ | ⟨done, _, hrun, _, hnone, _, hput⟩ := hends
  · cases hrun
    exact hput hpos
  · cases hrun
    refine hput (Nat.pos_of_ne_zero fun h0 => ?_)
    rw [h0, Int.natCast_zero, Int.add_zero, hfind] at hnone
    cases hnone

end

-- == several areas

/-- Bytes to several areas, up to the first that could not be written. -/
def userPuts (pt : PageTable) : List (Nat × List UInt8) → (Nat → UInt8) → Bool × (Nat → UInt8)
  | [], mem => (true, mem)
  | (va, bs) :: areas, mem =>
    match userPut pt va bs mem with
    | (false, mem) => (false, mem)
    | (true, mem) => userPuts pt areas mem

section

variable {pt : PageTable} {mem mem' : Nat → UInt8}

theorem userPuts_one (va : Nat) (bs : List UInt8) :
    userPuts pt [(va, bs)] mem = userPut pt va bs mem := by
  simp only [userPuts]
  obtain ⟨b, m⟩ := userPut pt va bs mem
  cases b <;> rfl

theorem userPuts_append (xs ys : List (Nat × List UInt8)) :
    userPuts pt (xs ++ ys) mem =
      match userPuts pt xs mem with
      | (false, m) => (false, m)
      | (true, m) => userPuts pt ys m := by
  induction xs generalizing mem with
  | nil => rfl
  | cons x xs ih =>
    obtain ⟨va, bs⟩ := x
    simp only [List.cons_append, userPuts]
    obtain ⟨b, m⟩ := userPut pt va bs mem
    cases b with
    | false => rfl
    | true => exact ih

theorem userPuts_fst (areas : List (Nat × List UInt8)) :
    (userPuts pt areas mem).1 = true ↔ ∀ x ∈ areas, pt.Covers Pte.forCopyout x.1 x.2.length := by
  induction areas generalizing mem with
  | nil => simp [userPuts]
  | cons x areas ih =>
    obtain ⟨va, bs⟩ := x
    rw [List.forall_mem_cons]
    simp only [userPuts]
    rw [← userPut_fst va bs mem]
    generalize userPut pt va bs mem = r
    obtain ⟨b, m⟩ := r
    cases b with
    | false => simp
    | true => simpa using ih

theorem userPuts_fst_congr (pt : PageTable)
    (areas : List (Nat × List UInt8)) (mem mem' : Nat → UInt8) :
    (userPuts pt areas mem).1 = (userPuts pt areas mem').1 :=
  Bool.eq_iff_iff.mpr ((userPuts_fst areas).trans (userPuts_fst areas).symm)

theorem userPuts_congr (areas : List (Nat × List UInt8)) (h : mem' a = mem a) :
    (userPuts pt areas mem').1 = (userPuts pt areas mem).1 ∧
      (userPuts pt areas mem').2 a = (userPuts pt areas mem).2 a := by
  induction areas generalizing mem mem' with
  | nil => exact ⟨rfl, h⟩
  | cons x areas ih =>
    obtain ⟨va, bs⟩ := x
    obtain ⟨hfst, hsnd⟩ := userPut_congr pt va bs h
    simp only [userPuts]
    generalize userPut pt va bs mem = r at hfst hsnd ⊢
    generalize userPut pt va bs mem' = r' at hfst hsnd ⊢
    obtain ⟨b, m⟩ := r
    obtain ⟨b', m'⟩ := r'
    cases hfst
    cases b with
    | false => exact ⟨rfl, hsnd⟩
    | true => exact ih hsnd

theorem userPuts_outside (areas : List (Nat × List UInt8))
    (ha : pt.Outside a) : (userPuts pt areas mem).2 a = mem a := by
  induction areas generalizing mem with
  | nil => rfl
  | cons x areas ih =>
    obtain ⟨va, bs⟩ := x
    have hput := userPut_outside va bs mem ha
    simp only [userPuts]
    generalize userPut pt va bs mem = r at hput ⊢
    obtain ⟨b, m⟩ := r
    cases b with
    | false => exact hput
    | true => exact ih.trans hput

end

-- == sys_recv

/-- Where the sender's address and port go. -/
def addressAreas (srcIp : UInt32) (srcPort : UInt16) (srcArg sportArg : Nat) :
    List (Nat × List UInt8) :=
  [(srcArg, word32 srcIp), (sportArg, word16 srcPort)]

/-- What sys_recv is to write to user memory: whether all of it could be
written, and the memory then. -/
def recvWrites (pt : PageTable) (mem : Nat → UInt8) (pkt : Packet)
    (srcArg sportArg buf : Nat) (maxlen : Int) : Bool × (Nat → UInt8) :=
  userPuts pt (addressAreas pkt.srcIp pkt.srcPort srcArg sportArg ++
    [(buf, pkt.data.take maxlen.toNat)]) mem

/-- User memory is as it is to be, and the result is the number of payload
bytes, or -1 where not all could be written or `maxlen` is negative. -/
structure RecvExact (pt : PageTable) (mem mem' : Nat → UInt8) (pkt : Packet)
    (srcArg sportArg buf : Nat) (maxlen ret : Int) : Prop where
  user : ∀ a, ¬ pt.Outside a → mem' a = (recvWrites pt mem pkt srcArg sportArg buf maxlen).2 a
  ret : (ret = if (recvWrites pt mem pkt srcArg sportArg buf maxlen).1 then
      ((pkt.data.take maxlen.toNat).length : Int) else -1) ∨
    maxlen < 0 ∧ ret = -1

/-- `maxlen` is not negative, or the payload is not copied at all. -/
def RecvBounded (pt : PageTable) (srcArg sportArg buf : Nat) (maxlen : Int) : Prop :=
  0 ≤ maxlen ∨ ¬ pt.Covers Pte.forCopyout srcArg 4 ∨
    ¬ pt.Covers Pte.forCopyout sportArg 2 ∨
    pt.find Pte.forCopyout (u64 buf) = none

section

variable {pt : PageTable} {mem mem' : Nat → UInt8} {pk : PendingPacket}
  {pkt : Packet} {srcArg sportArg buf : Nat} {maxlen : Int}

theorem addressAreas_fst {srcIp : UInt32} {srcPort : UInt16} :
    (userPuts pt (addressAreas srcIp srcPort srcArg sportArg) mem).1 = true ↔
      pt.Covers Pte.forCopyout srcArg 4 ∧ pt.Covers Pte.forCopyout sportArg 2 := by
  rw [userPuts_fst]
  simp [addressAreas, word32, word16]

/-- The length that sys_recv copies. -/
def copyLen (pk : PendingPacket) (maxlen : Int) : Int := if maxlen < pk.len then maxlen else pk.len

/-- The last copy of sys_recv. -/
def recvPayload (pt : PageTable) (mem : Nat → UInt8) (pk : PendingPacket)
    (buf : Nat) (maxlen : Int) : Except Panic (Int × (Nat → UInt8)) := do
  match ← copyoutUser pt mem buf (fun mem i => mem (pk.data + i)) (u64 (copyLen pk maxlen)) with
  | (false, mem) => pure (-1, mem)
  | (true, mem) => pure (copyLen pk maxlen, mem)

/-- The first two copies of sys_recv, and then the payload. -/
theorem recvCopies_eq :
    recvCopies pt mem pk srcArg sportArg buf maxlen =
      match userPuts pt (addressAreas pk.srcIp pk.srcPort srcArg sportArg) mem with
      | (false, m) => .ok (-1, m)
      | (true, m) => recvPayload pt m pk buf maxlen := by
  have h1 : copyoutUser pt mem srcArg (fun _ => bytes32 pk.srcIp) 4 =
      .ok (userPut pt srcArg (word32 pk.srcIp) mem) :=
    copyoutUser_eq_put fun _ _ _ _ => rfl
  unfold recvCopies
  rw [h1, ok_bind]
  simp only [addressAreas, userPuts]
  obtain ⟨b1, m1⟩ := userPut pt srcArg (word32 pk.srcIp) mem
  cases b1 with
  | false => rfl
  | true =>
    have h2 : copyoutUser pt m1 sportArg (fun _ => bytes16 pk.srcPort) 2 =
        .ok (userPut pt sportArg (word16 pk.srcPort) m1) :=
      copyoutUser_eq_put fun _ _ _ _ => rfl
    dsimp only
    rw [h2]
    obtain ⟨b2, m2⟩ := userPut pt sportArg (word16 pk.srcPort) m1
    cases b2 with
    | false => rfl
    | true => rfl

/-- The packet in a record, as the queue has it. -/
def PendingPacket.packet (pk : PendingPacket) (mem : Nat → UInt8) : Packet :=
  ⟨bytesAt mem pk.data pk.len.toNat, pk.srcIp, pk.srcPort⟩

theorem take_bytesAt (a j k : Nat) :
    (bytesAt mem a k).take j = (List.range (min j k)).map fun i => mem (a + i) := by
  unfold bytesAt
  rw [← List.map_take, List.take_range]

theorem recvPayload_nonneg {m : Nat → UInt8} (h0 : 0 ≤ maxlen) (hlen : 0 ≤ pk.len ∧ pk.len ≤ pgSize)
    (hout : ∀ a, pk.data ≤ a → a < pk.data + pgSize → pt.Outside a)
    (hm : ∀ a, pt.Outside a → m a = mem a) :
    recvPayload pt m pk buf maxlen =
      let data := (pk.packet mem).data.take maxlen.toNat
      .ok (if (userPut pt buf data m).1 then (data.length : Int) else -1,
        (userPut pt buf data m).2) := by
  have hmin : copyLen pk maxlen = (min maxlen.toNat pk.len.toNat : Nat) := by
    unfold copyLen
    split <;> omega
  have hu : u64 (copyLen pk maxlen) = min maxlen.toNat pk.len.toNat := by
    refine u64_of_lt hmin ?_
    unfold pgSize at hlen
    omega
  have hput : copyoutUser pt m buf (fun mem i => mem (pk.data + i)) (u64 (copyLen pk maxlen)) =
      .ok (userPut pt buf ((pk.packet mem).data.take maxlen.toNat) m) := by
    unfold PendingPacket.packet
    rw [hu, take_bytesAt]
    refine copyoutUser_eq_put fun m' hm' i hi => ?_
    have hat := hout (pk.data + i) (Nat.le_add_right ..) (by omega)
    exact (hm' _ hat).trans (hm _ hat)
  have hcount : copyLen pk maxlen = (((pk.packet mem).data.take maxlen.toNat).length : Int) := by
    unfold PendingPacket.packet
    rw [take_bytesAt, hmin]
    simp
  unfold recvPayload
  dsimp only
  rw [hput, ← hcount]
  generalize userPut pt buf _ m = r
  obtain ⟨b, m'⟩ := r
  cases b <;> rfl

/-- The copies do what they are to do where the payload's length is not
negative, or none of it is copied. -/
theorem recvCopies_bounded (hb : RecvBounded pt srcArg sportArg buf maxlen)
    (hlen : 0 ≤ pk.len ∧ pk.len ≤ pgSize) (hmin : -(2 ^ 31) ≤ maxlen)
    (hout : ∀ a, pk.data ≤ a → a < pk.data + pgSize → pt.Outside a) :
    recvCopies pt mem pk srcArg sportArg buf maxlen =
      let w := recvWrites pt mem (pk.packet mem) srcArg sportArg buf maxlen
      .ok (if 0 ≤ maxlen ∧ w.1 then
          (((pk.packet mem).data.take maxlen.toNat).length : Int) else -1,
        w.2) := by
  have hsame : ∀ a, pt.Outside a → (userPuts pt
      (addressAreas pk.srcIp pk.srcPort srcArg sportArg) mem).2 a = mem a :=
    fun a ha => userPuts_outside _ ha
  have hfst : (userPuts pt (addressAreas pk.srcIp pk.srcPort srcArg sportArg) mem).1 = true ↔ _ :=
    addressAreas_fst
  rw [recvCopies_eq]
  unfold recvWrites
  rw [userPuts_append]
  dsimp only [PendingPacket.packet] at hsame hfst ⊢
  generalize userPuts pt (addressAreas pk.srcIp pk.srcPort srcArg sportArg) mem = r at hsame hfst ⊢
  obtain ⟨b, m⟩ := r
  cases b with
  | false => simp
  | true =>
    dsimp only at hsame ⊢
    by_cases h0 : 0 ≤ maxlen
    · rw [recvPayload_nonneg h0 hlen hout hsame]
      simp [userPuts_one, PendingPacket.packet, h0]
    have hcov := hfst.mp rfl
    have hnone : pt.find Pte.forCopyout (u64 buf) = none := by
      rcases hb with hb | hb | hb | hb
      · exact absurd hb h0
      · exact absurd hcov.1 hb
      · exact absurd hcov.2 hb
      · exact hb
    have hlt : maxlen < pk.len := by omega
    unfold recvPayload copyLen
    rw [copyoutUser_none hnone (by unfold u64; omega)]
    have hnat : maxlen.toNat = 0 := by omega
    simp [h0, hnat, userPuts_one, userPut, pure_eq]

/-- With a negative length, and a buffer that the user may write, the first
byte of the buffer becomes the first of the data page. -/
theorem recvCopies_negative {ret : Int} (hpt : pt.Simple)
    (hmin : -(2 ^ 31) ≤ maxlen) (hneg : maxlen < 0) (hlen : 0 ≤ pk.len)
    (hout : pt.Outside pk.data) (hsrc : pt.Covers Pte.forCopyout srcArg 4)
    (hsport : pt.Covers Pte.forCopyout sportArg 2)
    (hbuf : pt.find Pte.forCopyout (u64 buf) = some pa)
    (h : recvCopies pt mem pk srcArg sportArg buf maxlen = .ok (ret, mem')) :
    mem' pa = mem pk.data ∧
      (recvWrites pt mem (pk.packet mem) srcArg sportArg buf maxlen).2 pa =
        (userPuts pt (addressAreas pk.srcIp pk.srcPort srcArg sportArg) mem).2 pa := by
  have hsame : (userPuts pt (addressAreas pk.srcIp pk.srcPort srcArg sportArg)
      mem).2 pk.data = mem pk.data := userPuts_outside _ hout
  have hfst : (userPuts pt (addressAreas pk.srcIp pk.srcPort srcArg sportArg)
      mem).1 = true := addressAreas_fst.mpr ⟨hsrc, hsport⟩
  rw [recvCopies_eq] at h
  unfold recvWrites
  rw [userPuts_append]
  dsimp only [PendingPacket.packet] at h ⊢
  generalize userPuts pt (addressAreas pk.srcIp pk.srcPort srcArg sportArg) mem = r
    at h hsame hfst ⊢
  obtain ⟨b, m⟩ := r
  cases hfst
  have hnat : maxlen.toNat = 0 := by omega
  refine ⟨?_, by simp [hnat, userPuts_one, userPut]⟩
  have hlt : maxlen < pk.len := by omega
  unfold recvPayload copyLen at h
  obtain ⟨⟨b, m'⟩, hcopy, hres⟩ := bind_ok h
  have hfirst := copyoutUser_first hpt hbuf (by unfold u64; omega) (by unfold u64; omega) hcopy
  cases b with
  | false =>
    cases hres
    exact hfirst.trans hsame
  | true =>
    cases hres
    exact hfirst.trans hsame

end

/-- `pk`, in page `p`, is the first packet for `dport`. The caller's page
table maps no page of a queue, and each page once. -/
structure Net.Receives (n : Net) (pt : PageTable) (qs : List (List Nat))
    (all : List Nat) (dport : Int) (i p : Nat) (bp : BoundPort)
    (pk : PendingPacket) (ps : List Nat) : Prop where
  owns : n.Owns qs [] all
  queues : n.Queues qs
  apart : pt.Apart (n.held qs)
  simple : pt.Simple
  bound : findBoundPort n.ports (toU16 dport) = some i
  port : n.ports[i]? = some bp
  queue : qs[i]? = some (p :: ps)
  node : n.nodes p = some pk

/-- Whatever is in memory, sys_recv writes what it is to write; and two runs
whose user memory and packet are the same end with the same user memory and
result. -/
structure Net.RecvPrivate (n : Net) (pt : PageTable) (killed : Bool)
    (dport : Int) (srcArg sportArg buf : Nat) (maxlen : Int) (p : Nat) :
    Prop where
  exact : ∀ mem, ∃ ret n',
    sysRecv (n.setMem mem) pt killed dport srcArg sportArg buf maxlen = .ok (some (ret, n')) ∧
    RecvExact pt mem n'.phys.mem ((n.setMem mem).packetAt p) srcArg sportArg buf maxlen ret
  same : ∀ mem₁ mem₂ ret₁ ret₂ n₁ n₂,
    (∀ a, ¬ pt.Outside a → mem₁ a = mem₂ a) →
    (n.setMem mem₁).packetAt p = (n.setMem mem₂).packetAt p →
    sysRecv (n.setMem mem₁) pt killed dport srcArg sportArg buf maxlen = .ok (some (ret₁, n₁)) →
    sysRecv (n.setMem mem₂) pt killed dport srcArg sportArg buf maxlen = .ok (some (ret₂, n₂)) →
    ret₁ = ret₂ ∧ ∀ a, ¬ pt.Outside a → n₁.phys.mem a = n₂.phys.mem a

section

variable {n : Net} {pt : PageTable} {qs : List (List Nat)}
  {all ps : List Nat} {dport maxlen : Int} {i p srcArg sportArg buf : Nat}
  {bp : BoundPort} {pk : PendingPacket}

theorem Net.Queues.setMem (h : n.Queues qs) (mem : Nat → UInt8) : (n.setMem mem).Queues qs where
  length := h.length
  queue i bp ps hbp hps :=
    have hq := h.queue i bp ps hbp hps
    { hq with }
  node := h.node

theorem Net.Receives.setMem (h : n.Receives pt qs all dport i p bp pk ps) (mem : Nat → UInt8) :
    (n.setMem mem).Receives pt qs all dport i p bp pk ps :=
  { h with owns := h.owns.setMem mem, queues := h.queues.setMem mem }

theorem Net.Receives.len (h : n.Receives pt qs all dport i p bp pk ps) :
    0 ≤ pk.len ∧ pk.len ≤ pgSize := by
  have hp := mem_flatten_of_getElem? h.queue List.mem_cons_self
  obtain ⟨pk', hpk', hlen⟩ := h.queues.node p hp
  rw [h.node] at hpk'
  cases hpk'
  exact hlen

theorem Net.Receives.outside (h : n.Receives pt qs all dport i p bp pk ps)
    (hle : pk.data ≤ a) (hlt : a < pk.data + pgSize) : pt.Outside a := by
  have hp := mem_flatten_of_getElem? h.queue List.mem_cons_self
  have hheld := Net.mem_held_data hp h.node
  exact h.apart.outside hheld (h.owns.page_held hheld) ⟨hle, hlt⟩

theorem Net.Receives.packetAt (h : n.Receives pt qs all dport i p bp pk ps)
    (mem : Nat → UInt8) : (n.setMem mem).packetAt p = pk.packet mem := by
  unfold Net.packetAt
  rw [(h.setMem mem).node]
  rfl

/-- sys_recv is its copies, as far as the user sees. -/
theorem Net.Receives.recv (killed : Bool) (srcArg sportArg buf : Nat)
    (maxlen : Int) (h : n.Receives pt qs all dport i p bp pk ps) (mem : Nat → UInt8) :
    ∃ ret mem' n', recvCopies pt mem pk srcArg sportArg buf maxlen = .ok (ret, mem') ∧
      sysRecv (n.setMem mem) pt killed dport srcArg sportArg buf maxlen = .ok (some (ret, n')) ∧
      ∀ a, ¬ pt.Outside a → n'.phys.mem a = mem' a := by
  have h' := h.setMem mem
  obtain ⟨ret, mem', n', hcopy, hrecv, _, hmem⟩ := h'.owns.recv killed srcArg
    sportArg buf maxlen h'.queues h'.apart h'.bound h'.port h'.queue h'.node
  exact ⟨ret, mem', n', hcopy, hrecv, hmem⟩

/-- A buffer that the user may write and a negative `maxlen`: for some
memory, the user sees a byte that it should not. -/
theorem Net.Receives.bounded {killed : Bool}
    (h : n.Receives pt qs all dport i p bp pk ps) (hmin : -(2 ^ 31) ≤ maxlen)
    (hpriv : n.RecvPrivate pt killed dport srcArg sportArg buf maxlen p) :
    RecvBounded pt srcArg sportArg buf maxlen := by
  by_contra hnot
  unfold RecvBounded at hnot
  simp only [not_or, not_not, not_le] at hnot
  obtain ⟨hneg, hsrc, hsport, hfind⟩ := hnot
  obtain ⟨pa, hpa⟩ := Option.ne_none_iff_exists'.mp hfind
  have hat := PageTable.not_outside_of_find hpa
  have hdata := h.outside (Nat.le_refl _) (by unfold pgSize; omega)
  have hne : pa ≠ pk.data := fun heq => hat (heq ▸ hdata)
  -- the byte in the data page is not the one that stays in the buffer
  set areas := addressAreas pk.srcIp pk.srcPort srcArg sportArg
  set v := (userPuts pt areas fun _ => 0).2 pa
  set mem : Nat → UInt8 := update (fun _ => 0) pk.data (v + 1)
  have hstays : (userPuts pt areas mem).2 pa = v := (userPuts_congr areas (update_of_ne hne ..)).2
  obtain ⟨ret, n', hrecv, hexact⟩ := hpriv.exact mem
  obtain ⟨ret', mem', n'', hcopy, hrecv', huser⟩ := h.recv killed srcArg sportArg buf maxlen mem
  rw [hrecv] at hrecv'
  cases hrecv'
  obtain ⟨hleak, hspec⟩ := recvCopies_negative h.simple hmin hneg h.len.1
    hdata hsrc hsport hpa hcopy
  have hbyte : v + 1 = v := by
    have hput : mem pk.data = v + 1 := update_self ..
    calc v + 1 = mem pk.data := hput.symm
      _ = n'.phys.mem pa := by rw [huser pa hat, hleak]
      _ = v := by rw [hexact.user pa hat, h.packetAt, hspec, hstays]
  simp at hbyte

theorem Net.Receives.keeps_private (killed : Bool)
    (h : n.Receives pt qs all dport i p bp pk ps) (hmin : -(2 ^ 31) ≤ maxlen)
    (hb : RecvBounded pt srcArg sportArg buf maxlen) :
    n.RecvPrivate pt killed dport srcArg sportArg buf maxlen p := by
  have hout : ∀ a, pk.data ≤ a → a < pk.data + pgSize → pt.Outside a :=
    fun a hle hlt => h.outside hle hlt
  refine ⟨?_, ?_⟩
  · intro mem
    obtain ⟨ret, mem', n', hcopy, hrecv, huser⟩ := h.recv killed srcArg sportArg buf maxlen mem
    rw [recvCopies_bounded hb h.len hmin hout] at hcopy
    cases hcopy
    refine ⟨_, n', hrecv, ?_⟩
    rw [h.packetAt]
    refine ⟨huser, ?_⟩
    by_cases h0 : 0 ≤ maxlen
    · exact .inl (by simp [h0])
    · exact .inr ⟨by omega, by simp [h0]⟩
  · intro mem1 mem2 ret1 ret2 n1 n2 hsame hpkt hrun1 hrun2
    obtain ⟨_, _, _, hcopy1, hrecv1, huser1⟩ := h.recv killed srcArg sportArg buf maxlen mem1
    obtain ⟨_, _, _, hcopy2, hrecv2, huser2⟩ := h.recv killed srcArg sportArg buf maxlen mem2
    rw [hrun1] at hrecv1
    rw [hrun2] at hrecv2
    cases hrecv1
    cases hrecv2
    rw [recvCopies_bounded hb h.len hmin hout] at hcopy1 hcopy2
    rw [h.packetAt, h.packetAt] at hpkt
    rw [hpkt] at hcopy1
    unfold recvWrites at hcopy1 hcopy2
    dsimp only at hcopy1 hcopy2
    rw [userPuts_fst_congr pt _ mem1 mem2] at hcopy1
    cases hcopy1
    cases hcopy2
    refine ⟨rfl, fun a ha => ?_⟩
    rw [huser1 a ha, huser2 a ha]
    exact (userPuts_congr _ (hsame a ha)).2

/-- The caller sees the packet and nothing else exactly if `maxlen` is not
negative, or one of the addresses keeps the payload from being copied. -/
theorem recv_private_iff (killed : Bool)
    (h : n.Receives pt qs all dport i p bp pk ps)
    (hmin : -(2 ^ 31) ≤ maxlen) :
    n.RecvPrivate pt killed dport srcArg sportArg buf maxlen p ↔
      RecvBounded pt srcArg sportArg buf maxlen :=
  ⟨h.bounded hmin, h.keeps_private killed hmin⟩

end

-- == a fixed packet

/-- A packet of `len` bytes from 10.0.2.2, waiting in two pages. -/
def waiting (len : Int) : PendingPacket where
  data := 0x87001000
  len
  srcIp := 0x0a000202
  srcPort := 9
  next := 0

/-- The stack with that packet for port 7. Its data page holds 42 and then
43. -/
def waitingNet (len : Int) : Net where
  phys :=
    { kend := 0x80020000
      trampolinePa := 0x80007000
      mem := memput (fun _ => 0) 0x87001000 2 fun i => if i = 0 then 42 else 43
      freelist := [] }
  nodes := update (fun _ => none) 0x87000000 (some (waiting len))
  ports := [⟨7, 1, 0x87000000, 0x87000000⟩]
  tx := e1000InitTx
  seenArp := false

theorem waitingNet_receives {len : Int} (h0 : 0 ≤ len) (h1 : len ≤ pgSize) :
    (waitingNet len).Receives (onePage 0x87003000) [[0x87000000]]
      [0x87000000, 0x87001000] 7 0 0x87000000
      ⟨7, 1, 0x87000000, 0x87000000⟩ (waiting len) [] where
  owns :=
    { perm := List.Perm.refl _
      nodup := by decide
      valid := by
        intro p hp
        have hcases : p = 0x87000000 ∨ p = 0x87001000 := by simpa using hp
        unfold Phys.isPage waitingNet pgSize physTop
        dsimp only
        omega
      kend := Nat.zero_lt_succ _ }
  queues :=
    { length := rfl
      queue := by
        intro i bp ps hbp hps
        cases i with
        | zero =>
          cases hbp
          cases hps
          exact ⟨⟨rfl, by decide, 0, rfl, rfl⟩, rfl, rfl, by decide⟩
        | succ i => cases hbp
      node := by
        intro p hp
        have heq : p = 0x87000000 := by simpa using hp
        subst heq
        exact ⟨waiting len, rfl, h0, h1⟩ }
  apart := onePage_apart (by decide) (by decide : 0x87003000 ∉ [0x87000000, 0x87001000])
  simple := onePage_areas.simple
  bound := rfl
  port := rfl
  queue := rfl
  node := rfl

/-- With room for 100 bytes the caller sees the byte 42 of the packet. -/
theorem recv_private_waiting :
    (waitingNet 1).RecvPrivate (onePage 0x87003000) false 7 0 4 8 100
      0x87000000 ∧ ((waitingNet 1).packetAt 0x87000000).data = [42] := by
  have hnet := @waitingNet_receives 1 (by decide) (by decide)
  exact ⟨(recv_private_iff false hnet (by decide)).mpr (.inl (by decide)),
    by decide⟩

/-- With a `maxlen` of -1 and a packet without payload the caller sees the
byte 42 of the data page. -/
theorem recv_leaks_negative :
    ∃ ret n', sysRecv (waitingNet 0) (onePage 0x87003000) false 7 0 4 8 (-1) =
        .ok (some (ret, n')) ∧
      n'.phys.mem 0x87003008 = 42 ∧
      (recvWrites (onePage 0x87003000) (waitingNet 0).phys.mem
        ((waitingNet 0).packetAt 0x87000000) 0 4 8 (-1)).2 0x87003008 = 0 := by
  have hareas := onePage_areas
  have hnet := @waitingNet_receives 0 (by decide) (by decide)
  have hbuf : (onePage 0x87003000).find Pte.forCopyout (u64 (8 : Nat)) =
    some 0x87003008 := rfl
  obtain ⟨ret, mem', n', hcopy, hrecv, huser⟩ :=
    hnet.recv false 0 4 8 (-1) (waitingNet 0).phys.mem
  obtain ⟨hleak, _⟩ := recvCopies_negative hareas.simple (by decide)
    (by decide) (by decide)
    (hnet.outside (Nat.le_refl _) (by decide))
    hareas.cover_src hareas.cover_sport hbuf hcopy
  refine ⟨ret, n', hrecv, ?_, by decide⟩
  rw [huser _ (PageTable.not_outside_of_find hbuf), hleak]
  decide

end Xv6Labs.Model
