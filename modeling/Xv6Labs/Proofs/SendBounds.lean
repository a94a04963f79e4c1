/-
sys_send and the page that it fills.

The length goes through an unsigned sum and back to an int before it is
compared with the page, so a negative length, and one so large that the sum
wraps, pass the test: copyin then copies on behind the page until the
caller's memory ends.
-/
import Xv6Labs.Proofs.RoundTrip

namespace Xv6Labs.Model

open Lib Function

-- == copyin

section

variable {pt : PageTable} {va len dst : Nat} {mem mem' : Nat → UInt8}
variable {ok : Pte → Bool} {b : Bool}

theorem PageTable.Covers.mono {k : Nat}
    (h : pt.Covers ok va len) (hk : k ≤ len) : pt.Covers ok va k :=
  fun j hj => h j (by omega)

/-- What is mapped up to the next turn is mapped to its end. -/
theorem PageTable.Covers.turn {done n pa : Nat} (h : pt.Covers ok va done)
    (hfind : pt.find ok (u64 (va + done)) = some pa) (hroom : (va + done) % pgSize + n ≤ pgSize) :
    pt.Covers ok va (done + n) := by
  intro j hj
  by_cases hold : j < done
  · exact h j hold
  · have hat := PageTable.find_turn (i := j - done) hfind hroom (by omega)
    rw [Nat.add_sub_cancel' (by omega)] at hat
    exact ⟨_, hat⟩

/-- copyin changes a byte of its destination only if the bytes up to it are
mapped; one that succeeds has read mapped memory only. -/
theorem copyinUser_reach (h : copyinUser pt mem dst va len = .ok (b, mem')) :
    (b = true → pt.Covers Pte.forCopyin va len) ∧
      ∀ a, (∀ j, j < len → pt.Covers Pte.forCopyin va (j + 1) → a ≠ dst + j) → mem' a = mem a := by
  have hends : CopyEnds pt Pte.forCopyin va len
      (fun done m => pt.Covers Pte.forCopyin va done ∧
        ∀ a, (∀ j, j < len → pt.Covers Pte.forCopyin va (j + 1) → a ≠ dst + j) → m a = mem a)
      (copyinUser pt mem dst va len) := by
    refine copyinUser_ends ?_ ⟨fun j hj => absurd hj (Nat.not_lt_zero j), fun _ _ => rfl⟩
    rintro done m n pa ⟨hcov, hsame⟩ _ hle hroom hfind
    have hnext := hcov.turn hfind hroom
    refine ⟨hnext, fun a ha => (memmove_of_not ?_).trans (hsame a ha)⟩
    intro hin
    exact ha (a - dst) (by omega) (hnext.mono (by omega)) (by omega)
  rw [h] at hends
  obtain ⟨_, hrun, hcov, hsame⟩ | ⟨_, _, hrun, _, _, _, hsame⟩ := hends
  · cases hrun
    exact ⟨fun _ => hcov, hsame⟩
  · cases hrun
    exact ⟨fun hb => absurd hb Bool.false_ne_true, hsame⟩

/-- User memory full of `c`: copyin puts `c` at every distance that the
mapped memory reaches. -/
theorem copyinUser_fills {c : UInt8} {j : Nat}
    (hc : ∀ x, ¬ pt.Outside x → mem x = c) (hj : j < len)
    (hcov : pt.Covers Pte.forCopyin va (j + 1)) (h : copyinUser pt mem dst va len = .ok (b, mem')) :
    mem' (dst + j) = c := by
  have hends : CopyEnds pt Pte.forCopyin va len
      (fun done m => (∀ x, ¬ pt.Outside x → m x = c) ∧ (j < done → m (dst + j) = c))
      (copyinUser pt mem dst va len) := by
    refine copyinUser_ends ?_ ⟨hc, fun hlt => absurd hlt (Nat.not_lt_zero j)⟩
    rintro done m n pa ⟨hc, hput⟩ _ hle hroom hfind
    -- what is copied is user memory, so it is `c` too
    have hsrc : ∀ x, dst + done ≤ x → x < dst + done + n → memmove m (dst + done) pa n x = c := by
      intro x hx hlt
      have hat := PageTable.find_turn (i := x - (dst + done)) hfind hroom (by omega)
      rw [memmove, if_pos ⟨hx, hlt⟩]
      exact hc _ (PageTable.not_outside_of_find hat)
    have hkeep : ∀ x, m x = c → memmove m (dst + done) pa n x = c := by
      intro x hx
      by_cases hin : dst + done ≤ x ∧ x < dst + done + n
      · exact hsrc x hin.1 hin.2
      · exact (memmove_of_not hin).trans hx
    refine ⟨fun x hx => hkeep x (hc x hx), fun hlt => ?_⟩
    by_cases hold : j < done
    · exact hkeep _ (hput hold)
    · exact hsrc _ (by omega) (by omega)
  rw [h] at hends
  obtain ⟨_, hrun, _, hput⟩ | ⟨done, _, hrun, _, hfind, _, hput⟩ := hends
  · cases hrun
    exact hput hj
  cases hrun
  refine hput (Nat.lt_of_not_le fun hle => ?_)
  obtain ⟨pa, hpa⟩ := hcov done (by omega)
  rw [hpa] at hfind
  cases hfind

end

-- == sys_send

/-- An address in the page that the next kalloc gives. -/
def Net.NextPage (n : Net) (a : Nat) : Prop :=
  ∃ buf, n.phys.freelist.head? = some buf ∧ buf ≤ a ∧ a < buf + pgSize

/-- sys_send writes kernel memory in its page only, and the frame is that
page with the length of the headers and the payload. -/
structure Net.SendExact (n : Net) (pt : PageTable) (mem mem' : Nat → UInt8)
    (len : Int) (res : Option (Nat × Int)) : Prop where
  kernel : ∀ a, pt.Outside a → ¬ n.NextPage a → mem' a = mem a
  frame : ∀ buf total, res = some (buf, total) →
    n.phys.freelist.head? = some buf ∧ 0 ≤ len ∧ total = len + headersLen ∧ total ≤ pgSize

/-- sys_send returns -1 without a frame, and passes a frame to
e1000_transmit. -/
def Net.passFrame (n : Net) : Option (Nat × Int) → Except NetPanic (Int × Net)
  | none => .ok (-1, n)
  | some (buf, total) => n.transmit buf total >>= fun r => pure (0, r.2)

/-- Whatever is in memory, sys_send does so, and passes the frame to
e1000_transmit or returns -1. -/
def Net.SendSafe (n : Net) (pt : PageTable) (sport dst dport : Int)
    (bufaddr : Nat) (len : Int) : Prop :=
  ∀ mem, ∃ res n',
    sysSendFrame (n.setMem mem) pt sport dst dport bufaddr len = .ok (res, n') ∧
    n.SendExact pt mem n'.phys.mem len res ∧
    sysSend (n.setMem mem) pt sport dst dport bufaddr len = n'.passFrame res

/-- The length passes the test although it is too large, a page is free, and
the memory mapped from `bufaddr` on is all of that length, or reaches an
address behind the page that is not the caller's. -/
def Net.SendOverruns (n : Net) (pt : PageTable) (bufaddr : Nat) (len : Int) : Prop :=
  (len < 0 ∨ 2 ^ 31 ≤ len + headersLen) ∧
    ∃ buf, n.phys.freelist.head? = some buf ∧
      (pt.Covers Pte.forCopyin bufaddr (u64 len) ∨
        ∃ j, pgSize ≤ headersLen + j ∧ j < u64 len ∧
          pt.Covers Pte.forCopyin bufaddr (j + 1) ∧
          pt.Outside (buf + headersLen + j))

section

variable {n : Net} {qs : List (List Nat)} {xs all : List Nat}
  {pt : PageTable} {bufaddr : Nat} {len : Int}
variable {dport dst sport : Int}

/-- The total of a length that is not from 0 to 2^31 - 43 is negative, or at
most 41. -/
theorem send_total_wraps (hlen : -(2 ^ 31) ≤ len ∧ len < 2 ^ 31)
    (h : len < 0 ∨ 2 ^ 31 ≤ len + headersLen) : i32 (u64 len + headersLen) < headersLen := by
  unfold i32 u64
  rw [Int.bmod_def]
  split <;> omega

/-- sys_send with a free page, past the test: copyin decides. -/
theorem Net.Owns.send_copy (pt : PageTable) (sport dst dport : Int)
    (bufaddr : Nat) (h : n.Owns qs xs all) {buf : Nat} (hbuf : n.phys.freelist.head? = some buf)
    (htotal : ¬ (pgSize : Int) < i32 (u64 len + headersLen)) :
    ∃ b mem0 mem' n', copyinUser pt mem0 (buf + headersLen) bufaddr (u64 len) = .ok (b, mem') ∧
      sysSendFrame n pt sport dst dport bufaddr len =
        .ok (if b then some (buf, i32 (u64 len + headersLen)) else none, n') ∧
      (∀ a, ¬ (buf ≤ a ∧ a < buf + pgSize) → mem0 a = n.phys.mem a ∧ n'.phys.mem a = mem' a) := by
  unfold sysSendFrame
  rw [if_neg htotal]
  obtain ⟨hf, _⟩ | ⟨r, n1, heq, hf⟩ := n.kalloc_cases
  · rw [hf] at hbuf
    cases hbuf
  obtain ⟨_, hf'⟩ := Net.kalloc_some heq
  have hr : r = buf := by
    rw [hf'] at hbuf
    exact Option.some.inj hbuf
  subst hr
  obtain ⟨hown1, _, _, _, _, hmem1⟩ := h.kalloc heq
  obtain ⟨b, mem', hcopy, _⟩ := copyinUser_total pt
    (sendHeaders n1.phys.mem r sport dst dport len) (r + headersLen) bufaddr (u64 len)
  have hbefore : ∀ a, ¬ (r ≤ a ∧ a < r + pgSize) →
      sendHeaders n1.phys.mem r sport dst dport len a = n.phys.mem a :=
    fun a ha => (sendHeaders_apart ha).trans (hmem1 a ha)
  rw [heq]
  dsimp only
  cases b with
  | false =>
    obtain ⟨n', hk, _, _, _, _, _, _, hmem'⟩ := (hown1.setMem mem').kfree
    refine ⟨false, _, mem', n', hcopy, ?_, ?_⟩
    · rw [hcopy]
      show (do
        let n ← (n1.setMem mem').kfree r
        pure (none, n)) = Except.ok (none, n')
      rw [hk]
      rfl
    · exact fun a ha => ⟨hbefore a ha, hmem' a ha⟩
  | true =>
    refine ⟨true, _, mem', n1.setMem mem', hcopy, ?_, ?_⟩
    · rw [hcopy]
      rfl
    · exact fun a ha => ⟨hbefore a ha, rfl⟩

/-- A length that is too large, or no free page: nothing happens. -/
theorem sysSendFrame_refused (sport dst dport : Int)
    (h : (pgSize : Int) < i32 (u64 len + headersLen) ∨ n.phys.freelist.head? = none) :
    sysSendFrame n pt sport dst dport bufaddr len = .ok (none, n) := by
  unfold sysSendFrame
  by_cases hbig : (pgSize : Int) < i32 (u64 len + headersLen)
  · rw [if_pos hbig]
  rw [if_neg hbig]
  obtain ⟨_, heq⟩ | ⟨r, n1, heq, hf⟩ := n.kalloc_cases
  · rw [heq]
  · rw [hf] at h
    exact absurd (h.resolve_left hbig) (by simp)

theorem sysSend_eq {m n' : Net}
    {res : Option (Nat × Int)} (h : sysSendFrame m pt sport dst dport bufaddr len = .ok (res, n')) :
    sysSend m pt sport dst dport bufaddr len = n'.passFrame res := by
  unfold sysSend
  rw [h]
  obtain _ | ⟨buf, total⟩ := res
  · rfl
  · rfl

theorem Net.SendExact.none {mem mem' : Nat → UInt8}
    (h : ∀ a, pt.Outside a → ¬ n.NextPage a → mem' a = mem a) : n.SendExact pt mem mem' len none :=
  ⟨h, fun _ _ hres => nomatch hres⟩

/-- Where the copy overruns, sys_send is not safe: it builds a frame of the
wrong length, or for some memory changes a byte behind its page. -/
theorem Net.SendSafe.not_overruns
    (h : n.Owns qs xs all) (hpt : pt.Apart n.phys.freelist) (hlen : -(2 ^ 31) ≤ len ∧ len < 2 ^ 31)
    (hsafe : n.SendSafe pt sport dst dport bufaddr len) : ¬ n.SendOverruns pt bufaddr len := by
  rintro ⟨hwrap, buf, hbuf, hover⟩
  have hsmall := send_total_wraps hlen hwrap
  have htotal : ¬ (pgSize : Int) < i32 (u64 len + headersLen) := by
    unfold pgSize
    unfold headersLen ethLen ipLen udpLen at *
    omega
  obtain hcov | ⟨j, hbehind, hj, hcov, hout⟩ := hover
  · obtain ⟨res, n', hrun, hexact, _⟩ := hsafe n.phys.mem
    obtain ⟨b, mem0, mem', n'', hcopy, hrun', _⟩ :=
      h.send_copy pt sport dst dport bufaddr hbuf htotal
    obtain ⟨mem'', hok⟩ := copyinUser_ok mem0 (buf + headersLen) hcov
    rw [hok] at hcopy
    cases hcopy
    have hrun0 : sysSendFrame n pt sport dst dport bufaddr len = .ok (res, n') := hrun
    rw [hrun'] at hrun0
    cases hrun0
    obtain ⟨_, h0, htot, hle⟩ := hexact.frame _ _ rfl
    omega
  set a := buf + headersLen + j
  have ha : ¬ (buf ≤ a ∧ a < buf + pgSize) := by omega
  -- ones in user memory, and a zero where the copy should not reach
  set mem : Nat → UInt8 := update (fun _ => 1) a 0
  obtain ⟨res, n', hrun, hexact, _⟩ := hsafe mem
  obtain ⟨b, mem0, mem', n'', hcopy, hrun', hmem⟩ :=
    (h.setMem mem).send_copy pt sport dst dport bufaddr hbuf htotal
  rw [hrun] at hrun'
  cases hrun'
  have hin : buf ∈ n.phys.freelist := List.mem_of_head? hbuf
  have hones : ∀ x, ¬ pt.Outside x → mem0 x = 1 := by
    intro x hx
    have hxpage : ¬ (buf ≤ x ∧ x < buf + pgSize) :=
      fun hpage => hx (hpt.outside hin (h.page_free hin) hpage)
    rw [(hmem x hxpage).1]
    have hne : x ≠ a := fun heq => hx (heq ▸ hout)
    show update (fun _ => (1 : UInt8)) a 0 x = 1
    rw [update_of_ne hne]
  have hone : mem' a = 1 := copyinUser_fills hones hj hcov hcopy
  have hzero : n'.phys.mem a = mem a := by
    refine hexact.kernel a hout ?_
    rintro ⟨buf', hbuf', hpage⟩
    rw [hbuf] at hbuf'
    cases hbuf'
    exact ha hpage
  rw [(hmem a ha).2, hone] at hzero
  have hput : mem a = 0 := update_self ..
  rw [hput] at hzero
  exact absurd hzero (by decide)

/-- Where the copy does not overrun, sys_send is safe. -/
theorem Net.Owns.send_safe (sport dst dport : Int) (h : n.Owns qs xs all)
    (hlen : -(2 ^ 31) ≤ len ∧ len < 2 ^ 31) (hnot : ¬ n.SendOverruns pt bufaddr len) :
    n.SendSafe pt sport dst dport bufaddr len := by
  intro mem
  by_cases hrefused : (pgSize : Int) < i32 (u64 len + headersLen) ∨ n.phys.freelist.head? = none
  · have hrun : sysSendFrame (n.setMem mem) pt sport dst dport bufaddr len =
      .ok (none, n.setMem mem) := sysSendFrame_refused sport dst dport hrefused
    exact ⟨none, _, hrun, .none fun _ _ _ => rfl, sysSend_eq hrun⟩
  rw [not_or] at hrefused
  obtain ⟨htotal, hsome⟩ := hrefused
  obtain ⟨buf, hbuf⟩ := Option.ne_none_iff_exists'.mp hsome
  obtain ⟨b, mem0, mem', n', hcopy, hrun, hmem⟩ :=
    (h.setMem mem).send_copy pt sport dst dport bufaddr hbuf htotal
  obtain ⟨hcov, hreach⟩ := copyinUser_reach hcopy
  by_cases hwrap : len < 0 ∨ 2 ^ 31 ≤ len + headersLen
  · have hbad : ∀ j, pgSize ≤ headersLen + j → j < u64 len →
        pt.Covers Pte.forCopyin bufaddr (j + 1) → ¬ pt.Outside (buf + headersLen + j) :=
      fun j hj hlt hcovj hout =>
        hnot ⟨hwrap, buf, hbuf, .inr ⟨j, hj, hlt, hcovj, hout⟩⟩
    have hb : b = false := by
      refine Bool.eq_false_iff.mpr fun hb => ?_
      exact hnot ⟨hwrap, buf, hbuf, .inl (hcov hb)⟩
    subst hb
    refine ⟨none, n', hrun, .none ?_, sysSend_eq hrun⟩
    intro a ha hpage
    have hapart : ¬ (buf ≤ a ∧ a < buf + pgSize) := fun hin => hpage ⟨buf, hbuf, hin⟩
    rw [(hmem a hapart).2, hreach a ?_, (hmem a hapart).1]
    · rfl
    rintro j hj hcovj rfl
    exact hbad j (by omega) hj hcovj ha
  · have h0 : 0 ≤ len := by omega
    rw [send_total len h0 (by omega)] at hrun htotal
    have hu : u64 len = len.toNat := by
      unfold u64
      omega
    refine ⟨_, n', hrun, ⟨?_, ?_⟩, sysSend_eq hrun⟩
    · intro a ha hpage
      have hapart : ¬ (buf ≤ a ∧ a < buf + pgSize) := fun hin => hpage ⟨buf, hbuf, hin⟩
      rw [(hmem a hapart).2, hreach a ?_, (hmem a hapart).1]
      · rfl
      rintro j hj _ rfl
      omega
    · intro buf' total hres
      split at hres
      · cases hres
        exact ⟨hbuf, h0, rfl, by omega⟩
      · cases hres

/-- sys_send writes kernel memory in the page that it allocates only, and
returns -1 or passes that page on with the length of a frame with the
payload, exactly if the copy does not overrun. -/
theorem send_safe_iff (sport dst dport : Int) (h : n.Owns qs xs all)
    (hpt : pt.Apart n.phys.freelist)
    (hlen : -(2 ^ 31) ≤ len ∧ len < 2 ^ 31) :
    n.SendSafe pt sport dst dport bufaddr len ↔
      ¬ n.SendOverruns pt bufaddr len :=
  ⟨fun hsafe => hsafe.not_overruns h hpt hlen,
    fun hnot => h.send_safe sport dst dport hlen hnot⟩

end

/-- One byte from the user's page. -/
theorem send_safe_byte :
    (idleNet []).SendSafe (onePage 0x87000000) 9 0x0a00020f 7 0 1 := by
  refine (send_safe_iff 9 0x0a00020f 7 (idleNet_owns [])
    (onePage_apart (by decide) (by decide)) (by decide)).mpr ?_
  rintro ⟨hwrap, _⟩
  exact absurd hwrap (by decide)

/-- The stack whose user page, at 0x87000000, is full of sevens. -/
def sevensNet : Net := (idleNet []).setMem (memput (fun _ => 0) 0x87000000 pgSize fun _ => 7)

/-- A length of -1: sys_send returns -1, and has put sevens in the page
behind the one it allocated, which is free memory of the kernel. -/
theorem send_overruns_negative :
    ∃ n', sysSendFrame sevensNet (onePage 0x87000000) 9 0x0a00020f 7 0 (-1) =
        .ok (none, n') ∧
      sevensNet.phys.freelist.head? = some 0x87001000 ∧
      sevensNet.phys.mem 0x87002000 = 0 ∧ n'.phys.mem 0x87002000 = 7 := by
  have hown : sevensNet.Owns [] [0x87000000] _ := (idleNet_owns []).setMem _
  have htotal : ¬ (pgSize : Int) < i32 (u64 (-1) + headersLen) := by decide
  obtain ⟨b, mem₀, mem', n', hcopy, hrun, hmem⟩ := hown.send_copy
    (onePage 0x87000000) 9 0x0a00020f 7 0 rfl htotal
  have hb : b = false := by
    refine Bool.eq_false_iff.mpr fun hb => ?_
    obtain ⟨pa, hpa⟩ := (copyinUser_reach hcopy).1 hb pgSize (by decide)
    cases hpa
  have hsevens : ∀ x, ¬ (onePage 0x87000000).Outside x → mem₀ x = 7 := by
    intro x hx
    obtain ⟨m, e, he, hin⟩ : ∃ m e, (onePage 0x87000000).entry m = some e ∧
        (e.pa ≤ x ∧ x < e.pa + pgSize) := by
      unfold PageTable.Outside at hx
      push Not at hx
      exact hx
    rw [(onePage_entry he).2] at hin
    rw [(hmem x (by unfold pgSize at *; omega)).1]
    exact if_pos hin
  have hcov : (onePage 0x87000000).Covers Pte.forCopyin 0 (4054 + 1) := by
    have h0 : (onePage 0x87000000).Covers Pte.forCopyin 0 0 :=
      fun j hj => absurd hj (Nat.not_lt_zero j)
    have hpage := h0.turn (n := 4055) rfl (by decide)
    exact hpage
  have hseven := copyinUser_fills hsevens (by decide) hcov hcopy
  subst hb
  exact ⟨n', hrun, rfl, by decide, (hmem _ (by decide)).2.trans hseven⟩

end Xv6Labs.Model
