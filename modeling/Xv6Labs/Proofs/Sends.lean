/-
What sys_send reports.

It does not look at the result of e1000_transmit, and returns 0 also when
the ring is full. The UDP frames that the card has sent or has in its ring
are those of the calls that returned 0 exactly when no call found the ring
full (`send_reports_iff`). Any number of calls may be between the two
halves of sys_send.
-/
import Xv6Labs.Proofs.SendFrame
import Xv6Labs.Proofs.TxRing

namespace Xv6Labs.Model

open Lib

variable {a k x : Nat} {dport rc sport : Int} {b : BuiltFrame} {f : List UInt8}
  {r : SendRun}
variable {n : Net} {all : List Nat}

-- == the run

/-- A frame that sys_send has built: its page, length and bytes. -/
structure BuiltFrame where
  buf : Nat
  len : Int
  bytes : List UInt8
deriving DecidableEq, Repr

/-- The stack, the card, and a record of what they did. -/
structure SendRun where
  n : Net
  stage : TxStage
  /-- built, and not yet passed to e1000_transmit -/
  built : List BuiltFrame
  /-- the frames of the calls that returned 0 -/
  ok : List (List UInt8)
  /-- what the card sent -/
  sent : List (List UInt8)
  /-- how many calls of sys_send found the ring full -/
  refused : Nat

/-- The frame of a descriptor. -/
def Net.frameAt (n : Net) (i : Nat) : List UInt8 :=
  bytesAt n.phys.mem (n.tx.ring i).addr (n.tx.ring i).length

inductive SendStep : SendRun → SendRun → Prop where
  /-- sys_send, up to e1000_transmit -/
  | build {r : SendRun} {n : Net} {pt : PageTable}
      {sport dst dport len total : Int} {bufaddr buf : Nat}
      (hlen : 0 ≤ len) (hmax : len + headersLen < 2 ^ 31)
      (h : sysSendFrame r.n pt sport dst dport bufaddr len = .ok (some (buf, total), n)) :
      SendStep r { r with
        n
        built := ⟨buf, total, bytesAt n.phys.mem buf (u16 total)⟩ :: r.built }
  /-- sys_send returns -1 -/
  | fail {r : SendRun} {n : Net} {pt : PageTable} {sport dst dport len : Int}
      {bufaddr : Nat} (hlen : 0 ≤ len) (hmax : len + headersLen < 2 ^ 31)
      (h : sysSendFrame r.n pt sport dst dport bufaddr len = .ok (none, n)) :
      SendStep r { r with n }
  /-- sys_send calls e1000_transmit and returns 0 -/
  | transmit {r : SendRun} {n : Net} {b : BuiltFrame} {rc : Int}
      (hb : b ∈ r.built) (h : r.n.transmit b.buf b.len = .ok (rc, n)) :
      SendStep r { r with
        n
        built := r.built.erase b
        ok := r.ok ++ [b.bytes]
        refused := r.refused + if r.n.tx.full then 1 else 0 }
  /-- arp_rx answers -/
  | arp {r : SendRun} {n₁ n : Net} {p inbuf : Nat} {rc : Int}
      (hk : r.n.kalloc = (some p, n₁))
      (h : (n₁.setMem (arpReply n₁.phys.mem p inbuf)).transmit p
        (ethLen + arpLen : Nat) = .ok (rc, n)) :
      SendStep r { r with n }
  | send {r : SendRun} (hs : r.stage = .fetch)
      (hne : r.n.tx.tdh ≠ r.n.tx.tdt) :
      SendStep r { r with
        stage := .sent, sent := r.sent ++ [r.n.frameAt r.n.tx.tdh] }
  | done {r : SendRun} (hs : r.stage = .sent) :
      SendStep r { r with
        stage := .written, n := { r.n with tx := r.n.tx.done } }
  | advance {r : SendRun} (hs : r.stage = .written) :
      SendStep r { r with
        stage := .fetch, n := { r.n with tx := r.n.tx.advance } }
  /-- the rest of the kernel -/
  | other {r : SendRun} {n : Net} (htx : n.tx = r.n.tx)
      (hmem : ∀ p ∈ r.built.map (·.buf) ++ r.n.txPages, ∀ a, p ≤ a →
        a < p + pgSize → n.phys.mem a = r.n.phys.mem a)
      (hown : ∃ all, n.Owns [] (r.built.map (·.buf)) all) :
      SendStep r { r with n }

/-- The descriptors that the card has yet to send. -/
def SendRun.ahead (r : SendRun) : List Nat :=
  if r.stage = .fetch then r.n.tx.owned else r.n.tx.owned.tail

/-- The frames that the card has sent, and then those it will send. -/
def SendRun.frames (r : SendRun) : List (List UInt8) := r.sent ++ r.ahead.map r.n.frameAt

/-- An Ethernet frame with an IP packet of protocol UDP. -/
def isUdp (frame : List UInt8) : Bool :=
  bswaps (load16 (bytesOf frame) 12) == ethtypeIp && bytesOf frame 23 == 17

/-- The UDP frames are those of the calls that returned 0. -/
def SendRun.Reports (r : SendRun) : Prop := r.frames.filter isUdp = r.ok

-- == frames

section

variable {n n' : Net} {built : List BuiltFrame} {xs all : List Nat}
  {p i : Nat} {len : Int} {mem : Nat → UInt8}
variable {buf bufaddr inbuf : Nat} {pt : PageTable} {dst : Int}

theorem bytesOf_bytesAt {j : Nat} (hj : j < k) : bytesOf (bytesAt mem a k) j = mem (a + j) := by
  unfold bytesOf bytesAt
  rw [List.getD_eq_getElem?_getD, List.getElem?_map, List.getElem?_range hj]
  rfl

theorem load16_bytesAt (hk : 14 ≤ k) :
    load16 (bytesOf (bytesAt mem a k)) 12 = load16 mem (a + 12) := by
  unfold load16
  rw [bytesOf_bytesAt (by omega), bytesOf_bytesAt (by omega)]

theorem SendHeaders.isUdp (h : SendHeaders mem buf sport dport len)
    (hk : headersLen ≤ k) : Model.isUdp (bytesAt mem buf k) = true := by
  unfold headersLen ethLen ipLen udpLen at hk
  unfold Model.isUdp
  rw [load16_bytesAt (by omega), bytesOf_bytesAt (by omega), h.type, h.protocol]
  decide

/-- The answer of arp_rx is not. -/
theorem not_isUdp_arpReply :
    isUdp (bytesAt (arpReply mem p inbuf) p (ethLen + arpLen)) = false := by
  have htype : load16 (arpReply mem p inbuf) (p + 12) = bswaps ethtypeArp := by
    refine load16_bytes16 ?_
    intro j hj
    unfold arpReply
    rw [memmove_of_not (by omega), memmove_of_not (by omega)]
    unfold store16 store32
    interval_cases j
    all_goals simp [memput_at, Nat.add_assoc]
  unfold isUdp
  rw [load16_bytesAt (by decide), htype]
  rfl

-- == the pages

theorem Net.mem_txPages (hi : i < txRingSize) (hz : n.tx.bufs i ≠ 0) : n.tx.bufs i ∈ n.txPages := by
  unfold Net.txPages
  rw [List.mem_filter]
  refine ⟨List.mem_map.mpr ⟨i, List.mem_range.mpr hi, rfl⟩, ?_⟩
  exact decide_eq_true hz

theorem Net.Owns.nodup_send (h : n.Owns [] xs all) :
    (xs ++ n.txPages ++ n.phys.freelist).Nodup := by
  have hnd := h.nodup_all
  have hheld : n.held [] = [] := rfl
  rw [hheld, List.append_nil] at hnd
  exact hnd

theorem Net.Owns.page_send (h : n.Owns [] xs all)
    (hp : p ∈ xs ++ n.txPages ++ n.phys.freelist) : n.phys.isPage p := by
  refine h.page_of_mem ?_
  have hheld : n.held [] = [] := rfl
  rw [hheld, List.append_nil]
  exact hp

/-- A free page is beside those in use. -/
theorem Net.Owns.free_send (h : n.Owns [] xs all) (hx : x ∈ n.phys.freelist)
    (hp : p ∈ xs ++ n.txPages) (ha : p ≤ a ∧ a < p + pgSize) : ¬ (x ≤ a ∧ a < x + pgSize) := by
  refine (h.page_send (List.mem_append_left _ hp)).apart
    (h.page_send (List.mem_append_right _ hx)) ?_ ha
  exact (List.nodup_append.mp h.nodup_send).2.2 p hp x hx

/-- The card's descriptors, and the frames that are built, with their
pages. -/
structure SendCore (n : Net) (built : List BuiltFrame) (xs : List Nat) : Prop where
  ok : n.tx.Ok
  owns : ∃ all, n.Owns [] (xs ++ built.map (·.buf)) all
  slot : ∀ i ∈ n.tx.owned, n.tx.bufs i ≠ 0 ∧ (n.tx.ring i).length ≤ pgSize
  built : ∀ b ∈ built, isUdp b.bytes = true ∧ u16 b.len ≤ pgSize ∧
    bytesAt n.phys.mem b.buf (u16 b.len) = b.bytes

theorem SendCore.owned_lt (h : SendCore n built xs) (hi : i ∈ n.tx.owned) : i < txRingSize :=
  lt_of_mem_window h.ok.tdh_lt h.ok.tdt_lt hi

theorem SendCore.page_owned (h : SendCore n built xs) (hi : i ∈ n.tx.owned) :
    n.tx.bufs i ∈ n.txPages :=
  Net.mem_txPages (h.owned_lt hi) (h.slot i hi).1

theorem SendCore.frameAt_congr (h : SendCore n built xs)
    (hi : i ∈ n.tx.owned) (hring : n'.tx.ring i = n.tx.ring i)
    (hmem : ∀ a, n.tx.bufs i ≤ a → a < n.tx.bufs i + pgSize →
      n'.phys.mem a = n.phys.mem a) : n'.frameAt i = n.frameAt i := by
  unfold Net.frameAt
  rw [hring, h.ok.addr i hi]
  refine bytesAt_congr ?_
  intro j hj
  have hlen := (h.slot i hi).2
  exact hmem _ (Nat.le_add_right ..) (by omega)

theorem SendCore.bytes_congr (h : SendCore n built xs) (hb : b ∈ built)
    (hmem : ∀ a, b.buf ≤ a → a < b.buf + pgSize → n'.phys.mem a = n.phys.mem a) :
    isUdp b.bytes = true ∧ u16 b.len ≤ pgSize ∧
      bytesAt n'.phys.mem b.buf (u16 b.len) = b.bytes := by
  obtain ⟨hudp, hlen, hbytes⟩ := h.built b hb
  refine ⟨hudp, hlen, ?_⟩
  rw [← hbytes]
  refine bytesAt_congr ?_
  intro j hj
  exact hmem _ (Nat.le_add_right ..) (by omega)

/-- The card changes no page. -/
theorem SendCore.setTx {t : Tx} (h : SendCore n built xs) (hbufs : t.bufs = n.tx.bufs) :
    ∃ all, Net.Owns { n with tx := t } [] (xs ++ built.map (·.buf)) all := by
  obtain ⟨all, hown⟩ := h.owns
  have htx : ({ n with tx := t } : Net).txPages = n.txPages := by
    unfold Net.txPages
    rw [hbufs]
  refine ⟨all, ?_, hown.nodup, hown.valid, hown.kend⟩
  rw [htx]
  exact hown.perm

/-- The ring is as before, and so are the pages in use. -/
theorem SendCore.quiet (xs' : List Nat) (h : SendCore n built xs) (htx : n'.tx = n.tx)
    (hmem : ∀ p ∈ built.map (·.buf) ++ n.txPages, ∀ a, p ≤ a →
      a < p + pgSize → n'.phys.mem a = n.phys.mem a)
    (hown : n'.Owns [] (xs' ++ built.map (·.buf)) all) :
    SendCore n' built xs' ∧ ∀ i ∈ n.tx.owned, n'.frameAt i = n.frameAt i := by
  refine ⟨⟨htx ▸ h.ok, ⟨all, hown⟩, htx ▸ h.slot, ?_⟩, ?_⟩
  · intro b hb
    refine h.bytes_congr hb (hmem b.buf ?_)
    exact List.mem_append_left _ (List.mem_map.mpr ⟨b, hb, rfl⟩)
  · intro i hi
    refine h.frameAt_congr hi (by rw [htx]) (hmem _ ?_)
    exact List.mem_append_right _ (h.page_owned hi)

-- == e1000_transmit

theorem Net.Owns.use_apart (h : n.Owns [] xs all) (hx : x ∈ xs ++ n.txPages)
    (hp : p ∈ xs ++ n.txPages) (hne : p ≠ x) (ha : p ≤ a ∧ a < p + pgSize) :
    ¬ (x ≤ a ∧ a < x + pgSize) :=
  (h.page_send (List.mem_append_left _ hp)).apart (h.page_send (List.mem_append_left _ hx)) hne ha

/-- The caller's page is no other's. -/
theorem Net.Owns.head_ne (h : n.Owns [] (p :: xs) all) (hx : x ∈ xs ++ n.txPages) : x ≠ p := by
  intro heq
  have hnd : (p :: (xs ++ n.txPages ++ n.phys.freelist)).Nodup := h.nodup_send
  exact (List.nodup_cons.mp hnd).1 (List.mem_append_left _ (heq ▸ hx))

/-- The ring is full: the frame is freed and nothing else changes. -/
theorem SendCore.transmit_full (h : SendCore n built (p :: xs))
    (hf : n.tx.full = true) (heq : n.transmit p len = .ok (rc, n')) :
    SendCore n' built xs ∧ n'.tx = n.tx ∧ ∀ i ∈ n.tx.owned, n'.frameAt i = n.frameAt i := by
  obtain ⟨all, hown⟩ := h.owns
  obtain ⟨n1, htr, hown', _, htx, hmem⟩ := hown.transmit len h.ok.tdt_lt
  rw [heq] at htr
  cases htr
  rw [Tx.transmit_full hf] at htx hmem
  have hquiet := h.quiet xs htx ?_ hown'
  · exact ⟨hquiet.1, htx, hquiet.2⟩
  intro q hq a hle hlt
  have hin : q ∈ xs ++ built.map (·.buf) ++ n.txPages := by
    rw [List.append_assoc]
    exact List.mem_append_right _ hq
  refine hmem a ?_
  intro x hx
  rw [List.mem_singleton.mp hx]
  exact hown.use_apart (List.mem_append_left _ List.mem_cons_self)
    (List.mem_cons_of_mem _ hin) (hown.head_ne hin) ⟨hle, hlt⟩

/-- The ring has room: the frame is its last. -/
theorem SendCore.transmit_room (h : SendCore n built (p :: xs))
    (hf : n.tx.full = false) (hlen : u16 len ≤ pgSize) (heq : n.transmit p len = .ok (rc, n')) :
    SendCore n' built xs ∧ n'.tx = n.tx.put p len ∧ (∀ i ∈ n.tx.owned, n'.frameAt i = n.frameAt i) ∧
      n'.frameAt n.tx.tdt = bytesAt n.phys.mem p (u16 len) := by
  obtain ⟨all, hown⟩ := h.owns
  obtain ⟨n1, htr, hown', _, htx, hmem⟩ := hown.transmit len h.ok.tdt_lt
  rw [heq] at htr
  cases htr
  rw [h.ok.transmit_room hf] at htx hmem
  have hpz : p ≠ 0 := hown.ne_zero (hown.page_local List.mem_cons_self)
  have hapart : n.tx.Apart p := by
    refine ⟨hpz, ?_⟩
    intro i hi hp
    have hin := Net.mem_txPages hi (hp ▸ hpz)
    exact hown.head_ne (List.mem_append_right _ hin) hp
  -- only the page that was in slot TDT is freed
  have hkeep : ∀ q ∈ p :: (xs ++ built.map (·.buf)) ++ n.txPages,
      q ≠ n.tx.bufs n.tx.tdt → ∀ a, q ≤ a → a < q + pgSize → n'.phys.mem a = n.phys.mem a := by
    intro q hq hne a hle hlt
    refine hmem a ?_
    intro x hx
    split at hx
    next hz =>
      rw [List.mem_singleton.mp hx]
      exact hown.use_apart (List.mem_append_right _
        (Net.mem_txPages h.ok.tdt_lt hz)) hq hne ⟨hle, hlt⟩
    next => cases hx
  have hslot : ∀ i ∈ n.tx.owned, n.tx.bufs i ≠ n.tx.bufs n.tx.tdt := by
    intro i hi heq'
    have heq'' := h.ok.inj i _ (h.owned_lt hi) h.ok.tdt_lt (h.slot i hi).1 heq'
    exact h.ok.tdt_not_owned (heq'' ▸ hi)
  have hring : ∀ i ∈ n.tx.owned, n'.tx.ring i = n.tx.ring i ∧ n'.tx.bufs i = n.tx.bufs i := by
    intro i hi
    rw [htx]
    exact h.ok.put_ring hi
  have howned : n'.tx.owned = n.tx.owned ++ [n.tx.tdt] := by
    rw [htx]
    exact h.ok.put_owned hf
  have hnew : n'.tx.ring n.tx.tdt =
      { addr := p, length := u16 len, cmd := txdCmd, status := 0 } := by
    rw [htx]
    exact Function.update_self ..
  refine ⟨⟨htx ▸ h.ok.put hf hapart, ⟨all, hown'⟩, ?_, ?_⟩, htx, ?_, ?_⟩
  · intro i hi
    rw [howned, List.mem_append, List.mem_singleton] at hi
    cases hi with
    | inl hi =>
      rw [(hring i hi).1, (hring i hi).2]
      exact h.slot i hi
    | inr heq' =>
      have hbuf : n'.tx.bufs n.tx.tdt = p := by
        rw [htx]
        exact Function.update_self ..
      rw [heq', hbuf, hnew]
      exact ⟨hpz, hlen⟩
  · intro b hb
    have hbuf : b.buf ∈ built.map (·.buf) := List.mem_map.mpr ⟨b, hb, rfl⟩
    refine h.bytes_congr hb (hkeep b.buf ?_ ?_)
    · exact List.mem_append_left _ (List.mem_cons_of_mem _ (List.mem_append_right _ hbuf))
    intro heq'
    have hz : n.tx.bufs n.tx.tdt ≠ 0 := by
      rw [← heq']
      refine hown.ne_zero (hown.page_local ?_)
      exact List.mem_cons_of_mem _ (List.mem_append_right _ hbuf)
    have hnd := (List.nodup_append.mp hown.nodup_send).1
    refine (List.nodup_append.mp hnd).2.2 b.buf ?_ _ (Net.mem_txPages h.ok.tdt_lt hz) heq'
    exact List.mem_cons_of_mem _ (List.mem_append_right _ hbuf)
  · intro i hi
    refine h.frameAt_congr hi (hring i hi).1 (hkeep _ ?_ (hslot i hi))
    exact List.mem_append_right _ (h.page_owned hi)
  unfold Net.frameAt
  rw [hnew]
  dsimp only
  refine bytesAt_congr ?_
  intro j hj
  refine hkeep p ?_ ?_ _ (Nat.le_add_right ..) (by omega)
  · exact List.mem_append_left _ List.mem_cons_self
  · exact (hapart.2 _ h.ok.tdt_lt).symm

-- == the ledger

/-- The frames of the card and the calls that returned 0: the difference is
the calls that found the ring full. -/
structure SendRun.Ledger (r : SendRun) : Prop where
  count : (r.frames.filter isUdp).length + r.refused = r.ok.length
  equal : r.refused = 0 → r.Reports

structure SendRun.Inv (r : SendRun) : Prop where
  core : SendCore r.n r.built []
  busy : r.stage ≠ .fetch → r.n.tx.tdh ≠ r.n.tx.tdt
  written : r.stage = .written → (r.n.tx.ring r.n.tx.tdh).dd = true
  ledger : r.Ledger

variable {r r' : SendRun}

theorem SendRun.Ledger.congr (h : r.Ledger) (hframes : r'.frames = r.frames)
    (hok : r'.ok = r.ok) (hrefused : r'.refused = r.refused) : r'.Ledger where
  count := by
    rw [hframes, hok, hrefused]
    exact h.count
  equal hz := by
    unfold SendRun.Reports
    rw [hframes, hok]
    exact h.equal (hrefused ▸ hz)

theorem SendRun.Ledger.other (h : r.Ledger) (hf : isUdp f = false)
    (hframes : r'.frames = r.frames ++ [f]) (hok : r'.ok = r.ok)
    (hrefused : r'.refused = r.refused) : r'.Ledger := by
  have hfilter : r'.frames.filter isUdp = r.frames.filter isUdp := by
    rw [hframes, List.filter_append, List.filter_singleton, hf]
    exact List.append_nil _
  refine ⟨?_, ?_⟩
  · rw [hfilter, hok, hrefused]
    exact h.count
  · intro hz
    unfold SendRun.Reports
    rw [hfilter, hok]
    exact h.equal (hrefused ▸ hz)

/-- A UDP frame that the card takes, of a call that returns 0. -/
theorem SendRun.Ledger.take (h : r.Ledger) (hf : isUdp f = true)
    (hframes : r'.frames = r.frames ++ [f]) (hok : r'.ok = r.ok ++ [f])
    (hrefused : r'.refused = r.refused) : r'.Ledger := by
  have hfilter : r'.frames.filter isUdp = r.frames.filter isUdp ++ [f] := by
    rw [hframes, List.filter_append, List.filter_singleton, hf]
    rfl
  have hcount := h.count
  refine ⟨?_, ?_⟩
  · rw [hfilter, hok, List.length_append, List.length_append]
    omega
  · intro hz
    unfold SendRun.Reports
    rw [hfilter, hok, h.equal (hrefused ▸ hz)]

/-- A frame that was freed, of a call that returns 0. -/
theorem SendRun.Ledger.lose (h : r.Ledger) (hframes : r'.frames = r.frames)
    (hok : r'.ok = r.ok ++ [f]) (hrefused : r'.refused = r.refused + 1) : r'.Ledger := by
  have hcount := h.count
  refine ⟨?_, ?_⟩
  · rw [hframes, hok, List.length_append, List.length_singleton]
    omega
  · intro hz
    omega

theorem SendRun.mem_ahead (hi : i ∈ r.ahead) : i ∈ r.n.tx.owned := by
  unfold SendRun.ahead at hi
  split at hi
  next => exact hi
  next => exact List.mem_of_mem_tail hi

theorem SendRun.frames_congr (hstage : r'.stage = r.stage)
    (hsent : r'.sent = r.sent) (howned : r'.n.tx.owned = r.n.tx.owned)
    (hframe : ∀ i ∈ r.n.tx.owned, r'.n.frameAt i = r.n.frameAt i) : r'.frames = r.frames := by
  have hahead : r'.ahead = r.ahead := by
    unfold SendRun.ahead
    rw [hstage, howned]
  unfold SendRun.frames
  rw [hsent, hahead]
  refine congrArg _ (List.map_congr_left ?_)
  intro i hi
  exact hframe i (SendRun.mem_ahead hi)

/-- The ring has one frame more. -/
theorem SendRun.Inv.frames_push (h : r.Inv) (hstage : r'.stage = r.stage) (hsent : r'.sent = r.sent)
    (howned : r'.n.tx.owned = r.n.tx.owned ++ [i])
    (hframe : ∀ i ∈ r.n.tx.owned, r'.n.frameAt i = r.n.frameAt i) :
    r'.frames = r.frames ++ [r'.n.frameAt i] := by
  have hahead : r'.ahead = r.ahead ++ [i] := by
    unfold SendRun.ahead
    rw [hstage, howned]
    split
    next => rfl
    next hs =>
      refine List.tail_append_of_ne_nil ?_
      rw [h.core.ok.owned_pop (h.busy hs)]
      exact List.cons_ne_nil _ _
  unfold SendRun.frames
  rw [hahead, List.map_append, ← List.append_assoc]
  congr 2
  refine List.map_congr_left ?_
  intro j hj
  exact hframe j (SendRun.mem_ahead hj)

-- == the steps

/-- Nothing happened in the ring. -/
theorem SendRun.Inv.quiet (h : r.Inv) (htx : n.tx = r.n.tx) (hcore : SendCore n built [])
    (hframe : ∀ i ∈ r.n.tx.owned, n.frameAt i = r.n.frameAt i) :
    SendRun.Inv { r with n, built } where
  core := hcore
  busy := by
    rw [htx]
    exact h.busy
  written := by
    rw [htx]
    exact h.written
  ledger := h.ledger.congr (SendRun.frames_congr rfl rfl (congrArg Tx.owned htx) hframe) rfl rfl

/-- A built frame waits in its page. -/
theorem SendCore.push (h : SendCore n built [b.buf])
    (hb : isUdp b.bytes = true ∧ u16 b.len ≤ pgSize ∧
      bytesAt n.phys.mem b.buf (u16 b.len) = b.bytes) :
    SendCore n (b :: built) [] where
  ok := h.ok
  owns := h.owns
  slot := h.slot
  built b' hb' := by
    cases List.mem_cons.mp hb' with
    | inl heq =>
      rw [heq]
      exact hb
    | inr hb' => exact h.built b' hb'

/-- A built frame is taken out. -/
theorem SendCore.pop (h : SendCore n built []) (hb : b ∈ built) :
    SendCore n (built.erase b) [b.buf] where
  ok := h.ok
  owns := by
    obtain ⟨all, hown⟩ := h.owns
    exact ⟨all, hown.swap ((List.perm_cons_erase hb).map _)⟩
  slot := h.slot
  built b' hb' := h.built b' (List.mem_of_mem_erase hb')

theorem SendRun.Inv.build {total : Int}
    (h : r.Inv) (hlen : 0 ≤ len)
    (hmax : len + headersLen < 2 ^ 31)
    (heq : sysSendFrame r.n pt sport dst dport bufaddr len = .ok (some (buf, total), n)) :
    SendRun.Inv { r with
      n
      built := ⟨buf, total, bytesAt n.phys.mem buf (u16 total)⟩ :: r.built } := by
  obtain ⟨all, hown⟩ := h.core.owns
  obtain ⟨n', hno, _⟩ | ⟨buf', n', hsome, hbuilt⟩ := hown.send pt sport dst dport bufaddr hlen hmax
  · rw [hno] at heq
    cases heq
  rw [hsome] at heq
  cases heq
  obtain ⟨hcore, hframe⟩ := h.core.quiet [buf] hbuilt.tx (by
    intro q hq a hle hlt
    exact hbuilt.mem a (hown.free_send hbuilt.page hq ⟨hle, hlt⟩))
    hbuilt.owns
  have htotal : u16 (len + headersLen) = len.toNat + headersLen ∧
      len.toNat + headersLen ≤ pgSize := by
    have hfits := hbuilt.fits
    unfold u16
    unfold pgSize headersLen ethLen ipLen udpLen at *
    omega
  refine h.quiet hbuilt.tx (hcore.push ⟨?_, ?_, rfl⟩) hframe
  · exact hbuilt.headers.isUdp (by omega)
  · dsimp only
    omega

theorem SendRun.Inv.fail
    (h : r.Inv) (hlen : 0 ≤ len) (hmax : len + headersLen < 2 ^ 31)
    (heq : sysSendFrame r.n pt sport dst dport bufaddr len = .ok (none, n)) :
    SendRun.Inv { r with n } := by
  obtain ⟨all, hown⟩ := h.core.owns
  obtain ⟨n', hno, hown', htx, hmem⟩ | ⟨buf', n', hsome, _⟩ :=
    hown.send pt sport dst dport bufaddr hlen hmax
  · rw [hno] at heq
    cases heq
    obtain ⟨hcore, hframe⟩ := h.core.quiet [] htx (by
      intro q hq a hle hlt
      exact hmem a fun x hx => hown.free_send hx hq ⟨hle, hlt⟩) hown'
    exact h.quiet htx hcore hframe
  · rw [hsome] at heq
    cases heq

/-- e1000_transmit of a page, in a state `n0` with the ring of `r`. -/
theorem SendRun.Inv.transmit {n0 : Net} (h : r.Inv) (htx : n0.tx = r.n.tx)
    (hframe : ∀ i ∈ r.n.tx.owned, n0.frameAt i = r.n.frameAt i)
    (hcore : SendCore n0 r'.built [p]) (hlen : u16 len ≤ pgSize)
    (heq : n0.transmit p len = .ok (rc, r'.n)) (hstage : r'.stage = r.stage)
    (hsent : r'.sent = r.sent) (hfull : r.n.tx.full = true → r'.frames = r.frames → r'.Ledger)
    (hroom : r.n.tx.full = false → r'.frames = r.frames ++ [bytesAt n0.phys.mem p (u16 len)] →
      r'.Ledger) : r'.Inv := by
  cases hf : r.n.tx.full with
  | true =>
    obtain ⟨hcore', htx', hframe'⟩ := hcore.transmit_full (htx ▸ hf) heq
    rw [htx] at htx' hframe'
    refine ⟨hcore', ?_, ?_, hfull hf ?_⟩
    · rw [hstage, htx']
      exact h.busy
    · rw [hstage, htx']
      exact h.written
    · refine SendRun.frames_congr hstage hsent (congrArg Tx.owned htx') ?_
      intro i hi
      rw [hframe' i hi, hframe i hi]
  | false =>
    obtain ⟨hcore', htx', hframe', hnew⟩ := hcore.transmit_room (htx ▸ hf) hlen heq
    rw [htx] at htx' hframe' hnew
    refine ⟨hcore', ?_, ?_, hroom hf ?_⟩
    · intro _
      rw [htx']
      exact Tx.full_eq_false hf
    · intro hs
      have hne := h.busy (by
        rw [← hstage, hs]
        decide)
      rw [htx']
      show ((r.n.tx.put p len).ring r.n.tx.tdh).dd = true
      rw [(h.core.ok.put_ring (h.core.ok.head_owned hne)).1]
      exact h.written (hstage ▸ hs)
    · rw [← hnew]
      refine h.frames_push hstage hsent ?_ ?_
      · rw [htx']
        exact h.core.ok.put_owned hf
      · intro i hi
        rw [hframe' i hi, hframe i hi]

theorem SendRun.Inv.finish (h : r.Inv) (hb : b ∈ r.built)
    (heq : r.n.transmit b.buf b.len = .ok (rc, n)) :
    SendRun.Inv { r with
      n
      built := r.built.erase b
      ok := r.ok ++ [b.bytes]
      refused := r.refused + if r.n.tx.full then 1 else 0 } := by
  obtain ⟨hudp, hlen, hbytes⟩ := h.core.built b hb
  refine h.transmit rfl (fun _ _ => rfl) (h.core.pop hb) hlen heq rfl rfl ?_ ?_
  · intro hf hframes
    refine h.ledger.lose hframes rfl ?_
    rw [hf]
    rfl
  intro hf hframes
  rw [hbytes] at hframes
  refine h.ledger.take hudp hframes rfl ?_
  rw [hf]
  rfl

theorem SendRun.Inv.arp {n1 : Net} (h : r.Inv) (hk : r.n.kalloc = (some p, n1))
    (heq : (n1.setMem (arpReply n1.phys.mem p inbuf)).transmit p
      (ethLen + arpLen : Nat) = .ok (rc, n)) : SendRun.Inv { r with n } := by
  obtain ⟨all, hown⟩ := h.core.owns
  obtain ⟨hown1, _, _, htx, _, hmem⟩ := hown.kalloc hk
  have hin := Net.kalloc_mem hk
  have htx' : (n1.setMem (arpReply n1.phys.mem p inbuf)).tx = r.n.tx := htx
  obtain ⟨hcore, hframe⟩ := h.core.quiet [p] htx' (by
    intro q hq a hle hlt
    have hap := hown.free_send hin hq ⟨hle, hlt⟩
    exact (arpReply_apart hap).trans (hmem a hap)) (hown1.setMem _)
  have hlen : u16 (ethLen + arpLen : Nat) ≤ pgSize := by decide
  refine h.transmit htx' hframe hcore hlen heq rfl rfl ?_ ?_
  · intro _ hframes
    exact h.ledger.congr hframes rfl rfl
  · intro _ hframes
    exact h.ledger.other not_isUdp_arpReply hframes rfl rfl

theorem SendRun.Inv.send (h : r.Inv) (hs : r.stage = .fetch) (hne : r.n.tx.tdh ≠ r.n.tx.tdt) :
    SendRun.Inv { r with
      stage := .sent, sent := r.sent ++ [r.n.frameAt r.n.tx.tdh] } := by
  refine ⟨h.core, fun _ => hne, (fun hw => nomatch hw), h.ledger.congr ?_ rfl rfl⟩
  unfold SendRun.frames SendRun.ahead
  rw [if_pos hs, h.core.ok.owned_pop hne, List.append_assoc]
  rfl

theorem SendRun.Inv.done (h : r.Inv) (hs : r.stage = .sent) :
    SendRun.Inv { r with
      stage := .written, n := { r.n with tx := r.n.tx.done } } := by
  have hstage : r.stage ≠ .fetch := by
    rw [hs]
    decide
  refine ⟨⟨h.core.ok.done, h.core.setTx rfl, ?_, h.core.built⟩,
    fun _ => h.busy hstage, ?_, h.ledger.congr ?_ rfl rfl⟩
  · intro i hi
    have hfr : ((r.n.tx.done).ring i).length = (r.n.tx.ring i).length :=
      congrArg Prod.snd (r.n.tx.done_ring i).1
    have hslot := h.core.slot i hi
    rw [← hfr] at hslot
    exact hslot
  · intro _
    exact (r.n.tx.done_ring 0).2.2.2
  unfold SendRun.frames SendRun.ahead
  rw [if_neg hstage]
  refine congrArg _ (List.map_congr_left ?_)
  intro i _
  have hfr := (r.n.tx.done_ring i).1
  show bytesAt r.n.phys.mem (r.n.tx.done.ring i).frame.1 (r.n.tx.done.ring i).frame.2 = _
  rw [hfr]
  rfl

theorem SendRun.Inv.advance (h : r.Inv) (hs : r.stage = .written) :
    SendRun.Inv { r with
      stage := .fetch, n := { r.n with tx := r.n.tx.advance } } := by
  have hstage : r.stage ≠ .fetch := by
    rw [hs]
    decide
  have hne := h.busy hstage
  have hpop := h.core.ok.owned_pop hne
  refine ⟨⟨h.core.ok.advance hne (h.written hs), h.core.setTx rfl, ?_,
    h.core.built⟩, fun hc => absurd rfl hc, (fun hc => nomatch hc), h.ledger.congr ?_ rfl rfl⟩
  · intro i hi
    refine h.core.slot i ?_
    rw [hpop]
    exact List.mem_cons_of_mem _ hi
  · unfold SendRun.frames SendRun.ahead
    rw [if_neg hstage, hpop]
    rfl

theorem SendRun.Inv.step (h : r.Inv) (hs : SendStep r r') : r'.Inv := by
  cases hs with
  | build hlen hmax heq => exact h.build hlen hmax heq
  | fail hlen hmax heq => exact h.fail hlen hmax heq
  | transmit hb heq => exact h.finish hb heq
  | arp hk heq => exact h.arp hk heq
  | send hs hne => exact h.send hs hne
  | done hs => exact h.done hs
  | advance hs => exact h.advance hs
  | other htx hmem hown =>
    obtain ⟨all, hown⟩ := hown
    obtain ⟨hcore, hframe⟩ := h.core.quiet [] htx hmem hown
    exact h.quiet htx hcore hframe

end

-- == every run

/-- After e1000_init, with the stack `n`. -/
def SendRun.start (n : Net) : SendRun where
  n
  stage := .fetch
  built := []
  ok := []
  sent := []
  refused := 0

theorem SendRun.start_inv (htx : n.tx = e1000InitTx)
    (hown : n.Owns [] [] all) : (SendRun.start n).Inv := by
  have howned : n.tx.owned = [] := by
    rw [htx]
    rfl
  refine ⟨⟨?_, ⟨all, hown⟩, ?_, ?_⟩, fun h => absurd rfl h, (fun h => nomatch h), ?_⟩
  · show n.tx.Ok
    rw [htx]
    exact TxRun.inv_init.ok
  · intro i hi
    have hi' : i ∈ n.tx.owned := hi
    rw [howned] at hi'
    cases hi'
  · intro b hb
    cases hb
  have hframes : (SendRun.start n).frames = [] := by
    show [] ++ n.tx.owned.map _ = []
    rw [howned]
    rfl
  constructor
  · rw [hframes]
    rfl
  · intro _
    unfold SendRun.Reports
    rw [hframes]
    rfl

theorem SendRun.inv_of_reaches
    (htx : n.tx = e1000InitTx) (hown : n.Owns [] [] all)
    (hr : Reaches SendStep (SendRun.start n) r) : r.Inv :=
  hr.inv (SendRun.start_inv htx hown) fun _ _ h hs => h.step hs

/-- One call of sys_send with an empty payload, with nothing in between. -/
def SendRun.sendEmpty (r : SendRun) : Option SendRun :=
  match sysSendFrame r.n (PageTable.empty 0) 9 0 7 0 0 with
  | .ok (some (buf, total), n) =>
    match n.transmit buf total with
    | .ok (_, n') => some
        { r with
          n := n'
          ok := r.ok ++ [bytesAt n.phys.mem buf (u16 total)]
          refused := r.refused + if n.tx.full then 1 else 0 }
    | .error _ => none
  | _ => none

/-- `k` such calls. -/
def SendRun.sendsEmpty : Nat → SendRun → Option SendRun
  | 0, r => some r
  | k + 1, r => r.sendEmpty.bind (SendRun.sendsEmpty k)

theorem SendRun.reaches_sendEmpty {r' : SendRun} (h : r.sendEmpty = some r') :
    Reaches SendStep r r' := by
  unfold SendRun.sendEmpty at h
  split at h
  next buf total n hsend =>
    split at h
    next rc n' htr =>
      cases h
      have h1 := (Reaches.refl r).step (SendStep.build (Int.le_refl 0) (by decide) hsend)
      have h2 := h1.step (SendStep.transmit List.mem_cons_self htr)
      rw [List.erase_cons_head] at h2
      exact h2
    next => cases h
  next => cases h

theorem SendRun.reaches_sendsEmpty {r' : SendRun}
    (h : SendRun.sendsEmpty k r = some r') : Reaches SendStep r r' := by
  induction k generalizing r with
  | zero =>
    cases h
    exact Reaches.refl _
  | succ k ih =>
    obtain ⟨r1, h1, h⟩ := Option.bind_eq_some_iff.mp h
    exact (SendRun.reaches_sendEmpty h1).trans (ih h)

/-- A stack with `k` free pages and nothing else. -/
def pagesNet (k : Nat) : Net where
  phys :=
    { kend := 0x80020000
      trampolinePa := 0x80007000
      mem := fun _ => 0
      freelist := (List.range k).map fun i => 0x87000000 + i * pgSize }
  nodes _ := none
  ports := []
  tx := e1000InitTx
  seenArp := false

theorem pagesNet_owns (hk : k ≤ 16) : (pagesNet k).Owns [] [] (pagesNet k).phys.freelist where
  perm := List.Perm.refl _
  nodup := by
    refine List.Nodup.map ?_ List.nodup_range
    intro i j hij
    dsimp only at hij
    unfold pgSize at hij
    omega
  valid p hp := by
    obtain ⟨i, hi, rfl⟩ := List.mem_map.mp hp
    have hi' := List.mem_range.mp hi
    unfold Phys.isPage pagesNet pgSize physTop
    dsimp only
    omega
  kend := Nat.zero_lt_succ _

/-- In every state of every run of calls with lengths that are not negative
and fit an int: the UDP frames that the card has sent, followed by those in its
ring, are the frames of the calls that returned 0, in order, exactly when no
call came to e1000_transmit with the ring full. -/
theorem send_reports_iff {n : Net} {all : List Nat} {r : SendRun}
    (htx : n.tx = e1000InitTx) (hown : n.Owns [] [] all)
    (hr : Reaches SendStep (SendRun.start n) r) :
    r.Reports ↔ r.refused = 0 := by
  have h := SendRun.inv_of_reaches htx hown hr
  constructor
  · intro hrep
    have hcount := h.ledger.count
    rw [hrep] at hcount
    omega
  · exact h.ledger.equal

/-- One empty datagram on an idle card. -/
theorem send_reports_one :
    ∃ r, Reaches SendStep (SendRun.start (pagesNet 1)) r ∧ r.ok.length = 1 ∧
      r.refused = 0 ∧ r.Reports := by
  obtain ⟨r, hr, hok, hz⟩ : ∃ r,
      SendRun.sendsEmpty 1 (SendRun.start (pagesNet 1)) = some r ∧
      r.ok.length = 1 ∧ r.refused = 0 := ⟨_, rfl, rfl, rfl⟩
  have hreach := SendRun.reaches_sendsEmpty hr
  exact ⟨r, hreach, hok, hz,
    (send_reports_iff rfl (pagesNet_owns (by decide)) hreach).mpr hz⟩

/-- Sixteen empty datagrams while the card does nothing: the last call returns
0 like the others, and fifteen frames are in the ring. -/
theorem send_full_ring_lost :
    ∃ r₁ r, Reaches SendStep (SendRun.start (pagesNet 16)) r₁ ∧
      Reaches SendStep r₁ r ∧
      sysSend r₁.n (PageTable.empty 0) 9 0 7 0 0 = .ok (0, r.n) ∧
      r.ok.length = 16 ∧ (r.frames.filter isUdp).length = 15 ∧
      ¬ r.Reports := by
  obtain ⟨r₁, r, hr₁, hr, hsend, hok, hz⟩ : ∃ r₁ r,
      SendRun.sendsEmpty 15 (SendRun.start (pagesNet 16)) = some r₁ ∧
      r₁.sendEmpty = some r ∧
      sysSend r₁.n (PageTable.empty 0) 9 0 7 0 0 = .ok (0, r.n) ∧
      r.ok.length = 16 ∧ r.refused = 1 := ⟨_, _, rfl, rfl, rfl, rfl, rfl⟩
  have hreach₁ := SendRun.reaches_sendsEmpty hr₁
  have hreach := SendRun.reaches_sendEmpty hr
  have hcount := (SendRun.inv_of_reaches rfl (pagesNet_owns (by decide))
    (hreach₁.trans hreach)).ledger.count
  refine ⟨r₁, r, hreach₁, hreach, hsend, hok, by omega, ?_⟩
  intro hrep
  rw [hrep] at hcount
  omega

end Xv6Labs.Model
