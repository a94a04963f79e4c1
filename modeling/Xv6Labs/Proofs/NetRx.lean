/-
The receive path and the pages it is given: net_rx gives the frame's page
back on every branch but two, the early returns of ip_rx for a packet whose
lengths do not fit (`net_rx_conserves_iff`).
-/
import Xv6Labs.Proofs.NetPages

namespace Xv6Labs.Model

open Lib Function

variable {a d q : Nat} {bp : BoundPort} {ps : List Nat}

-- == packets

/-- A received packet: its payload and where it came from. -/
structure Packet where
  data : List UInt8
  srcIp : UInt32
  srcPort : UInt16
deriving DecidableEq, Repr

/-- `k` bytes from `a` on. -/
def bytesAt (mem : Nat → UInt8) (a k : Nat) : List UInt8 := (List.range k).map fun i => mem (a + i)

/-- The packet pending in page `p`. -/
def Net.packetAt (n : Net) (p : Nat) : Packet :=
  match n.nodes p with
  | some pk => ⟨bytesAt n.phys.mem pk.data pk.len.toNat, pk.srcIp, pk.srcPort⟩
  | none => ⟨[], 0, 0⟩

/-- The UDP length field of a frame. -/
def frameUlen (mem : Nat → UInt8) (buf : Nat) : Nat :=
  (bswaps (load16 mem (buf + ethLen + ipLen + 4))).toNat

/-- The UDP destination port of a frame. -/
def frameDport (mem : Nat → UInt8) (buf : Nat) : UInt16 :=
  bswaps (load16 mem (buf + ethLen + ipLen + 2))

/-- The packet in a frame. -/
def framePacket (mem : Nat → UInt8) (buf : Nat) : Packet where
  data := bytesAt mem (buf + headersLen) (frameUlen mem buf - udpLen)
  srcIp := bswapl (load32 mem (buf + ethLen + 12))
  srcPort := bswaps (load16 mem (buf + ethLen + ipLen))

/-- The lengths of the frame and of its UDP packet do not fit. -/
def Malformed (mem : Nat → UInt8) (buf : Nat) (len : Int) : Prop :=
  u64 len < headersLen ∨ frameUlen mem buf < udpLen ∨ u64 len < ethLen + ipLen + frameUlen mem buf

instance (mem : Nat → UInt8) (buf : Nat) (len : Int) : Decidable (Malformed mem buf len) :=
  inferInstanceAs (Decidable (_ ∨ _ ∨ _))

section

variable {n n' : Net} {qs : List (List Nat)} {xs all : List Nat}
  {p buf i : Nat} {len : Int} {mem mem' : Nat → UInt8}

theorem bytesAt_congr {b k : Nat} (h : ∀ j, j < k → mem' (b + j) = mem (a + j)) :
    bytesAt mem' b k = bytesAt mem a k := by
  refine List.map_congr_left ?_
  intro j hj
  exact h j (List.mem_range.mp hj)

/-- The packet in a page is its record and the bytes of its data page. -/
theorem Net.packetAt_congr {pk : PendingPacket} (hpk : n.nodes p = some pk) (hlen : pk.len ≤ pgSize)
    (hbody : (n'.nodes p).map (·.body) = (n.nodes p).map (·.body))
    (hmem : ∀ a, pk.data ≤ a → a < pk.data + pgSize →
      n'.phys.mem a = n.phys.mem a) : n'.packetAt p = n.packetAt p := by
  rw [hpk] at hbody
  obtain ⟨pk', hpk', heq⟩ := Option.map_eq_some_iff.mp hbody
  unfold PendingPacket.body at heq
  simp only [Prod.mk.injEq] at heq
  obtain ⟨hdata, hl, hip, hport⟩ := heq
  unfold Net.packetAt
  rw [hpk', hpk]
  simp only [hdata, hl, hip, hport, Packet.mk.injEq, and_true]
  refine bytesAt_congr ?_
  intro j hj
  exact hmem _ (Nat.le_add_right ..) (by omega)

theorem Net.Queues.packetAt_same (h : n.Queues qs) (hs : n.Same n' qs)
    (hp : p ∈ qs.flatten) : n'.packetAt p = n.packetAt p := by
  obtain ⟨pk, hpk, _, hlen⟩ := h.node p hp
  refine Net.packetAt_congr hpk hlen (congrArg _ (hs.nodes p hp)) ?_
  exact hs.mem _ (Net.mem_held_data hp hpk)

theorem load16_congr (h : ∀ j, j < 2 → mem' (a + j) = mem (a + j)) :
    load16 mem' a = load16 mem a := by
  have h0 : mem' a = mem a := h 0 (by decide)
  have h1 := h 1 (by decide)
  unfold load16
  rw [h0, h1]

theorem load32_congr (h : ∀ j, j < 4 → mem' (a + j) = mem (a + j)) :
    load32 mem' a = load32 mem a := by
  have h0 : mem' a = mem a := h 0 (by decide)
  have h1 := h 1 (by decide)
  have h2 := h 2 (by decide)
  have h3 := h 3 (by decide)
  unfold load32
  rw [h0, h1, h2, h3]

/-- The header fields are read from the frame's page. -/
theorem frame_congr (h : ∀ a, buf ≤ a → a < buf + pgSize → mem' a = mem a) :
    frameUlen mem' buf = frameUlen mem buf ∧ frameDport mem' buf = frameDport mem buf ∧
      load32 mem' (buf + ethLen + 12) = load32 mem (buf + ethLen + 12) ∧
      load16 mem' (buf + ethLen + ipLen) = load16 mem (buf + ethLen + ipLen) := by
  unfold pgSize at h
  unfold frameUlen frameDport ethLen ipLen
  refine ⟨?_, ?_, ?_, ?_⟩
  · rw [load16_congr fun j hj => h _ (by omega) (by omega)]
  · rw [load16_congr fun j hj => h _ (by omega) (by omega)]
  · exact load32_congr fun j hj => h _ (by omega) (by omega)
  · exact load16_congr fun j hj => h _ (by omega) (by omega)

theorem findBoundPort_some {ports : List BoundPort} {port : UInt16}
    (h : findBoundPort ports port = some i) : ∃ bp, ports[i]? = some bp ∧ bp.port = port := by
  obtain ⟨hlt, hport, _⟩ := List.findIdx?_eq_some_iff_getElem.mp h
  exact ⟨ports[i], List.getElem?_eq_getElem hlt, eq_of_beq hport⟩

-- == ip_rx

/-- `n'` is `n` with the packet of the frame in `buf` at the end of the queue
of port `i`, in page `q`, and the frame's page freed. -/
structure Net.Accepted (n n' : Net) (qs : List (List Nat)) (all : List Nat)
    (buf i q : Nat) (bp bp' : BoundPort) (ps : List Nat) : Prop where
  bound : n.ports[i]? = some bp
  queue : qs[i]? = some ps
  room : ps.length < maxPendingPackets
  queues : n'.Queues (qs.set i (ps ++ [q]))
  owns : n'.Owns (qs.set i (ps ++ [q])) [] all
  freed : buf ∈ n'.phys.freelist
  ports : n'.ports = n.ports.set i bp'
  port : bp'.port = bp.port
  packet : headersLen + (frameUlen n.phys.mem buf - udpLen) ≤ pgSize →
    n'.packetAt q = framePacket n.phys.mem buf
  others : ∀ p ∈ qs.flatten, n'.packetAt p = n.packetAt p

/-- `n'` is `n` with the frame's page freed. -/
structure Net.Dropped (n n' : Net) (qs : List (List Nat)) (all : List Nat) (buf : Nat) : Prop where
  owns : n'.Owns qs [] all
  same : n.Same n' qs
  freed : buf ∈ n'.phys.freelist

theorem Net.Owns.drop (h : n.Owns qs [buf] all) :
    ∃ n', n.kfree buf = .ok n' ∧ n.Dropped n' qs all buf := by
  obtain ⟨n', hk, hown, hsame, hfree, _⟩ := h.kfree
  refine ⟨n', hk, hown, hsame, ?_⟩
  rw [hfree]
  exact List.mem_cons_self

/-- The second kalloc fails: both pages go back. -/
theorem Net.Owns.drop_two (h : n.Owns qs [d, buf] all) :
    ∃ n', (do
      let n ← n.kfree d
      n.kfree buf) = Except.ok n' ∧ n.Dropped n' qs all buf := by
  obtain ⟨n1, hk1, hown1, hsame1, _⟩ := h.kfree
  obtain ⟨n2, hk2, hdrop⟩ := hown1.drop
  refine ⟨n2, ?_, hdrop.owns, hsame1.trans hdrop.same, hdrop.freed⟩
  rw [hk1]
  exact hk2

/-- From the two kallocs on: the packet is built and queued. -/
theorem Net.Owns.accept
    {m : Net} (h : m.Owns qs [q, d, buf] all) (hqs : n.Queues qs)
    (hsame : n.Same m qs)
    (hbuf : ∀ a, buf ≤ a → a < buf + pgSize → m.phys.mem a = n.phys.mem a)
    (hbp : n.ports[i]? = some bp) (hps : qs[i]? = some ps)
    (hroom : ps.length < maxPendingPackets)
    (hfit : frameUlen n.phys.mem buf - udpLen ≤ pgSize) :
    ∃ n' bp', m.queuePacket buf i bp d q (frameUlen n.phys.mem buf - udpLen) =
        .ok n' ∧ n.Accepted n' qs all buf i q bp bp' ps := by
  set k := frameUlen n.phys.mem buf - udpLen with hk
  set mem := memmove m.phys.mem d (buf + headersLen) k with hmem
  have hd : m.phys.isPage d := h.page_local (by simp)
  have hb : m.phys.isPage buf := h.page_local (by simp)
  have hnd := h.nodup_all
  have hdb : d ≠ buf := by
    intro heq
    simp [heq] at hnd
  -- the copy stays in the data page
  have hcopy : ∀ a, ¬ (d ≤ a ∧ a < d + pgSize) → mem a = m.phys.mem a := by
    intro a ha
    rw [hmem]
    unfold memmove
    rw [if_neg fun hin => ha ⟨hin.1, by omega⟩]
  have hsame' : m.Same (m.setMem mem) qs :=
    h.same_of_page hd (fun p hp => h.local_apart (by simp) hp) rfl (fun _ _ => rfl) hcopy
  have hqs2 := (hqs.congr hsame).congr hsame'
  have hports : (m.setMem mem).ports = n.ports := hsame.ports
  -- the header fields are still those of the frame
  have hframe : ∀ a, buf ≤ a → a < buf + pgSize → mem a = n.phys.mem a := by
    intro a hle hlt
    rw [hcopy a (hb.apart hd (Ne.symm hdb) ⟨hle, hlt⟩)]
    exact hbuf a hle hlt
  obtain ⟨_, _, hip, hport⟩ := frame_congr hframe
  let pk : PendingPacket :=
    { data := d
      len := (k : Nat)
      srcIp := bswapl (load32 n.phys.mem (buf + ethLen + 12))
      srcPort := bswaps (load16 n.phys.mem (buf + ethLen + ipLen))
      next := 0 }
  have hpk : (m.setMem mem).Owns qs (q :: pk.data :: [buf]) all := h.setMem mem
  obtain ⟨n3, bp', henq, happ⟩ := hpk.enqueue hqs2 (hports ▸ hbp) hps rfl
  have hown3 := happ.owns hpk hps
  have hlenle : ((k : Nat) : Int) ≤ pgSize := by omega
  have hqs3 := happ.queues hqs2 h.nodup_nodes (hports ▸ hbp) hps hroom (Int.natCast_nonneg k) hlenle
  obtain ⟨n', hkf, hown', hsame4, hfree, _⟩ := hown3.kfree
  have hfreed : buf ∈ n'.phys.freelist := by
    rw [hfree]
    exact List.mem_cons_self
  refine ⟨n', bp', ?_, hbp, hps, hroom, hqs3.congr hsame4, hown', hfreed, ?_, happ.port, ?_, ?_⟩
  · unfold Net.queuePacket
    rw [if_neg (Nat.not_lt.mpr hfit)]
    dsimp only
    rw [hip, hport]
    rw [henq]
    exact hkf
  · rw [hsame4.ports, happ.ports, hports]
  · intro hin
    have hqmem : q ∈ (qs.set i (ps ++ [q])).flatten :=
      (flatten_set_snoc hps).mem_iff.mpr List.mem_cons_self
    rw [hqs3.packetAt_same hsame4 hqmem]
    unfold Net.packetAt framePacket
    rw [happ.node]
    refine Packet.mk.injEq .. ▸ ⟨bytesAt_congr ?_, rfl, rfl⟩
    intro j hj
    have hj' : j < k := hj
    rw [happ.phys]
    show mem (d + j) = _
    have hin' : d ≤ d + j ∧ d + j < d + k := by omega
    rw [hmem]
    unfold memmove
    rw [if_pos hin', Nat.add_sub_cancel_left]
    exact hbuf _ (by omega) (by omega)
  · intro p hp
    have hp3 : p ∈ (qs.set i (ps ++ [q])).flatten :=
      (flatten_set_snoc hps).mem_iff.mpr (List.mem_cons_of_mem _ hp)
    obtain ⟨_, hold, _, hle⟩ := hqs2.node p hp
    have hstep : n3.packetAt p = (m.setMem mem).packetAt p :=
      Net.packetAt_congr hold hle (happ.body p hp) fun a _ _ => by rw [happ.phys]
    rw [hqs3.packetAt_same hsame4 hp3, hstep,
      (hqs.congr hsame).packetAt_same hsame' hp, hqs.packetAt_same hsame hp]

/-- The free pages, the queue of the port and the payload of the frame decide
what ip_rx does from the lock of the port on. -/
theorem ipRxPort_spec (h : n.Owns qs [buf] all) (hqs : n.Queues qs)
    (hbp : n.ports[i]? = some bp) (hps : qs[i]? = some ps) :
    (¬ (ps.length < maxPendingPackets ∧ 2 ≤ n.phys.freelist.length) ∧
      ∃ n', ipRxPort n buf i (frameUlen n.phys.mem buf - udpLen) = .ok n' ∧
        n.Dropped n' qs all buf) ∨
    (ps.length < maxPendingPackets ∧ 2 ≤ n.phys.freelist.length) ∧
      ((frameUlen n.phys.mem buf - udpLen ≤ pgSize ∧
        ∃ n' q bp', ipRxPort n buf i (frameUlen n.phys.mem buf - udpLen) = .ok n' ∧
          n.Accepted n' qs all buf i q bp bp' ps) ∨
      (pgSize < frameUlen n.phys.mem buf - udpLen ∧
        ipRxPort n buf i (frameUlen n.phys.mem buf - udpLen) = .error .undefined)) := by
  have hcount := (hqs.queue i bp ps hbp hps).count
  have hcount' : (maxPendingPackets : Int) ≤ bp.pendingCount ↔ ¬ ps.length < maxPendingPackets := by
    omega
  unfold ipRxPort
  simp only [hbp]
  by_cases hroom : ps.length < maxPendingPackets
  · rw [if_neg fun hle => (hcount'.mp hle) hroom]
    obtain ⟨hf, heq⟩ | ⟨d, n1, heq, hf⟩ := n.kalloc_cases
    · obtain ⟨n', hk, hdrop⟩ := h.drop
      refine .inl ⟨?_, n', ?_, hdrop⟩
      · rw [hf]
        exact fun hc => absurd hc.2 (by decide)
      · rw [heq]
        exact hk
    rw [heq]
    dsimp only
    obtain ⟨hown1, hsame1, hd, _, _, hmem1⟩ := h.kalloc heq
    obtain ⟨hf2, heq2⟩ | ⟨q, n2, heq2, hf2⟩ := n1.kalloc_cases
    · obtain ⟨n', hk, hdrop⟩ := hown1.drop_two
      refine .inl ⟨?_, n', ?_, hdrop.owns, hsame1.trans hdrop.same, hdrop.freed⟩
      · rw [hf, hf2, List.length_singleton]
        exact fun hc => absurd hc.2 (by decide)
      · rw [heq2]
        exact hk
    rw [heq2]
    obtain ⟨hown2, hsame2, hq, _, _, hmem2⟩ := hown1.kalloc heq2
    have htwo : 2 ≤ n.phys.freelist.length := by
      rw [hf, hf2, List.length_cons, List.length_cons]
      omega
    refine .inr ⟨⟨hroom, htwo⟩, ?_⟩
    by_cases hfit : frameUlen n.phys.mem buf - udpLen ≤ pgSize
    · have hb := h.page_local (List.mem_singleton_self buf)
      have hb1 : n1.phys.isPage buf := hown1.page_local (by simp)
      have hne := hown2.nodup_all
      have hqb : q ≠ buf := by
        intro he
        simp [he] at hne
      have hdb : d ≠ buf := by
        intro he
        simp [he] at hne
      have hbuf : ∀ a, buf ≤ a → a < buf + pgSize → n2.phys.mem a = n.phys.mem a := by
        intro a hle hlt
        rw [hmem2 a (hb1.apart hq hqb.symm ⟨hle, hlt⟩), hmem1 a (hb.apart hd hdb.symm ⟨hle, hlt⟩)]
      obtain ⟨n', bp', hres, hacc⟩ := hown2.accept hqs (hsame1.trans hsame2) hbuf hbp hps hroom hfit
      exact .inl ⟨hfit, n', q, bp', hres, hacc⟩
    · refine .inr ⟨Nat.lt_of_not_le hfit, ?_⟩
      exact if_pos (Nat.lt_of_not_le hfit)
  · rw [if_pos (hcount'.mpr hroom)]
    obtain ⟨n', hk, hdrop⟩ := h.drop
    exact .inl ⟨fun hc => hroom hc.1, n', hk, hdrop⟩

theorem ipRx_malformed (h : Malformed n.phys.mem buf len) : ipRx n buf len = .ok n := by
  unfold ipRx
  split
  next => rfl
  next hlen =>
    cases h with
    | inl hl => exact absurd hl hlen
    | inr hul => exact if_pos hul

theorem ipRx_wellFormed (h : ¬ Malformed n.phys.mem buf len) :
    ipRx n buf len =
      match findBoundPort n.ports (frameDport n.phys.mem buf) with
      | none => n.kfree buf
      | some i => ipRxPort n buf i (frameUlen n.phys.mem buf - udpLen) := by
  unfold Malformed at h
  rw [not_or] at h
  unfold ipRx
  rw [if_neg h.1]
  exact if_neg h.2

-- == transmit

/-- One slot of the transmit ring is filled anew. -/
theorem txPages_put {f : Nat → Nat} {N : Nat} (hi : i < N) (hp : p ≠ 0) :
    ((if f i ≠ 0 then [f i] else []) ++ ((List.range N).map (update f i p)).filter (· ≠ 0)).Perm
      (p :: ((List.range N).map f).filter (· ≠ 0)) := by
  have hrange := List.perm_cons_erase (List.mem_range.mpr hi)
  have hrest : ((List.range N).erase i).map (update f i p) = ((List.range N).erase i).map f := by
    refine List.map_congr_left ?_
    intro j hj
    have hne := (List.nodup_range.mem_erase_iff.mp hj).1
    exact update_of_ne hne ..
  have hnew := ((hrange.map (update f i p)).filter (· ≠ 0))
  have hold := ((hrange.map f).filter (· ≠ 0))
  rw [List.map_cons, update_self, hrest, List.filter_cons_of_pos (by simpa using hp)] at hnew
  rw [List.map_cons] at hold
  refine (List.Perm.append_left _ hnew).trans ?_
  refine List.perm_middle.trans (List.Perm.cons p ?_)
  refine List.Perm.trans ?_ hold.symm
  by_cases hz : f i = 0
  · rw [if_neg (fun h => h hz), List.filter_cons_of_neg (by simpa using hz)]
    exact List.Perm.refl _
  · rw [if_pos hz, List.filter_cons_of_pos (by simpa using hz)]
    exact List.Perm.refl _

/-- e1000_transmit takes over the page: the ring has it, or it is freed. -/
theorem Net.Owns.transmit (len : Int) (h : n.Owns qs (p :: xs) all)
    (htdt : n.tx.tdt < txRingSize) :
    ∃ n', n.transmit p len = .ok ((e1000Transmit n.tx p len).rc, n') ∧
      n'.Owns qs xs all ∧ n.Same n' qs ∧
      n'.tx = (e1000Transmit n.tx p len).tx ∧
      ∀ a, (∀ x ∈ (e1000Transmit n.tx p len).kfreed,
        ¬ (x ≤ a ∧ a < x + pgSize)) → n'.phys.mem a = n.phys.mem a := by
  have hpz : p ≠ 0 := h.ne_zero (h.page_local List.mem_cons_self)
  unfold Net.transmit e1000Transmit
  dsimp only
  split
  next =>
    obtain ⟨n', hk, hown, hsame, _, htx, _, _, hmem⟩ := h.kfree
    refine ⟨n', ?_, hown, hsame, htx, fun a ha => hmem a (ha p List.mem_cons_self)⟩
    show (n.kfree p >>= pure) >>= _ = _
    rw [hk]
    rfl
  next =>
    set t : Tx := { n.tx with
      ring := update n.tx.ring n.tx.tdt
        { addr := p, length := u16 len, cmd := txdCmd, status := 0 }
      bufs := update n.tx.bufs n.tx.tdt p
      tdt := (n.tx.tdt + 1) % txRingSize } with ht
    have hown : ({ n with tx := t } : Net).Owns qs
        ((if n.tx.bufs n.tx.tdt ≠ 0 then [n.tx.bufs n.tx.tdt] else []) ++ xs)
        all := by
      refine { h with perm := ?_ }
      have hput : (_ ++ ({ n with tx := t } : Net).txPages).Perm
        (p :: n.txPages) := txPages_put htdt hpz
      refine List.Perm.trans ?_ h.perm
      rw [List.perm_iff_count]
      intro a
      have hcount := hput.count_eq a
      simp only [List.count_append, List.count_cons] at hcount ⊢
      have hheld : ({ n with tx := t } : Net).held qs = n.held qs := rfl
      rw [hheld]
      omega
    have hsame : n.Same { n with tx := t } qs := ⟨rfl, fun _ _ => rfl, fun _ _ _ _ _ => rfl⟩
    by_cases hz : n.tx.bufs n.tx.tdt = 0
    · rw [if_neg (fun hne => hne hz)] at hown ⊢
      exact ⟨_, rfl, hown, hsame, rfl, fun _ _ => rfl⟩
    rw [if_pos hz] at hown ⊢
    obtain ⟨n', hk, hown', hsame', _, htx, _, _, hmem⟩ := hown.kfree
    refine ⟨n', ?_, hown', hsame.trans hsame', htx, fun a ha => hmem a (ha _ List.mem_cons_self)⟩
    show (({ n with tx := t } : Net).kfree _ >>= pure) >>= _ = _
    rw [hk]
    rfl

-- == net_rx

/-- The type field of a frame. -/
def frameType (mem : Nat → UInt8) (buf : Nat) : UInt16 := bswaps (load16 mem (buf + 12))

/-- An IP packet whose lengths do not fit. -/
def Leaks (mem : Nat → UInt8) (buf : Nat) (len : Int) : Prop :=
  ethLen + ipLen ≤ u64 len ∧ frameType mem buf = ethtypeIp ∧ Malformed mem buf len

theorem arpReply_apart {r : Nat} (h : ¬ (r ≤ a ∧ a < r + pgSize)) :
    arpReply mem r buf a = mem a := by
  unfold pgSize at h
  unfold arpReply store16 store32 memput memmove
  dsimp only
  repeat rw [if_neg (by omega)]

theorem Net.Owns.arpRx (h : n.Owns qs [buf] all) (htdt : n.tx.tdt < txRingSize) :
    (arpRx n buf = .error .sendArpReply ∧ n.phys.freelist = []) ∨
      ∃ n', arpRx n buf = .ok n' ∧ n.Dropped n' qs all buf := by
  unfold Model.arpRx
  split
  next => exact .inr h.drop
  next =>
    have hown : ({ n with seenArp := true } : Net).Owns qs [buf] all :=
      { h with }
    obtain ⟨hf, heq⟩ | ⟨r, n1, heq, _⟩ := ({ n with seenArp := true } : Net).kalloc_cases
    · rw [heq]
      exact .inl ⟨rfl, hf⟩
    rw [heq]
    dsimp only
    obtain ⟨hown1, hsame1, _, htx1, _, _⟩ := hown.kalloc heq
    have hr := hown1.page_local List.mem_cons_self
    set n2 := n1.setMem (arpReply n1.phys.mem r buf) with hn2
    have hsame2 : n1.Same n2 qs := hown1.same_of_page hr
      (fun p hp => hown1.local_apart List.mem_cons_self hp) rfl
      (fun _ _ => rfl) (fun a ha => arpReply_apart ha)
    have htdt2 : n2.tx.tdt < txRingSize := by
      have htx : n2.tx = n.tx := htx1
      rw [htx]
      exact htdt
    obtain ⟨n3, htr, hown3, hsame3, _⟩ := (hown1.setMem _).transmit _ htdt2
    obtain ⟨n', hk, hdrop⟩ := hown3.drop
    have hsame : n.Same n1 qs := { hsame1 with }
    refine .inr ⟨n', ?_, hdrop.owns, hsame.trans (hsame2.trans
      (hsame3.trans hdrop.same)), hdrop.freed⟩
    rw [htr]
    exact hk

theorem Net.Queues.unique {qs' : List (List Nat)} (h : n.Queues qs)
    (h' : n.Queues qs') : qs = qs' := by
  refine List.ext_getElem? ?_
  intro i
  have hlen := h.length
  have hlen' := h'.length
  by_cases hi : i < n.ports.length
  · have hbp := List.getElem?_eq_getElem hi
    have hps := List.getElem?_eq_getElem (hlen ▸ hi)
    have hps' := List.getElem?_eq_getElem (hlen' ▸ hi)
    rw [hps, hps', (h.queue i _ _ hbp hps).chain.unique (h'.queue i _ _ hbp hps').chain]
  · rw [List.getElem?_eq_none_iff.mpr (by omega), List.getElem?_eq_none_iff.mpr (by omega)]

/-- Every page of `all` is in a queue, in the transmit ring or free, each in
one place, and `buf` is free. -/
def Net.Conserves (n : Net) (all : List Nat) (buf : Nat) : Prop :=
  ∃ qs, n.Queues qs ∧ n.Owns qs [] all ∧ n.phys.freelist.count buf = 1

theorem Net.Owns.count_free (h : n.Owns qs xs all)
    (hb : buf ∈ n.phys.freelist) : n.phys.freelist.count buf = 1 :=
  List.count_eq_one_of_mem (List.nodup_append.mp h.nodup_all).2.1 hb

theorem Net.Dropped.conserves (h : n.Dropped n' qs all buf)
    (hqs : n.Queues qs) : n'.Conserves all buf :=
  ⟨qs, hqs.congr h.same, h.owns, h.owns.count_free h.freed⟩

theorem Net.Accepted.conserves {bp' : BoundPort}
    (h : n.Accepted n' qs all buf i q bp bp' ps) : n'.Conserves all buf :=
  ⟨_, h.queues, h.owns, h.owns.count_free h.freed⟩

theorem Net.Owns.not_conserves (h : n.Owns qs [buf] all) (hqs : n.Queues qs) :
    ¬ n.Conserves all buf := by
  intro ⟨qs', hqs', hown', _⟩
  rw [← hqs.unique hqs'] at hown'
  have hlen := h.perm.length_eq.trans hown'.perm.length_eq.symm
  simp only [List.length_append, List.length_singleton, List.length_nil] at hlen
  omega

/-- ip_rx on a packet whose lengths fit. -/
theorem Net.Owns.ipRx (h : n.Owns qs [buf] all) (hqs : n.Queues qs)
    (hwf : ¬ Malformed n.phys.mem buf len) :
    (∃ n', ipRx n buf len = .ok n' ∧ n'.Conserves all buf) ∨
      ipRx n buf len = .error .undefined ∧ pgSize < frameUlen n.phys.mem buf - udpLen := by
  rw [ipRx_wellFormed hwf]
  cases hfind : findBoundPort n.ports (frameDport n.phys.mem buf) with
  | none =>
    obtain ⟨n', hk, hdrop⟩ := h.drop
    exact .inl ⟨n', hk, hdrop.conserves hqs⟩
  | some i =>
    obtain ⟨bp, hbp, _⟩ := findBoundPort_some hfind
    obtain ⟨ps, hps⟩ := hqs.at_port hbp
    obtain ⟨_, n', hres, hdrop⟩ | ⟨_, ⟨_, n', q, bp', hres, hacc⟩ | ⟨hlong, hres⟩⟩ :=
      ipRxPort_spec h hqs hbp hps
    · exact .inl ⟨n', hres, hdrop.conserves hqs⟩
    · exact .inl ⟨n', hres, hacc.conserves⟩
    · exact .inr ⟨hres, hlong⟩

/-- net_rx keeps the page, or gives it back, or does not return. -/
theorem Net.Owns.netRx (h : n.Owns qs [buf] all) (hqs : n.Queues qs)
    (htdt : n.tx.tdt < txRingSize) (len : Int) :
    (netRx n buf len = .ok n ∧ Leaks n.phys.mem buf len) ∨
    (∃ n', netRx n buf len = .ok n' ∧ n'.Conserves all buf ∧ ¬ Leaks n.phys.mem buf len) ∨
    (netRx n buf len = .error .sendArpReply ∧ n.phys.freelist = []) ∨
    (netRx n buf len = .error .undefined ∧ pgSize < frameUlen n.phys.mem buf - udpLen) := by
  have htypes : ethtypeArp ≠ ethtypeIp := by decide
  unfold Model.netRx
  dsimp only
  split
  next harp =>
    have hnot : ¬ Leaks n.phys.mem buf len := fun hl => htypes (harp.2.symm.trans hl.2.1)
    obtain ⟨herr, hf⟩ | ⟨n', hres, hdrop⟩ := h.arpRx htdt
    · exact .inr (.inr (.inl ⟨herr, hf⟩))
    · exact .inr (.inl ⟨n', hres, hdrop.conserves hqs, hnot⟩)
  next =>
    split
    next hip =>
      by_cases hm : Malformed n.phys.mem buf len
      · exact .inl ⟨ipRx_malformed hm, hip.1, hip.2, hm⟩
      · have hnot : ¬ Leaks n.phys.mem buf len := fun hl => hm hl.2.2
        obtain ⟨n', hres, hcons⟩ | ⟨herr, hlong⟩ := h.ipRx hqs hm
        · exact .inr (.inl ⟨n', hres, hcons, hnot⟩)
        · exact .inr (.inr (.inr ⟨herr, hlong⟩))
    next hip =>
      obtain ⟨n', hk, hdrop⟩ := h.drop
      exact .inr (.inl ⟨n', hk, hdrop.conserves hqs, fun hl => hip ⟨hl.1, hl.2.1⟩⟩)

/-- If net_rx returns, the page of the frame was freed once, and every page
it allocated is in a queue, in the transmit ring or free, exactly if the
frame is not an IP packet whose lengths do not fit. It does not return when
the reply to the first ARP request gets no page, or for a payload longer
than a page. -/
theorem net_rx_conserves_iff (h : n.Owns qs [buf] all) (hqs : n.Queues qs)
    (htdt : n.tx.tdt < txRingSize) (len : Int) :
    (∀ n', netRx n buf len = .ok n' →
      (n'.Conserves all buf ↔ ¬ Leaks n.phys.mem buf len)) ∧
    (∀ e, netRx n buf len = .error e →
      e = .sendArpReply ∧ n.phys.freelist = [] ∨
        e = .undefined ∧ pgSize < frameUlen n.phys.mem buf - udpLen) := by
  obtain ⟨hres, hl⟩ | ⟨m, hres, hcons, hnl⟩ | ⟨herr, hf⟩ | ⟨herr, hlong⟩ :=
    h.netRx hqs htdt len
  · rw [hres]
    refine ⟨?_, fun e he => nomatch he⟩
    intro n' hn'
    cases hn'
    exact ⟨fun hc => absurd hc (h.not_conserves hqs), fun hnl => absurd hl hnl⟩
  · rw [hres]
    refine ⟨?_, fun e he => nomatch he⟩
    intro n' hn'
    cases hn'
    exact ⟨fun _ => hnl, fun _ => hcons⟩
  · rw [herr]
    refine ⟨fun n' hn' => (nomatch hn'), ?_⟩
    intro e he
    cases he
    exact .inl ⟨rfl, hf⟩
  · rw [herr]
    refine ⟨fun n' hn' => (nomatch hn'), ?_⟩
    intro e he
    cases he
    exact .inr ⟨rfl, hlong⟩

end

-- == fixed frames

/-- A stack with nothing bound, two free pages, and the bytes `frame` in the
page at 0x87000000. -/
def idleNet (frame : List UInt8) : Net where
  phys :=
    { kend := 0x80020000
      trampolinePa := 0x80007000
      mem := memput (fun _ => 0) 0x87000000 frame.length (bytesOf frame)
      freelist := [0x87001000, 0x87002000] }
  nodes _ := none
  ports := []
  tx := e1000InitTx
  seenArp := false

theorem idleNet_owns (frame : List UInt8) :
    (idleNet frame).Owns [] [0x87000000] [0x87000000, 0x87001000, 0x87002000] where
  perm := List.Perm.refl _
  nodup := by decide
  valid p hp := by
    have hcases : p = 0x87000000 ∨ p = 0x87001000 ∨ p = 0x87002000 := by
      simpa using hp
    unfold Phys.isPage idleNet pgSize physTop
    dsimp only
    omega
  kend := Nat.zero_lt_succ _

theorem idleNet_queues (frame : List UInt8) : (idleNet frame).Queues [] where
  length := rfl
  queue _ _ _ hbp := nomatch hbp
  node _ hp := absurd hp List.not_mem_nil

/-- An IP frame, cut off after the IP header. -/
def shortFrame : List UInt8 := List.replicate 12 0 ++ [0x08, 0x00]

/-- An ARP request. -/
def arpFrame : List UInt8 := List.replicate 12 0 ++ [0x08, 0x06]

/-- The first ARP request is freed, and its reply is in the ring. -/
theorem net_rx_conserves_arp :
    ∃ n', netRx (idleNet arpFrame) 0x87000000 60 = .ok n' ∧
      n'.seenArp = true ∧ n'.phys.freelist = [0x87000000, 0x87002000] ∧
      n'.tx.bufs 0 = 0x87001000 ∧
      n'.Conserves [0x87000000, 0x87001000, 0x87002000] 0x87000000 := by
  refine ⟨_, rfl, rfl, rfl, rfl, ((net_rx_conserves_iff (idleNet_owns arpFrame)
    (idleNet_queues arpFrame) (by decide) 60).1 _ rfl).mpr ?_⟩
  intro hl
  exact absurd hl.2.1 (by decide)

/-- The frame cut off after the IP header: its page is neither freed nor
anywhere else. -/
theorem net_rx_leaks_short :
    ∃ n', netRx (idleNet shortFrame) 0x87000000 34 = .ok n' ∧
      n'.phys.freelist = [0x87001000, 0x87002000] ∧ n'.ports = [] ∧
      ¬ n'.Conserves [0x87000000, 0x87001000, 0x87002000] 0x87000000 :=
  ⟨idleNet shortFrame, rfl, rfl, rfl,
    (idleNet_owns shortFrame).not_conserves (idleNet_queues shortFrame)⟩

end Xv6Labs.Model
