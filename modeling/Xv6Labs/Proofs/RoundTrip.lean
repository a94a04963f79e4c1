/-
A datagram from sys_send to sys_recv: the frame that sys_send builds is
queued by ip_rx as one packet, and sys_recv with room for it hands its
payload and its sender to the user (`datagram_round_trip`).
-/
import Xv6Labs.Proofs.Ports
import Xv6Labs.Proofs.SendFrame

namespace Xv6Labs.Model

variable {m : Net} {qs : List (List Nat)} {ps : List Nat} {pa : Nat}

open Lib

-- == user memory

/-- Reading user memory: the areas are in pages the user may use, and hold
`bs`. -/
def PageTable.Holds (pt : PageTable) (ok : Pte → Bool) (mem : Nat → UInt8)
    (va : Nat) (bs : List UInt8) : Prop :=
  ∀ (j : Nat) b, bs[j]? = some b → ∃ pa, pt.find ok (u64 (va + j)) = some pa ∧ mem pa = b

/-- Two areas of user memory with no address in common. -/
def AreasApart (va len va' len' : Nat) : Prop :=
  ∀ j j', j < len → j' < len' → u64 (va + j) ≠ u64 (va' + j')

section

variable {pt : PageTable} {mem m : Nat → UInt8} {va len va' : Nat}
  {bs : List UInt8} {f : Nat → UInt8}
variable {ok : Pte → Bool}

/-- What a copyout has put is there. -/
theorem CopiedOut.holds (h : CopiedOut pt mem va f bs.length m)
    (hf : ∀ (j : Nat) b, bs[j]? = some b → f j = b) : pt.Holds Pte.forCopyout m va bs := by
  intro j b hb
  obtain ⟨pa, hpa, hval⟩ := h.put j (List.getElem?_eq_some_iff.mp hb).1
  exact ⟨pa, hpa, hval.trans (hf j b hb)⟩

/-- A copyout to another area keeps what is there. -/
theorem PageTable.Holds.copiedOut (h : pt.Holds Pte.forCopyout mem va' bs) (hpt : pt.Simple)
    (hap : AreasApart va len va' bs.length)
    (hc : CopiedOut pt mem va f len m) : pt.Holds Pte.forCopyout m va' bs := by
  intro j b hb
  obtain ⟨pa, hpa, hval⟩ := h j b hb
  refine ⟨pa, hpa, (hc.rest pa ?_).trans hval⟩
  intro i hi hfind
  exact hap i j hi (List.getElem?_eq_some_iff.mp hb).1 (hpt.find_inj hfind hpa)

theorem PageTable.Holds.congr (h : pt.Holds ok mem va bs)
    (heq : ∀ a, ¬ pt.Outside a → m a = mem a) : pt.Holds ok m va bs := by
  intro j b hb
  obtain ⟨pa, hpa, hval⟩ := h j b hb
  have hin := PageTable.not_outside_of_find hpa
  exact ⟨pa, hpa, (heq pa hin).trans hval⟩

theorem PageTable.Holds.covers (h : pt.Holds ok mem va bs) : pt.Covers ok va bs.length := by
  intro j hj
  obtain ⟨pa, hpa, _⟩ := h j _ (List.getElem?_eq_getElem hj)
  exact ⟨pa, hpa⟩

end

-- == sys_recv

/-- The three areas that sys_recv writes. -/
structure RecvAreas (pt : PageTable) (srcArg sportArg buf len : Nat) : Prop where
  simple : pt.Simple
  cover_src : pt.Covers Pte.forCopyout srcArg 4
  cover_sport : pt.Covers Pte.forCopyout sportArg 2
  cover_buf : pt.Covers Pte.forCopyout buf len
  sport_src : AreasApart sportArg 2 srcArg 4
  buf_src : AreasApart buf len srcArg 4
  buf_sport : AreasApart buf len sportArg 2

section

variable {pt : PageTable} {mem : Nat → UInt8} {pk : PendingPacket}
  {srcArg sportArg buf : Nat} {maxlen : Int} {payload : List UInt8}

/-- The bytes of a 32-bit word in memory. -/
def word32 (v : UInt32) : List UInt8 := (List.range 4).map (bytes32 v)

/-- The bytes of a 16-bit word in memory. -/
def word16 (v : UInt16) : List UInt8 := (List.range 2).map (bytes16 v)

/-- What sys_recv was to deliver is in the user's memory. -/
structure Delivered (pt : PageTable) (mem : Nat → UInt8)
    (srcArg sportArg buf : Nat) (pkt : Packet) : Prop where
  src : pt.Holds Pte.forCopyout mem srcArg (word32 pkt.srcIp)
  sport : pt.Holds Pte.forCopyout mem sportArg (word16 pkt.srcPort)
  data : pt.Holds Pte.forCopyout mem buf pkt.data

theorem getElem?_map_range {α : Type} {f : Nat → α} {k j : Nat} {b : α}
    (h : ((List.range k).map f)[j]? = some b) : f j = b := by
  obtain ⟨hj, heq⟩ := List.getElem?_eq_some_iff.mp h
  rw [List.getElem_map, List.getElem_range] at heq
  exact heq

theorem recvCopies_delivers (mem : Nat → UInt8)
    (hareas : RecvAreas pt srcArg sportArg buf pk.len.toNat)
    (hlen : 0 ≤ pk.len ∧ pk.len ≤ pgSize) (hmax : pk.len ≤ maxlen)
    (hout : ∀ a, pk.data ≤ a → a < pk.data + pgSize → pt.Outside a) :
    ∃ mem', recvCopies pt mem pk srcArg sportArg buf maxlen = .ok (pk.len, mem') ∧
      Delivered pt mem' srcArg sportArg buf
        ⟨bytesAt mem pk.data pk.len.toNat, pk.srcIp, pk.srcPort⟩ := by
  obtain ⟨m1, h1⟩ := copyoutUser_ok mem (fun _ => bytes32 pk.srcIp) hareas.cover_src
  have hc1 := copyoutUser_content hareas.simple (by decide) (fun _ _ _ _ => rfl) h1
  obtain ⟨m2, h2⟩ := copyoutUser_ok m1 (fun _ => bytes16 pk.srcPort) hareas.cover_sport
  have hc2 := copyoutUser_content hareas.simple (by decide) (fun _ _ _ _ => rfl) h2
  obtain ⟨m3, h3⟩ := copyoutUser_ok m2 (fun mem i => mem (pk.data + i)) hareas.cover_buf
  have hdata : ∀ m : Nat → UInt8, (∀ a, pt.Outside a → m a = m2 a) →
      ∀ i, i < pk.len.toNat → m (pk.data + i) = m2 (pk.data + i) := by
    intro m hm i hi
    exact hm _ (hout _ (Nat.le_add_right ..) (by omega))
  have hc3 := copyoutUser_content hareas.simple (by unfold pgSize at hlen; omega) hdata h3
  have hu : u64 pk.len = pk.len.toNat := by
    unfold u64 pgSize at *
    omega
  refine ⟨m3, ?_, ?_, ?_, ?_⟩
  · unfold recvCopies
    rw [h1, ok_bind]
    dsimp only
    rw [h2, ok_bind]
    dsimp only
    rw [if_neg (by omega), hu, h3]
    rfl
  · have hsrc : pt.Holds Pte.forCopyout m1 srcArg (word32 pk.srcIp) :=
      hc1.holds fun j b hb => getElem?_map_range hb
    exact (hsrc.copiedOut hareas.simple hareas.sport_src hc2).copiedOut
      hareas.simple hareas.buf_src hc3
  · have hsport : pt.Holds Pte.forCopyout m2 sportArg (word16 pk.srcPort) :=
      hc2.holds fun j b hb => getElem?_map_range hb
    exact hsport.copiedOut hareas.simple hareas.buf_sport hc3
  have hlen' := length_bytesAt mem pk.data pk.len.toNat
  rw [← hlen'] at hc3
  refine hc3.holds ?_
  intro j b hb
  have hj := (List.getElem?_eq_some_iff.mp hb).1
  have hat := hout (pk.data + j) (Nat.le_add_right ..) (by omega)
  rw [← getElem?_map_range hb]
  exact (hc2.outside hat).trans (hc1.outside hat)

/-- sys_recv with room for the first packet of the queue. -/
theorem Net.Owns.recv_delivers {n : Net} {qs : List (List Nat)}
    {all ps : List Nat} {p i : Nat} {bp : BoundPort} {pkt : Packet}
    {dport : Int} (killed : Bool) (h : n.Owns qs [] all) (hqs : n.Queues qs)
    (hpt : pt.Apart (n.held qs)) (hi : findBoundPort n.ports (toU16 dport) = some i)
    (hbp : n.ports[i]? = some bp) (hps : qs[i]? = some (p :: ps)) (hpkt : n.packetAt p = pkt)
    (hareas : RecvAreas pt srcArg sportArg buf pkt.data.length) (hmax : pkt.data.length ≤ maxlen) :
    ∃ n', sysRecv n pt killed dport srcArg sportArg buf maxlen =
        .ok (some ((pkt.data.length : Int), n')) ∧
      Delivered pt n'.phys.mem srcArg sportArg buf pkt := by
  have hp := mem_flatten_of_getElem? hps List.mem_cons_self
  obtain ⟨pk, hpk, hlen⟩ := hqs.node p hp
  have hheld := Net.mem_held_data hp hpk
  have heq : pkt = ⟨bytesAt n.phys.mem pk.data pk.len.toNat, pk.srcIp, pk.srcPort⟩ := by
    rw [← hpkt]
    unfold Net.packetAt
    rw [hpk]
  have hlen' : pkt.data.length = pk.len.toNat := by
    rw [heq]
    exact length_bytesAt ..
  have hint : (pkt.data.length : Int) = pk.len := by omega
  rw [hlen'] at hareas
  obtain ⟨ret, mem, n', hcopy, hrecv, _, hmem⟩ :=
    h.recv killed srcArg sportArg buf maxlen hqs hpt hi hbp hps hpk
  obtain ⟨mem', hcopy', hdel⟩ := recvCopies_delivers n.phys.mem hareas hlen (hint ▸ hmax)
    fun a hle hlt => hpt.outside hheld (h.page_held hheld) ⟨hle, hlt⟩
  rw [hcopy'] at hcopy
  cases hcopy
  rw [← heq] at hdel
  refine ⟨n', hint ▸ hrecv, ?_, ?_, ?_⟩
  · exact hdel.src.congr hmem
  · exact hdel.sport.congr hmem
  · exact hdel.data.congr hmem

end

-- == sys_send

section

variable {n : Net} {qs : List (List Nat)} {xs all : List Nat} {pt : PageTable}
  {payload : List UInt8} {bufaddr : Nat}

/-- sys_send of a payload in the user's memory: a page with its headers and
the payload. -/
theorem Net.Owns.send_builds (sport dst dport : Int) (h : n.Owns qs xs all)
    (hfree : n.phys.freelist ≠ []) (hpt : pt.Apart n.phys.freelist)
    (hpay : pt.Holds Pte.forCopyin n.phys.mem bufaddr payload)
    (hlen : payload.length + headersLen ≤ pgSize) :
    ∃ buf n', sysSendFrame n pt sport dst dport bufaddr payload.length =
        .ok (some (buf, ((payload.length + headersLen : Nat) : Int)), n') ∧
      n'.Owns qs (buf :: xs) all ∧ SendHeaders n'.phys.mem buf sport dport payload.length ∧
      ∀ (j : Nat) b, payload[j]? = some b → n'.phys.mem (buf + headersLen + j) = b := by
  have hu : u64 (payload.length : Int) = payload.length := by
    unfold u64
    unfold pgSize headersLen ethLen ipLen udpLen at *
    omega
  have htotal := send_total payload.length (by omega) (by
    unfold pgSize headersLen ethLen ipLen udpLen at *
    omega)
  obtain ⟨hf, _⟩ | ⟨buf, n1, heq, _⟩ := n.kalloc_cases
  · exact absurd hf hfree
  obtain ⟨hown1, _, hpage, _, _, hmem1⟩ := h.kalloc heq
  have hin := Net.kalloc_mem heq
  have hout : ∀ a, buf + headersLen ≤ a → a < buf + headersLen + payload.length → pt.Outside a := by
    intro a hle hlt
    exact hpt.outside hin hpage ⟨by omega, by omega⟩
  obtain ⟨mem', hcopy⟩ := copyinUser_ok (sendHeaders n1.phys.mem buf sport dst dport payload.length)
    (buf + headersLen) hpay.covers
  obtain ⟨_, m, hcopy', hframe⟩ := copyinUser_total pt
    (sendHeaders n1.phys.mem buf sport dst dport payload.length)
    (buf + headersLen) bufaddr payload.length
  rw [hcopy] at hcopy'
  cases hcopy'
  refine ⟨buf, n1.setMem mem', ?_, hown1.setMem mem', ?_, ?_⟩
  · unfold sysSendFrame
    rw [htotal, if_neg (by omega), heq]
    dsimp only
    rw [hu, hcopy]
    rfl
  · refine (sendHeaders_spec n1.phys.mem buf sport dst dport _).congr ?_
    intro j hj
    exact hframe _ (by omega)
  intro j b hb
  have hj := (List.getElem?_eq_some_iff.mp hb).1
  obtain ⟨pa, hpa, hval⟩ := copyinUser_content hout hcopy j hj
  obtain ⟨pa', hpa', hval'⟩ := hpay j b hb
  rw [hpa'] at hpa
  cases hpa
  -- the user's byte is not in the new page
  have hapart : ¬ (buf ≤ pa ∧ pa < buf + pgSize) := fun hbuf =>
    PageTable.not_outside_of_find hpa' (hpt.outside hin hpage hbuf)
  show mem' _ = b
  rw [hval, sendHeaders_apart hapart, hmem1 _ hapart, hval']

end

-- == round trip

/-- A stack that takes a frame in page `buf` for `port`: the port is bound and
not full, and two pages are free. -/
structure Net.Takes (m : Net) (qs : List (List Nat)) (all : List Nat)
    (buf : Nat) (port : UInt16) (i : Nat) (ps : List Nat) : Prop where
  owns : m.Owns qs [buf] all
  queues : m.Queues qs
  bound : findBoundPort m.ports port = some i
  queue : qs[i]? = some ps
  room : ps.length < maxPendingPackets
  free : 2 ≤ m.phys.freelist.length

/-- A stack whose first packet for `port` is `pkt`. -/
structure Net.Offers (m : Net) (qs : List (List Nat)) (all : List Nat)
    (port : UInt16) (pkt : Packet) : Prop where
  owns : m.Owns qs [] all
  queues : m.Queues qs
  first : ∃ (i q : Nat) (rest : List Nat), findBoundPort m.ports port = some i ∧
    qs[i]? = some (q :: rest) ∧ m.packetAt q = pkt

/-- `m'` is `m` with the packet `pkt` at the end of queue `i`. -/
structure Net.Appends (m m' : Net) (qs : List (List Nat)) (all : List Nat)
    (port : UInt16) (i : Nat) (ps : List Nat) (pkt : Packet) : Prop where
  added : ∃ q pk, m'.Queues (qs.set i (ps ++ [q])) ∧ m'.nodes q = some pk ∧
    pk.len = pkt.data.length ∧
    bytesAt m'.phys.mem pk.data pkt.data.length = pkt.data ∧
    pk.srcIp = pkt.srcIp ∧ pk.srcPort = pkt.srcPort ∧
    (ps = [] → m'.Offers (qs.set i [q]) all port pkt)
  others : ∀ p ∈ qs.flatten, m'.packetAt p = m.packetAt p

/-- The record in page `q` of a queue, and the packet there. -/
theorem Net.Queues.node_of_packet {q : Nat}
    {pkt : Packet} (h : m.Queues qs) (hq : q ∈ qs.flatten) (hpkt : m.packetAt q = pkt) :
    ∃ pk, m.nodes q = some pk ∧ pk.len = pkt.data.length ∧
      bytesAt m.phys.mem pk.data pkt.data.length = pkt.data ∧
      pk.srcIp = pkt.srcIp ∧ pk.srcPort = pkt.srcPort := by
  obtain ⟨pk, hpk, hlen, _⟩ := h.node q hq
  unfold Net.packetAt at hpkt
  rw [hpk] at hpkt
  subst hpkt
  have hlen' := length_bytesAt m.phys.mem pk.data pk.len.toNat
  refine ⟨pk, hpk, ?_, ?_, rfl, rfl⟩
  · dsimp only
    omega
  · dsimp only
    rw [hlen']

/-- The frame of sys_send on a stack that takes it: one packet is appended,
with the payload, its length, the sender's address and its port. -/
theorem SendHeaders.rx {all : List Nat}
    {buf i : Nat} {sport dport : Int} {payload : List UInt8}
    (hd : SendHeaders m.phys.mem buf sport dport payload.length)
    (hlen : payload.length + headersLen ≤ pgSize)
    (hpay : ∀ (j : Nat) b, payload[j]? = some b → m.phys.mem (buf + headersLen + j) = b)
    (h : m.Takes qs all buf (toU16 dport) i ps) :
    ∃ m', ipRx m buf (payload.length + headersLen : Nat) = .ok m' ∧
      m.Appends m' qs all (toU16 dport) i ps ⟨payload, localIp, toU16 sport⟩ := by
  obtain ⟨hmal, hulen, hport, hpkt⟩ := hd.packet hlen hpay
  obtain ⟨bp, hbp, hbport⟩ := findBoundPort_some h.bound
  have hi := (List.getElem?_eq_some_iff.mp h.queue).1
  rw [ipRx_wellFormed hmal, hport, h.bound]
  obtain ⟨hno, _⟩ | ⟨_, ⟨_, m', q, bp', heq, hacc⟩ | ⟨hbig, _⟩⟩ :=
    ipRxPort_spec h.owns h.queues hbp h.queue
  · exact absurd ⟨h.room, h.free⟩ hno
  · have hat := (hacc.packet (by omega)).trans hpkt
    have hset := List.getElem?_set_self (a := ps ++ [q]) hi
    obtain ⟨pk, hpk, hrest⟩ := hacc.queues.node_of_packet
      (mem_flatten_of_getElem? hset List.mem_concat_self) hat
    refine ⟨m', heq, ⟨q, pk, hacc.queues, hpk, hrest.1, hrest.2.1, hrest.2.2.1,
      hrest.2.2.2, ?_⟩, hacc.others⟩
    intro hnil
    subst hnil
    refine ⟨hacc.owns, hacc.queues, i, q, [], ?_, hset, hat⟩
    rw [hacc.ports, findBoundPort_congr (map_port_set hbp hacc.port)]
    exact h.bound
  · omega

/-- A datagram with a payload that fits in a page: sys_send builds a frame of
which ip_rx, on any stack that takes it, makes one packet with the payload, its
length, the sender's address and port; and sys_recv, when this packet is the
first of its port, hands all of it to the user. -/
theorem datagram_round_trip {n : Net} {qs : List (List Nat)}
    {xs all : List Nat} {pt : PageTable} {payload : List UInt8} {bufaddr : Nat}
    (sport dst dport : Int) (h : n.Owns qs xs all)
    (hfree : n.phys.freelist ≠ []) (hpt : pt.Apart n.phys.freelist)
    (hpay : pt.Holds Pte.forCopyin n.phys.mem bufaddr payload)
    (hlen : payload.length + headersLen ≤ pgSize) :
    ∃ (buf total : Nat) (n' : Net),
      sysSendFrame n pt sport dst dport bufaddr payload.length =
        .ok (some (buf, (total : Int)), n') ∧
      (∀ (m : Net) (qs' : List (List Nat)) (all' ps : List Nat) (buf' i : Nat),
        m.Takes qs' all' buf' (toU16 dport) i ps →
        (∀ j, j < total → m.phys.mem (buf' + j) = n'.phys.mem (buf + j)) →
        ∃ m', ipRx m buf' total = .ok m' ∧
          m.Appends m' qs' all' (toU16 dport) i ps
            ⟨payload, localIp, toU16 sport⟩) ∧
      ∀ (m : Net) (qs' : List (List Nat)) (all' : List Nat) (pt' : PageTable)
        (killed : Bool) (srcArg sportArg buf' : Nat) (maxlen : Int),
        m.Offers qs' all' (toU16 dport) ⟨payload, localIp, toU16 sport⟩ →
        pt'.Apart (m.held qs') →
        RecvAreas pt' srcArg sportArg buf' payload.length →
        payload.length ≤ maxlen →
        ∃ m', sysRecv m pt' killed dport srcArg sportArg buf' maxlen =
            .ok (some ((payload.length : Int), m')) ∧
          Delivered pt' m'.phys.mem srcArg sportArg buf'
            ⟨payload, localIp, toU16 sport⟩ := by
  obtain ⟨buf, n', hsend, _, hd, hdata⟩ :=
    h.send_builds sport dst dport hfree hpt hpay hlen
  refine ⟨buf, payload.length + headersLen, n', hsend, ?_, ?_⟩
  · intro m qs' all' ps buf' i htakes hsame
    refine (hd.congr fun j hj => hsame j (by omega)).rx hlen ?_ htakes
    intro j b hb
    have hj := (List.getElem?_eq_some_iff.mp hb).1
    rw [Nat.add_assoc, hsame _ (by omega), ← Nat.add_assoc]
    exact hdata j b hb
  · intro m qs' all' pt' killed srcArg sportArg buf' maxlen hoffers hpt' hareas
      hmax
    obtain ⟨i, q, rest, hi, hps, hat⟩ := hoffers.first
    obtain ⟨bp, hbp, _⟩ := findBoundPort_some hi
    exact hoffers.owns.recv_delivers killed hoffers.queues hpt' hi hbp hps hat
      hareas hmax

/-- A table with one page, at address 0, which the user may read and write. -/
def onePage (pa : Nat) : PageTable where
  root := 0x80100000
  mid _ := some 0x80101000
  low _ := some 0x80102000
  leaf m := if m = 0 then some ⟨pa, ⟨true, true, false, true⟩⟩ else none

theorem onePage_entry {m : Nat} {e : Pte}
    (h : (onePage pa).entry m = some e) : m = 0 ∧ e.pa = pa := by
  unfold PageTable.entry at h
  rw [if_pos ⟨rfl, rfl⟩] at h
  unfold onePage at h
  dsimp only at h
  split at h
  next hm =>
    cases h
    exact ⟨hm, rfl⟩
  next => cases h

theorem onePage_apart (hal : pa % pgSize = 0) (hps : pa ∉ ps) : (onePage pa).Apart ps := by
  intro m e he
  obtain ⟨_, hpa⟩ := onePage_entry he
  rw [hpa]
  exact ⟨hal, hps⟩

theorem onePage_areas : RecvAreas (onePage 0x87003000) 0 4 8 1 where
  simple :=
    { aligned := fun m e he => by
        rw [(onePage_entry he).2]
        decide
      once := fun m m' e e' he he' _ => by
        rw [(onePage_entry he).1, (onePage_entry he').1] }
  cover_src := by
    intro j hj
    interval_cases j
    all_goals exact ⟨_, rfl⟩
  cover_sport := by
    intro j hj
    interval_cases j
    all_goals exact ⟨_, rfl⟩
  cover_buf := by
    intro j hj
    interval_cases j
    exact ⟨_, rfl⟩
  sport_src := by
    intro j j' hj hj'
    unfold u64
    omega
  buf_src := by
    intro j j' hj hj'
    unfold u64
    omega
  buf_sport := by
    intro j j' hj hj'
    unfold u64
    omega

/-- A stack with port 7 bound, whose memory is `mem`. -/
def boundNet (mem : Nat → UInt8) : Net := (sysBind (idleNet []) 7).2.setMem mem

theorem boundNet_takes (mem : Nat → UInt8) :
    (boundNet mem).Takes [[]] [0x87000000, 0x87001000, 0x87002000] 0x87000000 (toU16 7) 0 [] := by
  have hown := idleNet_owns []
  have hinv := (NetRun.start_inv rfl (idleNet_owns_free [])).concat
    (show findBoundPort [] 7 = none from rfl)
  refine ⟨{ hown with }, ?_, rfl, rfl, by decide, Nat.le_refl 2⟩
  exact hinv.queues.congr ⟨rfl, fun _ hp => absurd hp List.not_mem_nil,
    fun _ hp => absurd hp List.not_mem_nil⟩

/-- The byte 42, from port 9 to port 7: sent, stored by the card, queued and
received. -/
theorem datagram_round_trip_byte :
    ∃ (buf total : Nat) (n' m m₁ m₂ : Net),
      sysSendFrame (idleNet [42]) (onePage 0x87000000) 9 0x0a00020f 7 0 1 =
        .ok (some (buf, (total : Int)), n') ∧
      (∀ j, j < total →
        m.phys.mem (0x87000000 + j) = n'.phys.mem (buf + j)) ∧
      ipRx m 0x87000000 total = .ok m₁ ∧
      sysRecv m₁ (onePage 0x87003000) false 7 0 4 8 100 =
        .ok (some (1, m₂)) ∧
      Delivered (onePage 0x87003000) m₂.phys.mem 0 4 8 ⟨[42], localIp, 9⟩ := by
  have hpay : (onePage 0x87000000).Holds Pte.forCopyin (idleNet [42]).phys.mem
      0 [42] := by
    intro j b hb
    obtain ⟨hj, hb⟩ := List.getElem?_eq_some_iff.mp hb
    have hj' : j < 1 := hj
    interval_cases j
    exact ⟨_, rfl, hb⟩
  obtain ⟨buf, total, n', hsend, hrx, hrecv⟩ := datagram_round_trip 9
    0x0a00020f 7 (idleNet_owns_free [42]) (by decide)
    (onePage_apart (by decide) (by decide)) hpay (by decide)
  set m := boundNet fun a => n'.phys.mem (buf + (a - 0x87000000)) with hm
  have hsame : ∀ j, j < total →
      m.phys.mem (0x87000000 + j) = n'.phys.mem (buf + j) := by
    intro j _
    show n'.phys.mem (buf + (0x87000000 + j - 0x87000000)) = _
    rw [Nat.add_sub_cancel_left]
  obtain ⟨m₁, hm₁, happ⟩ := hrx m _ _ _ _ _ (boundNet_takes _) hsame
  obtain ⟨q, pk, hq, hpk, _, _, _, _, hoffers⟩ := happ.added
  have hown := (hoffers rfl).owns
  obtain ⟨m₂, hm₂, hdel⟩ := hrecv m₁ _ _ (onePage 0x87003000) false 0 4 8 100
    (hoffers rfl) (onePage_apart (by decide) (by
      intro hin
      have hall := hown.perm.mem_iff.mp (List.mem_append_left _
        (List.mem_append_left _ (List.mem_append_right _ hin)))
      revert hall
      decide))
    onePage_areas (by decide)
  exact ⟨buf, total, n', m, m₁, m₂, hsend, hsame, hm₁, hm₂, hdel⟩

end Xv6Labs.Model
