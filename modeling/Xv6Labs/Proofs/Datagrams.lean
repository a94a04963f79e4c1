/-
Which frames ip_rx delivers.

The lengths must fit, the destination port must be bound with fewer than
sixteen packets pending, and two pages must be free. Nothing else of the
frame is looked at: not the header length of ip_vhl, and not ip_p.
-/
import Xv6Labs.Proofs.Ports

namespace Xv6Labs.Model

open Lib

-- == delivery

/-- `ipproto_udp`. -/
def ipprotoUdp : UInt8 := 17

/-- The field ip_vhl of a frame. -/
def frameVhl (mem : Nat → UInt8) (buf : Nat) : UInt8 := mem (buf + ethLen)

/-- The field ip_p of a frame. -/
def frameProto (mem : Nat → UInt8) (buf : Nat) : UInt8 := mem (buf + ethLen + 9)

/-- The lengths fit, the port is bound and not full, two pages are free. -/
def Net.TakesFrame (n : Net) (qs : List (List Nat)) (buf : Nat) (len : Int) : Prop :=
  ¬ Malformed n.phys.mem buf len ∧
    ∃ i ps, findBoundPort n.ports (frameDport n.phys.mem buf) = some i ∧
      qs[i]? = some ps ∧ ps.length < maxPendingPackets ∧
      2 ≤ n.phys.freelist.length

/-- `n'` has the queues of `n` with `pkt` appended to that of port `d`. -/
def Net.QueuedAt (n n' : Net) (qs : List (List Nat)) (d : UInt16) (pkt : Packet) : Prop :=
  ∃ i bp ps q, n.ports[i]? = some bp ∧ bp.port = d ∧ qs[i]? = some ps ∧
    n'.Queues (qs.set i (ps ++ [q])) ∧ n'.packetAt q = pkt

/-- The frame is a UDP datagram for port `d` with the data of `pkt`. -/
structure IsDatagram (mem : Nat → UInt8) (buf : Nat) (len : Int)
    (d : UInt16) (pkt : Packet) : Prop where
  version : (frameVhl mem buf).toNat / 16 = 4
  protocol : frameProto mem buf = ipprotoUdp
  /-- The UDP header is where ip_vhl says. -/
  header : 4 * ((frameVhl mem buf).toNat % 16) = ipLen
  port : frameDport mem buf = d
  data : udpLen ≤ frameUlen mem buf ∧
    pkt.data = bytesAt mem (buf + headersLen) (frameUlen mem buf - udpLen)
  inside : ((ethLen + ipLen + frameUlen mem buf : Nat) : Int) ≤ len

section

variable {n n' : Net} {qs : List (List Nat)} {all : List Nat} {buf : Nat}
  {len : Int} {d : UInt16} {pkt : Packet}

theorem u64_frame (h0 : 0 ≤ len) (hlen : len ≤ pgSize) : u64 len = len.toNat := by
  unfold pgSize at hlen
  exact u64_of_lt (Int.toNat_of_nonneg h0).symm (by omega)

theorem set_snoc_ne {i q : Nat} {ps : List Nat} (hps : qs[i]? = some ps) :
    qs.set i (ps ++ [q]) ≠ qs := by
  intro heq
  have hi := (List.getElem?_eq_some_iff.mp hps).1
  have hset := List.getElem?_set_self (a := ps ++ [q]) hi
  rw [heq, hps] at hset
  have hlen := congrArg List.length (Option.some.inj hset)
  simp at hlen

theorem set_snoc_inj {i j q r : Nat} {ps ps' : List Nat}
    (hps : qs[i]? = some ps) (hps' : qs[j]? = some ps')
    (h : qs.set i (ps ++ [q]) = qs.set j (ps' ++ [r])) : i = j ∧ q = r := by
  have hi := (List.getElem?_eq_some_iff.mp hps).1
  have hset := List.getElem?_set_self (a := ps ++ [q]) hi
  rw [h] at hset
  by_cases hij : i = j
  · subst hij
    rw [List.getElem?_set_self hi] at hset
    have happ := Option.some.inj hset
    rw [hps] at hps'
    cases hps'
    exact ⟨rfl, by simpa using happ.symm⟩
  · rw [List.getElem?_set_ne (Ne.symm hij), hps] at hset
    have hlen := congrArg List.length (Option.some.inj hset)
    simp at hlen

/-- Nothing was appended where the queues are the same. -/
theorem Net.Queues.not_queuedAt (h : n'.Queues qs) : ¬ n.QueuedAt n' qs d pkt := by
  rintro ⟨i, bp, ps, q, _, _, hps, hqs, _⟩
  exact set_snoc_ne hps (hqs.unique h)

/-- A frame within a page that is taken: its packet is queued at its port. -/
theorem Net.TakesFrame.rx (ht : n.TakesFrame qs buf len)
    (h : n.Owns qs [buf] all) (hqs : n.Queues qs) (h0 : 0 ≤ len) (hlen : len ≤ pgSize) :
    ∃ n', ipRx n buf len = .ok n' ∧
      ∀ d pkt, n.QueuedAt n' qs d pkt ↔
        d = frameDport n.phys.mem buf ∧ pkt = framePacket n.phys.mem buf := by
  obtain ⟨hwf, i, ps, hfind, hps, hroom, hfree⟩ := ht
  obtain ⟨bp, hbp, hport⟩ := findBoundPort_some hfind
  have hu := u64_frame h0 hlen
  have hfit : headersLen + (frameUlen n.phys.mem buf - udpLen) ≤ pgSize := by
    unfold Malformed at hwf
    unfold headersLen at hwf ⊢
    omega
  rw [ipRx_wellFormed hwf, hfind]
  obtain ⟨hno, _⟩ | ⟨_, ⟨_, n', q, bp', heq, hacc⟩ | ⟨hbig, _⟩⟩ := ipRxPort_spec h hqs hbp hps
  · exact absurd ⟨hroom, hfree⟩ hno
  · refine ⟨n', heq, ?_⟩
    intro d pkt
    constructor
    · rintro ⟨j, bq, ps', r, hbq, hd, hps', hqs', hpkt⟩
      obtain ⟨hij, hqr⟩ := set_snoc_inj hps hps' (hacc.queues.unique hqs')
      subst hij hqr
      rw [hbp] at hbq
      cases hbq
      exact ⟨hd.symm.trans hport, hpkt.symm.trans (hacc.packet hfit)⟩
    · rintro ⟨rfl, rfl⟩
      exact ⟨i, bp, ps, q, hbp, hport, hps, hacc.queues, hacc.packet hfit⟩
  · omega

/-- A frame that is not taken: nothing is queued. -/
theorem Net.Owns.ipRx_refused (h : n.Owns qs [buf] all) (hqs : n.Queues qs)
    (ht : ¬ n.TakesFrame qs buf len) : ∃ n', Model.ipRx n buf len = .ok n' ∧ n'.Queues qs := by
  by_cases hwf : Malformed n.phys.mem buf len
  · exact ⟨n, ipRx_malformed hwf, hqs⟩
  rw [ipRx_wellFormed hwf]
  cases hfind : findBoundPort n.ports (frameDport n.phys.mem buf) with
  | none =>
    obtain ⟨n', hk, hdrop⟩ := h.drop
    exact ⟨n', hk, hqs.congr hdrop.same⟩
  | some i =>
    obtain ⟨bp, hbp, _⟩ := findBoundPort_some hfind
    obtain ⟨ps, hps⟩ := hqs.at_port hbp
    obtain ⟨_, n', hres, hdrop⟩ | ⟨⟨hroom, hfree⟩, _⟩ := ipRxPort_spec h hqs hbp hps
    · exact ⟨n', hres, hqs.congr hdrop.same⟩
    · exact absurd ⟨hwf, i, _, hfind, hps, hroom, hfree⟩ ht

/-- A frame in a page of its own, with a length up to a page: ip_rx returns,
and what it queues is always a UDP datagram of the frame exactly if the
frame is not taken or says IPv4, a header of five words and UDP. -/
theorem delivers_datagrams_iff (h : n.Owns qs [buf] all) (hqs : n.Queues qs)
    (h0 : 0 ≤ len) (hlen : len ≤ pgSize) :
    (∃ n', ipRx n buf len = .ok n') ∧
    ((∀ n' d pkt, ipRx n buf len = .ok n' → n.QueuedAt n' qs d pkt →
        IsDatagram n.phys.mem buf len d pkt) ↔
      (n.TakesFrame qs buf len →
        frameVhl n.phys.mem buf = 0x45 ∧
          frameProto n.phys.mem buf = ipprotoUdp)) := by
  by_cases ht : n.TakesFrame qs buf len
  · obtain ⟨m, hm, hqueued⟩ := ht.rx h hqs h0 hlen
    refine ⟨⟨m, hm⟩, ?_, ?_⟩
    · intro hall _
      have hdg := hall m _ _ hm ((hqueued _ _).mpr ⟨rfl, rfl⟩)
      refine ⟨?_, hdg.protocol⟩
      have hv := hdg.version
      have hh := hdg.header
      unfold ipLen at hh
      apply UInt8.toNat.inj
      show _ = 69
      omega
    · intro hcond n' d pkt hn' hq
      obtain ⟨hvhl, hproto⟩ := hcond ht
      rw [hm] at hn'
      cases hn'
      obtain ⟨rfl, rfl⟩ := (hqueued d pkt).mp hq
      have hwf := ht.1
      unfold Malformed at hwf
      have hu := u64_frame h0 hlen
      refine ⟨?_, hproto, ?_, rfl, ⟨by omega, rfl⟩, by omega⟩
      · rw [hvhl]
        decide
      · rw [hvhl]
        decide
  · obtain ⟨m, hm, hsame⟩ := h.ipRx_refused hqs ht
    refine ⟨⟨m, hm⟩, fun _ htake => absurd htake ht, ?_⟩
    intro _ n' d pkt hn' hq
    rw [hm] at hn'
    cases hn'
    exact absurd hq hsame.not_queuedAt

end

-- == fixed frames

/-- A packet with one byte of payload, 42, behind a header of 20 bytes, from
10.0.2.2: for UDP it is from port 9 to port 7. -/
def byteFrame (vhl proto : UInt8) : List UInt8 :=
  List.replicate 12 0 ++ [0x08, 0x00, vhl] ++ List.replicate 8 0 ++
    [proto, 0, 0, 10, 0, 2, 2, 0, 0, 0, 0, 0, 9, 0, 7, 0, 9, 0, 0, 42]

/-- The stack with port 7 bound and the frame in the page at 0x87000000. -/
def byteNet (vhl proto : UInt8) : Net := (sysBind (idleNet (byteFrame vhl proto)) 7).2

theorem byteNet_owns (vhl proto : UInt8) :
    (byteNet vhl proto).Owns [[]] [0x87000000] [0x87000000, 0x87001000, 0x87002000] :=
  have h := idleNet_owns (byteFrame vhl proto)
  { h with }

theorem byteNet_queues (vhl proto : UInt8) : (byteNet vhl proto).Queues [[]] :=
  ((NetRun.start_inv rfl (idleNet_owns_free (byteFrame vhl proto))).concat
    (show findBoundPort [] 7 = none from rfl)).queues

/-- A UDP datagram is delivered as one. -/
theorem delivers_datagrams_udp :
    ∃ n', ipRx (byteNet 0x45 17) 0x87000000 43 = .ok n' ∧
      ∀ d pkt, (byteNet 0x45 17).QueuedAt n' [[]] d pkt →
        IsDatagram (byteNet 0x45 17).phys.mem 0x87000000 43 d pkt := by
  obtain ⟨⟨n', hn'⟩, hiff⟩ := delivers_datagrams_iff
    (byteNet_owns 0x45 17) (byteNet_queues 0x45 17)
    (show (0 : Int) ≤ 43 by decide) (by decide)
  exact ⟨n', hn', fun d pkt => hiff.mpr (fun _ => ⟨rfl, rfl⟩) n' d pkt hn'⟩

/-- A TCP segment to port 7 is delivered to whoever has bound UDP port 7. -/
theorem delivers_tcp_segment :
    ∃ n', ipRx (byteNet 0x45 6) 0x87000000 43 = .ok n' ∧
      (byteNet 0x45 6).QueuedAt n' [[]] 7 ⟨[42], 0x0a000202, 9⟩ ∧
      ¬ IsDatagram (byteNet 0x45 6).phys.mem 0x87000000 43 7
        ⟨[42], 0x0a000202, 9⟩ := by
  have htake : (byteNet 0x45 6).TakesFrame [[]] 0x87000000 43 :=
    ⟨by decide, 0, [], rfl, rfl, by decide, by decide⟩
  obtain ⟨n', hn', hqueued⟩ := htake.rx (byteNet_owns 0x45 6)
    (byteNet_queues 0x45 6) (by decide) (by decide)
  refine ⟨n', hn', (hqueued _ _).mpr ⟨by decide, rfl⟩, ?_⟩
  intro hdg
  exact absurd hdg.protocol (by decide)

end Xv6Labs.Model
