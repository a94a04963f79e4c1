/-
The network stack of week 6, net.c: binding ports, receiving and sending
UDP packets, and the receive path from the card.

# Memory

Frames, payloads and user pages are bytes of physical memory. A
`struct pending_packet` has a page of its own, and is kept as a record under
the page's address (`Net.nodes`); kfree removes it, so that a use after free
finds nothing. A copy of a payload into its page that would run past the
page is an error.

# Locks

Each system call that is modelled runs under the port's lock from the lookup
to the end, and is one step. sys_recv on an empty queue sleeps, which is no
step.

# What is left out

The messages printed, and sys_unbind, which does nothing.
-/
import Xv6Labs.Model.E1000
import Xv6Labs.Model.Fault

namespace Xv6Labs.Model

open Lib

-- == byte order

/-- `bswaps`, also called ntohs and htons. -/
def bswaps (val : UInt16) : UInt16 := ((val &&& 0x00ff) <<< 8) ||| ((val &&& 0xff00) >>> 8)

/-- `bswapl`, also called ntohl and htonl. -/
def bswapl (val : UInt32) : UInt32 :=
  ((val &&& 0x000000ff) <<< 24) ||| ((val &&& 0x0000ff00) <<< 8) |||
    ((val &&& 0x00ff0000) >>> 8) ||| ((val &&& 0xff000000) >>> 24)

/-- The bytes of a 16-bit word, low byte first. -/
def bytes16 (v : UInt16) : Nat → UInt8
  | 0 => v.toUInt8
  | _ => (v >>> 8).toUInt8

/-- The bytes of a 32-bit word, low byte first. -/
def bytes32 (v : UInt32) : Nat → UInt8
  | 0 => v.toUInt8
  | 1 => (v >>> 8).toUInt8
  | 2 => (v >>> 16).toUInt8
  | _ => (v >>> 24).toUInt8

def load16 (mem : Nat → UInt8) (a : Nat) : UInt16 :=
  (mem a).toUInt16 ||| ((mem (a + 1)).toUInt16 <<< 8)

def load32 (mem : Nat → UInt8) (a : Nat) : UInt32 :=
  (mem a).toUInt32 ||| ((mem (a + 1)).toUInt32 <<< 8) |||
    ((mem (a + 2)).toUInt32 <<< 16) ||| ((mem (a + 3)).toUInt32 <<< 24)

def store16 (mem : Nat → UInt8) (a : Nat) (v : UInt16) : Nat → UInt8 := memput mem a 2 (bytes16 v)

def store32 (mem : Nat → UInt8) (a : Nat) (v : UInt32) : Nat → UInt8 := memput mem a 4 (bytes32 v)

-- == headers

/-- `sizeof(struct eth)`. -/
abbrev ethLen : Nat := 14

/-- `sizeof(struct ip)`. -/
abbrev ipLen : Nat := 20

/-- `sizeof(struct udp)`. -/
abbrev udpLen : Nat := 8

/-- `sizeof(struct arp)`. -/
abbrev arpLen : Nat := 28

/-- All three headers of a UDP packet. -/
abbrev headersLen : Nat := ethLen + ipLen + udpLen

def ethtypeIp : UInt16 := 0x0800

def ethtypeArp : UInt16 := 0x0806

/-- `local_mac`. -/
def localMac : List UInt8 := [0x52, 0x54, 0x00, 0x12, 0x34, 0x56]

/-- `host_mac`. -/
def hostMac : List UInt8 := [0x52, 0x55, 0x0a, 0x00, 0x02, 0x02]

/-- `local_ip`, MAKE_IP_ADDR(10, 0, 2, 15). -/
def localIp : UInt32 :=
  ((10 : UInt32) <<< 24) ||| ((0 : UInt32) <<< 16) ||| ((2 : UInt32) <<< 8) ||| 15

/-- The bytes of a list, as the source of a memmove. -/
def bytesOf (bs : List UInt8) (i : Nat) : UInt8 := bs.getD i 0

-- == state

/-- How net.c ends early. -/
inductive NetPanic where
  | kernel (p : Panic)
  /-- "send_arp_reply" -/
  | sendArpReply
  /-- a dangling pointer, or a copy past the end of a page -/
  | undefined
deriving DecidableEq, Repr

/-- A panic of a function that net.c calls. -/
def liftPanic {α : Type} : Except Panic α → Except NetPanic α
  | .ok a => .ok a
  | .error p => .error (.kernel p)

/-- `struct pending_packet`. -/
structure PendingPacket where
  data : Nat
  len : Int
  srcIp : UInt32
  srcPort : UInt16
  next : Nat
deriving DecidableEq, Repr

/-- `struct bound_port`. -/
structure BoundPort where
  port : UInt16
  pendingCount : Int
  head : Nat
  tail : Nat
deriving DecidableEq, Repr

/-- `MAX_PENDING_PACKETS`. -/
def maxPendingPackets : Nat := 16

/-- `MAX_PORTS`. -/
def maxPorts : Nat := 64

/-- Memory, the pending packets in it, `udp_table` and the transmit ring.
`ports` are the first `port_count` entries of the table. -/
structure Net where
  phys : Phys
  nodes : Nat → Option PendingPacket
  ports : List BoundPort
  tx : Tx
  seenArp : Bool

def Net.setMem (n : Net) (mem : Nat → UInt8) : Net :=
  { n with phys := { n.phys with mem } }

def Net.kalloc (n : Net) : Option Nat × Net :=
  ((Model.kalloc n.phys).1, { n with phys := (Model.kalloc n.phys).2 })

def Net.kfree (n : Net) (pa : Nat) : Except NetPanic Net := do
  let phys ← liftPanic (Model.kfree n.phys pa)
  pure { n with phys, nodes := Function.update n.nodes pa none }

-- == bind

/-- `find_bound_port`: an index into the table. -/
def findBoundPort (ports : List BoundPort) (port : UInt16) : Option Nat :=
  ports.findIdx? (·.port == port)

/-- The conversion of an int to uint16, as for a port number argument. -/
def toU16 (x : Int) : UInt16 := UInt16.ofNat (u16 x)

/-- `sys_bind`. -/
def sysBind (n : Net) (port : Int) : Int × Net :=
  if (findBoundPort n.ports (toU16 port)).isSome then (-1, n)
  else if maxPorts ≤ n.ports.length then (-1, n)
  else
    (0, { n with
      ports := n.ports ++ [{ port := toU16 port, pendingCount := 0, head := 0, tail := 0 }] })

-- == copies to users

/-- One turn of the loop of copyout in week 6, which takes no faults. `src`
reads the source, which may be in memory. -/
def copyoutUserPage (pt : PageTable) (dstva : Nat)
    (src : (Nat → UInt8) → Nat → UInt8) (len : Nat) (_k : Nat)
    (s : Nat × (Nat → UInt8)) :
    Except Panic ((Nat × (Nat → UInt8)) ⊕ (Nat → UInt8)) :=
  let (done, mem) := s
  let dst := u64 (dstva + done)
  let va0 := pgRoundDown dst
  if maxVa ≤ va0 then .ok (.inr mem)
  else do
    match ← walk pt va0 with
    | none => pure (.inr mem)
    | some m =>
      if (pt.leaf m).any fun e => e.perm.w then
        let pa0 ← walkaddr pt va0
        if pa0 = 0 then pure (.inr mem)
        else
          let n := min (pgSize - (dst - va0)) (len - done)
          pure (.inl (done + n, memput mem (pa0 + (dst - va0)) n fun i => src mem (done + i)))
      else pure (.inr mem)

/-- `copyout`: `true` is the return value 0. -/
def copyoutUser (pt : PageTable) (mem : Nat → UInt8) (dstva : Nat)
    (src : (Nat → UInt8) → Nat → UInt8) (len : Nat) :
    Except Panic (Bool × (Nat → UInt8)) := do
  match ← forRet (copyoutUserPage pt dstva src len) (copyPages dstva len) (0, mem) with
  | .inl (_, mem) => pure (true, mem)
  | .inr mem => pure (false, mem)

/-- One turn of the loop of copyin in week 6. -/
def copyinUserPage (pt : PageTable) (dst srcva len : Nat) (_k : Nat)
    (s : Nat × (Nat → UInt8)) :
    Except Panic ((Nat × (Nat → UInt8)) ⊕ (Nat → UInt8)) := do
  let (done, mem) := s
  let src := u64 (srcva + done)
  let va0 := pgRoundDown src
  let pa0 ← walkaddr pt va0
  if pa0 = 0 then pure (.inr mem)
  else
    let n := min (pgSize - (src - va0)) (len - done)
    pure (.inl (done + n, memmove mem (dst + done) (pa0 + (src - va0)) n))

/-- `copyin`. -/
def copyinUser (pt : PageTable) (mem : Nat → UInt8) (dst srcva len : Nat) :
    Except Panic (Bool × (Nat → UInt8)) := do
  match ← forRet (copyinUserPage pt dst srcva len) (copyPages srcva len) (0, mem) with
  | .inl (_, mem) => pure (true, mem)
  | .inr mem => pure (false, mem)

-- == recv

/-- sys_recv takes the first packet `pp` off the queue of port `i`. -/
def Net.dequeue (n : Net) (i : Nat) (bp : BoundPort) (pp : PendingPacket) : Net :=
  { n with
    ports := n.ports.set i
      { bp with
        head := pp.next
        tail := if pp.next = 0 then 0 else bp.tail
        pendingCount := bp.pendingCount - 1 } }

/-- The copies of sys_recv: the value of `ret` and the memory after them. -/
def recvCopies (pt : PageTable) (mem : Nat → UInt8) (pp : PendingPacket)
    (srcArg sportArg buf : Nat) (maxlen : Int) :
    Except Panic (Int × (Nat → UInt8)) := do
  match ← copyoutUser pt mem srcArg (fun _ => bytes32 pp.srcIp) 4 with
  | (false, mem) => pure (-1, mem)
  | (true, mem) =>
    match ← copyoutUser pt mem sportArg (fun _ => bytes16 pp.srcPort) 2 with
    | (false, mem) => pure (-1, mem)
    | (true, mem) =>
      let copyLen := if maxlen < pp.len then maxlen else pp.len
      match ← copyoutUser pt mem buf (fun mem i => mem (pp.data + i)) (u64 copyLen) with
      | (false, mem) => pure (-1, mem)
      | (true, mem) => pure (copyLen, mem)

/-- `sys_recv`. `none`: it sleeps. -/
def sysRecv (n : Net) (pt : PageTable) (killed : Bool) (dport : Int)
    (srcArg sportArg buf : Nat) (maxlen : Int) :
    Except NetPanic (Option (Int × Net)) :=
  match findBoundPort n.ports (toU16 dport) with
  | none => .ok (some (-1, n))
  | some i =>
    match n.ports[i]? with
    | none => .error .undefined
    | some bp =>
      if bp.head = 0 then .ok (if killed then some (-1, n) else none)
      else
        match n.nodes bp.head with
        | none => .error .undefined
        | some pp => do
          let n := n.dequeue i bp pp
          let (ret, mem) ← liftPanic (recvCopies pt n.phys.mem pp srcArg sportArg buf maxlen)
          let n := n.setMem mem
          let n ← (if pp.data ≠ 0 then n.kfree pp.data else pure n)
          let n ← n.kfree bp.head
          pure (some (ret, n))

-- == ip_rx

/-- ip_rx puts the packet `pp` at the end of the queue of port `i`. -/
def Net.enqueue (n : Net) (i : Nat) (bp : BoundPort) (pp : Nat)
    (packet : PendingPacket) : Except NetPanic Net :=
  let nodes := Function.update n.nodes pp (some packet)
  let count := bp.pendingCount + 1
  if bp.tail = 0 then
    .ok { n with
      nodes
      ports := n.ports.set i
        { bp with head := pp, tail := pp, pendingCount := count } }
  else
    match nodes bp.tail with
    | none => .error .undefined
    | some last => .ok
        { n with
          nodes := Function.update nodes bp.tail (some { last with next := pp })
          ports := n.ports.set i { bp with tail := pp, pendingCount := count } }

/-- ip_rx with its two pages `data` and `pp`: fill them, put the packet in the
queue and free the frame. -/
def Net.queuePacket (n : Net) (buf i : Nat) (bp : BoundPort)
    (data pp payloadLen : Nat) : Except NetPanic Net :=
  if pgSize < payloadLen then .error .undefined
  else do
    let mem := memmove n.phys.mem data (buf + headersLen) payloadLen
    let n ← (n.setMem mem).enqueue i bp pp
      { data
        len := payloadLen
        srcIp := bswapl (load32 mem (buf + ethLen + 12))
        srcPort := bswaps (load16 mem (buf + ethLen + ipLen))
        next := 0 }
    n.kfree buf

/-- ip_rx from the lock of port `i` on. -/
def ipRxPort (n : Net) (buf i payloadLen : Nat) : Except NetPanic Net :=
  match n.ports[i]? with
  | none => .error .undefined
  | some bp =>
    if (maxPendingPackets : Int) ≤ bp.pendingCount then n.kfree buf
    else
      match n.kalloc with
      | (none, n) => n.kfree buf
      | (some data, n) =>
        match n.kalloc with
        | (none, n) => do
          let n ← n.kfree data
          n.kfree buf
        | (some pp, n) => n.queuePacket buf i bp data pp payloadLen

/-- `ip_rx`. Lengths are compared as unsigned 64-bit numbers. -/
def ipRx (n : Net) (buf : Nat) (len : Int) : Except NetPanic Net :=
  if u64 len < headersLen then .ok n
  else
    let ulen := (bswaps (load16 n.phys.mem (buf + ethLen + ipLen + 4))).toNat
    if ulen < udpLen ∨ u64 len < ethLen + ipLen + ulen then .ok n
    else
      let dport := bswaps (load16 n.phys.mem (buf + ethLen + ipLen + 2))
      match findBoundPort n.ports dport with
      | none => n.kfree buf
      | some i => ipRxPort n buf i (ulen - udpLen)

-- == transmit

/-- `e1000_transmit`, with its calls of kfree, which do not look at the
ring. -/
def Net.transmit (n : Net) (buf : Nat) (len : Int) : Except NetPanic (Int × Net) := do
  let res := e1000Transmit n.tx buf len
  let n ← res.kfreed.foldlM Net.kfree { n with tx := res.tx }
  pure (res.rc, n)

-- == arp_rx

/-- The ARP reply in `buf` to the request in `inbuf`. -/
def arpReply (mem : Nat → UInt8) (buf inbuf : Nat) : Nat → UInt8 :=
  let mem := memmove mem buf (inbuf + 6) 6
  let mem := memput mem (buf + 6) 6 (bytesOf localMac)
  let mem := store16 mem (buf + 12) (bswaps ethtypeArp)
  let mem := store16 mem (buf + 14) (bswaps 1)
  let mem := store16 mem (buf + 16) (bswaps ethtypeIp)
  let mem := memput mem (buf + 18) 1 fun _ => 6
  let mem := memput mem (buf + 19) 1 fun _ => 4
  let mem := store16 mem (buf + 20) (bswaps 2)
  let mem := memput mem (buf + 22) 6 (bytesOf localMac)
  let mem := store32 mem (buf + 28) (bswapl localIp)
  let mem := memmove mem (buf + 32) (inbuf + 6) 6
  memmove mem (buf + 38) (inbuf + 28) 4

/-- `arp_rx`. -/
def arpRx (n : Net) (inbuf : Nat) : Except NetPanic Net :=
  if n.seenArp then n.kfree inbuf
  else
    match { n with seenArp := true : Net }.kalloc with
    | (none, _) => .error .sendArpReply
    | (some buf, n) => do
      let n := n.setMem (arpReply n.phys.mem buf inbuf)
      let (_, n) ← n.transmit buf (ethLen + arpLen)
      n.kfree inbuf

/-- `net_rx`. -/
def netRx (n : Net) (buf : Nat) (len : Int) : Except NetPanic Net :=
  let type := bswaps (load16 n.phys.mem (buf + 12))
  if ethLen + arpLen ≤ u64 len ∧ type = ethtypeArp then arpRx n buf
  else if ethLen + ipLen ≤ u64 len ∧ type = ethtypeIp then ipRx n buf len
  else n.kfree buf

-- == send

/-- The loops of in_cksum: the sum of the 16-bit words. -/
def inCksumSum (mem : Nat → UInt8) : Nat → Nat → UInt32 → UInt32
  | _, 0, sum => sum
  | w, 1, sum => sum + (mem w).toUInt32
  | w, nleft + 2, sum => inCksumSum mem (w + 2) nleft (sum + (load16 mem w).toUInt32)

/-- `in_cksum`. -/
def inCksum (mem : Nat → UInt8) (addr len : Nat) : UInt16 :=
  let sum : UInt32 := inCksumSum mem addr len 0
  let sum : UInt32 := (sum &&& (0xffff : UInt32)) + (sum >>> 16)
  let sum : UInt32 := sum + (sum >>> 16)
  (~~~ sum).toUInt16

/-- The headers that sys_send writes into the page `buf`. -/
def sendHeaders (mem : Nat → UInt8) (buf : Nat) (sport dst dport len : Int) : Nat → UInt8 :=
  let mem := memset mem buf 0 pgSize
  let mem := memput mem buf 6 (bytesOf hostMac)
  let mem := memput mem (buf + 6) 6 (bytesOf localMac)
  let mem := store16 mem (buf + 12) (bswaps ethtypeIp)
  let mem := memput mem (buf + 14) 1 fun _ => 0x45
  let mem := memput mem (buf + 15) 1 fun _ => 0
  let mem := store16 mem (buf + 16) (bswaps (toU16 (ipLen + udpLen + len)))
  let mem := store16 mem (buf + 18) 0
  let mem := store16 mem (buf + 20) 0
  let mem := memput mem (buf + 22) 1 fun _ => 100
  let mem := memput mem (buf + 23) 1 fun _ => 17
  let mem := store32 mem (buf + 26) (bswapl localIp)
  let mem := store32 mem (buf + 30) (bswapl (UInt32.ofNat (u32 dst)))
  let mem := store16 mem (buf + 24) (inCksum mem (buf + 14) ipLen)
  let mem := store16 mem (buf + 34) (bswaps (toU16 sport))
  let mem := store16 mem (buf + 36) (bswaps (toU16 dport))
  store16 mem (buf + 38) (bswaps (toU16 (len + udpLen)))

/-- sys_send up to the call of e1000_transmit: the frame and its length,
`none` where it returns -1. -/
def sysSendFrame (n : Net) (pt : PageTable) (sport dst dport : Int)
    (bufaddr : Nat) (len : Int) : Except NetPanic (Option (Nat × Int) × Net) :=
  let total := i32 (u64 len + headersLen)
  if pgSize < total then .ok (none, n)
  else
    match n.kalloc with
    | (none, n) => .ok (none, n)
    | (some buf, n) => do
      let mem := sendHeaders n.phys.mem buf sport dst dport len
      match ← liftPanic (copyinUser pt mem (buf + headersLen) bufaddr (u64 len)) with
      | (false, mem) => do
        let n ← (n.setMem mem).kfree buf
        pure (none, n)
      | (true, mem) => pure (some (buf, total), n.setMem mem)

/-- `sys_send`. The result of e1000_transmit is not looked at. -/
def sysSend (n : Net) (pt : PageTable) (sport dst dport : Int)
    (bufaddr : Nat) (len : Int) : Except NetPanic (Int × Net) := do
  match ← sysSendFrame n pt sport dst dport bufaddr len with
  | (none, n) => pure (-1, n)
  | (some (buf, total), n) => do
    let (_, n) ← n.transmit buf total
    pure (0, n)

end Xv6Labs.Model
