/-
The network card driver of week 6, e1000.c, and the card.

# Driver

`e1000Transmit` runs under `e1000_lock` and is one step. `e1000_recv` takes
no lock against the card, which goes on storing packets while its loop runs;
it is cut into turns (`recvTurn`), and where it stands is in `Rx.pc`.

# Card

The card works on the descriptors from its head register to its tail
register. It sends a frame, sets DD and advances TDH, in three steps; it
stores a packet into descriptor RDH as long as RDH is not RDT.

# What is left out

The descriptor fields that neither side reads (checksums, special, errors)
and the registers that only e1000_init writes.
-/
import Xv6Labs.Model.Machine

namespace Xv6Labs.Model

-- == transmit

/-- `TX_RING_SIZE`. -/
def txRingSize : Nat := 16

/-- `E1000_TXD_STAT_DD`. -/
def txdStatDD : UInt8 := 0x01

/-- `E1000_TXD_CMD_EOP | E1000_TXD_CMD_RS`. -/
def txdCmd : UInt8 := 0x01 ||| 0x08

/-- `struct tx_desc`. -/
structure TxDesc where
  addr : Nat
  length : Nat
  cmd : UInt8
  status : UInt8
deriving DecidableEq, Repr

/-- The descriptor is done with. -/
def TxDesc.dd (d : TxDesc) : Bool := d.status &&& txdStatDD != 0

/-- The transmit ring, `tx_bufs` and the registers TDH and TDT. -/
structure Tx where
  ring : Nat → TxDesc
  bufs : Nat → Nat
  tdh : Nat
  tdt : Nat

/-- The transmit half of `e1000_init`. -/
def e1000InitTx : Tx where
  ring _ := { addr := 0, length := 0, cmd := 0, status := txdStatDD }
  bufs _ := 0
  tdh := 0
  tdt := 0

/-- What a call of e1000_transmit did: its result, its calls of kfree, and
the ring after it. -/
structure TxResult where
  rc : Int
  kfreed : List Nat
  tx : Tx

/-- The descriptor length is of 16 bits. -/
def u16 (n : Int) : Nat := (n % 2 ^ 16).toNat

/-- `e1000_transmit`. -/
def e1000Transmit (t : Tx) (buf : Nat) (len : Int) : TxResult :=
  let idx := t.tdt
  if !(t.ring idx).dd || !(t.tdh != (idx + 1) % txRingSize) then
    ⟨-1, [buf], t⟩
  else
    { rc := 0
      kfreed := if t.bufs idx ≠ 0 then [t.bufs idx] else []
      tx :=
        { t with
          ring := Function.update t.ring idx
            { addr := buf, length := u16 len, cmd := txdCmd, status := 0 }
          bufs := Function.update t.bufs idx buf
          tdt := (idx + 1) % txRingSize } }

/-- What the card has done with descriptor TDH. -/
inductive TxStage where
  | fetch
  | sent
  | written
deriving DecidableEq, Repr

/-- What the card sends for a descriptor: address and length. -/
def TxDesc.frame (d : TxDesc) : Nat × Nat := (d.addr, d.length)

/-- The card sets DD in descriptor TDH. -/
def Tx.done (t : Tx) : Tx :=
  { t with
    ring := Function.update t.ring t.tdh
      { t.ring t.tdh with status := (t.ring t.tdh).status ||| txdStatDD } }

/-- The card goes on to the next descriptor. -/
def Tx.advance (t : Tx) : Tx := { t with tdh := (t.tdh + 1) % txRingSize }

-- == receive

/-- `RX_RING_SIZE`. -/
def rxRingSize : Nat := 16

/-- `E1000_RXD_STAT_DD`. -/
def rxdStatDD : UInt8 := 0x01

/-- `struct rx_desc`. -/
structure RxDesc where
  addr : Nat
  length : Nat
  status : UInt8
deriving DecidableEq, Repr

def RxDesc.dd (d : RxDesc) : Bool := d.status &&& rxdStatDD != 0

/-- The receive ring, `rx_bufs`, the registers RDH and RDT, and where
e1000_recv is: its `rx_ring_idx_base` and `rx_ring_idx`. -/
structure Rx where
  ring : Nat → RxDesc
  bufs : Nat → Nat
  rdh : Nat
  rdt : Nat
  pc : Option (Nat × Nat)

/-- The receive half of `e1000_init`, with the pages that kalloc gave. -/
def e1000InitRx (pages : Nat → Nat) : Rx where
  ring i := { addr := pages i, length := 0, status := 0 }
  bufs := pages
  rdh := 0
  rdt := rxRingSize - 1
  pc := none

/-- e1000_recv up to its loop. -/
def Rx.enter (t : Rx) : Rx :=
  { t with pc := some (t.rdt, (t.rdt + 1) % rxRingSize) }

/-- e1000_recv after its loop; `idx - 1` wraps at 2^32. -/
def Rx.leave (t : Rx) (idx : Nat) : Rx :=
  { t with rdt := u32 ((idx : Int) - 1) % rxRingSize, pc := none }

/-- One turn of the loop of `e1000_recv`, and its call of net_rx. `page` is
what kalloc returns in this turn, 0 if it fails. -/
def recvTurn (t : Rx) (base idx page : Nat) : Rx × Option (Nat × Nat) :=
  if idx ≠ base then
    if !(t.ring idx).dd then (t.leave idx, none)
    else
      let call := (t.bufs idx, (t.ring idx).length)
      let t := { t with bufs := Function.update t.bufs idx page }
      if page = 0 then ({ t with pc := none }, some call)
      else
        ({ t with
            ring := Function.update t.ring idx
              { t.ring idx with status := 0, addr := page }
            pc := some (base, (idx + 1) % rxRingSize) }, some call)
  else (t.leave idx, none)

/-- The card stores a packet of `len` bytes, if it has a descriptor. -/
def Rx.arrive (t : Rx) (len : Nat) : Option Rx :=
  if t.rdh ≠ t.rdt then
    some { t with
      ring := Function.update t.ring t.rdh
        { t.ring t.rdh with
          length := len, status := (t.ring t.rdh).status ||| rxdStatDD }
      rdh := (t.rdh + 1) % rxRingSize }
  else none

end Xv6Labs.Model
