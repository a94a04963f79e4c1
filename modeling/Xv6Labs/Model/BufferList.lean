/-
The list of the buffers (bio.c), pointer by pointer.

A pointer to a buffer is its index, and `head` is the one after the last.
The steps are the regions under `bcache.lock`; the locks of the buffers
decide who may make a call, and play no part in it. bread's store to
`valid` comes between them.
-/
import Xv6Labs.Model.Bio

namespace Xv6Labs.Model.BufferList

open Bio (nbuf)

/-- `&bcache.head`. -/
def head : Nat := nbuf

/-- `bcache`. -/
structure Cache where
  next : Nat → Nat
  prev : Nat → Nat
  dev : Nat → UInt32
  blockno : Nat → UInt32
  valid : Nat → Bool
  refcnt : Nat → UInt32

namespace Cache

def setNext (c : Cache) (b x : Nat) : Cache :=
  { c with next := Function.update c.next b x }

def setPrev (c : Cache) (b x : Nat) : Cache :=
  { c with prev := Function.update c.prev b x }

def setRefcnt (c : Cache) (b : Nat) (n : UInt32) : Cache :=
  { c with refcnt := Function.update c.refcnt b n }

/-- The stores of binit and brelse that put `b` behind the head. -/
def pushFront (c : Cache) (b : Nat) : Cache :=
  let c := c.setNext b (c.next head)
  let c := c.setPrev b head
  let c := c.setPrev (c.next head) b
  c.setNext head b

/-- brelse's stores that take `b` out. -/
def unlink (c : Cache) (b : Nat) : Cache :=
  let c := c.setPrev (c.next b) (c.prev b)
  c.setNext (c.prev b) (c.next b)

/-- The memory of `bcache`, with the head alone in the list. -/
def empty : Cache where
  next _ := head
  prev _ := head
  dev _ := 0
  blockno _ := 0
  valid _ := false
  refcnt _ := 0

/-- `binit`. -/
def binit : Cache := (List.range nbuf).foldl pushFront empty

/-- The loops of bget, from `b` on: the first buffer that passes, `none` at
the head. -/
def find (step : Nat → Nat) (test : Nat → Bool) : Nat → Nat → Option Nat
  | 0, _ => none
  | n + 1, b =>
    if b = head then none
    else if test b then some b
    else find step test n (step b)

/-- The block is cached. -/
def hit (c : Cache) (dev blockno : UInt32) : Option Nat :=
  find c.next (fun b => c.dev b = dev && c.blockno b = blockno) (nbuf + 1) (c.next head)

/-- bget's stores into a buffer that it takes for another block. -/
def recycle (c : Cache) (b : Nat) (dev blockno : UInt32) : Cache :=
  { c.setRefcnt b 1 with
    dev := Function.update c.dev b dev
    blockno := Function.update c.blockno b blockno
    valid := Function.update c.valid b false }

/-- `bget`: `none` is "bget: no buffers". -/
def bget (c : Cache) (dev blockno : UInt32) : Option (Nat × Cache) :=
  match c.hit dev blockno with
  | some b => some (b, c.setRefcnt b (c.refcnt b + 1))
  | none =>
    match find c.prev (fun b => c.refcnt b = 0) (nbuf + 1) (c.prev head) with
    | some b => some (b, c.recycle b dev blockno)
    | none => none

/-- `brelse`. -/
def brelse (c : Cache) (b : Nat) : Cache :=
  let c := c.setRefcnt b (c.refcnt b - 1)
  if c.refcnt b = 0 then (c.unlink b).pushFront b else c

/-- `bpin`. -/
def bpin (c : Cache) (b : Nat) : Cache := c.setRefcnt b (c.refcnt b + 1)

/-- `bunpin`. -/
def bunpin (c : Cache) (b : Nat) : Cache := c.setRefcnt b (c.refcnt b - 1)

inductive Op where
  | bget (dev blockno : UInt32)
  | fill (b : Fin nbuf)
  | brelse (b : Fin nbuf)
  | bpin (b : Fin nbuf)
  | bunpin (b : Fin nbuf)
deriving DecidableEq, Repr

/-- One call; `none` is a panic. -/
def step (c : Cache) : Op → Option Cache
  | .bget dev blockno => (c.bget dev blockno).map Prod.snd
  | .fill b => some { c with valid := Function.update c.valid b true }
  | .brelse b => some (c.brelse b)
  | .bpin b => some (c.bpin b)
  | .bunpin b => some (c.bunpin b)

end Cache

end Xv6Labs.Model.BufferList
