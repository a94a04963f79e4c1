/-
The registry of MAP_SHARED pages (vm.c, "Shared Page Registry").

One entry per `(inode, file offset)` that is mapped somewhere, in a table
of hash chains. The code's pointer to an entry is the entry itself here:
its holder reads only `pa`, which never changes while the entry lives.
-/
import Xv6Labs.Model.State

namespace Xv6Labs.Model

/-- `shared_hash`. -/
def SharedTab.hash (t : SharedTab) (ip : Option Nat) (off : Nat) : Nat :=
  (t.addr ip ^^^ off) % shash

/-- Is this the entry of the key? -/
def SharedEntry.isFor (e : SharedEntry) (ip : Option Nat) (off : Nat) : Bool :=
  decide (e.ip = ip ∧ e.off = off)

/-- `shared_lookup`. -/
def SharedTab.lookup (t : SharedTab) (ip : Option Nat) (off : Nat) : Option SharedEntry :=
  (t.buckets (t.hash ip off)).find? fun e => e.isFor ip off

/-- Replace one bucket chain. -/
def SharedTab.setBucket (t : SharedTab) (h : Nat) (c : List SharedEntry) : SharedTab :=
  { t with buckets := fun i => if i = h then c else t.buckets i }

/-- Apply `f` to the first entry of the key in a chain. -/
def updFirst (ip : Option Nat) (off : Nat) (f : SharedEntry → SharedEntry) :
    List SharedEntry → List SharedEntry
  | [] => []
  | e :: es => if e.isFor ip off then f e :: es else e :: updFirst ip off f es

/-- `e->refcnt++` on the entry that a lookup found. -/
def SharedTab.incref (t : SharedTab) (ip : Option Nat) (off : Nat) : SharedTab :=
  t.setBucket (t.hash ip off)
    (updFirst ip off (fun e => { e with refcnt := e.refcnt + 1 }) (t.buckets (t.hash ip off)))

/-- `shared_get_or_create`: the entry of the key with one more reference,
or a new entry for `pa`; `none` when the new entry finds no page. -/
def sharedGetOrCreate (t : SharedTab) (ph : Phys) (ip : Option Nat)
    (off pa : Nat) : Option SharedEntry × SharedTab × Phys :=
  match t.lookup ip off with
  | some e => (some { e with refcnt := e.refcnt + 1 }, t.incref ip off, ph)
  | none =>
    match kalloc ph with
    | (none, ph) => (none, t, ph)
    | (some self, ph) =>
      let e : SharedEntry := { ip, off, pa, refcnt := 1, self }
      let h := t.hash ip off
      (some e, t.setBucket h (e :: t.buckets h), ph)

/-- `shared_decref`: an entry whose last reference goes is unlinked, and
its page and its own storage are freed. -/
def sharedDecref (t : SharedTab) (ph : Phys) (ip : Option Nat) (off : Nat) :
    Except Panic (SharedTab × Phys) :=
  let h := t.hash ip off
  match t.lookup ip off with
  | none => .ok (t, ph)
  | some e =>
    if e.refcnt - 1 = 0 then do
      let ph ← kfree ph e.pa
      let ph ← kfree ph e.self
      pure (t.setBucket h ((t.buckets h).eraseP fun e => e.isFor ip off), ph)
    else
      .ok (t.setBucket h
        (updFirst ip off (fun e => { e with refcnt := e.refcnt - 1 }) (t.buckets h)), ph)

/-- `shared_decref` on the shared state. -/
def Glob.sharedDecref (g : Glob) (ip : Option Nat) (off : Nat) : Except Panic Glob := do
  let (t, ph) ← Model.sharedDecref g.shared g.phys ip off
  pure { g with shared := t, phys := ph }

end Xv6Labs.Model
