/-
The kernel as a transition system: one step is one system call, page
fault or store of one process, run to its end.

`step` dispatches to the modelled functions; the arguments have the
widths of the C types the code reads them into. A call that panics has no
next state. `Runs C` are the runs whose every step meets the condition
`C`, a predicate on the state before the step, the process and the call.
-/
import Xv6Labs.Model.Exec

namespace Xv6Labs.Model

open Lib

/-- What a process can do. -/
inductive Op where
  | mmap (addr : UInt64) (len : Int32) (prot flags : UInt32) (fd : Int32) (offset : UInt64)
  | munmap (addr : UInt64) (len : Int32)
  | fault (va : UInt64) (read : Bool)
  | store (va : UInt64) (b : UInt8)
  | sbrk (n : Int32) (eager : Bool)
  | fork
  | exec (path : List UInt8) (argv : List (List UInt8))
  | exit (status : Int32)
  | wait (addr : UInt64)
  | openFile (path : Option (List UInt8)) (omode : UInt32) (room : Nat)
  | close (fd : Int32)
  | dup (fd : Int32)
  | pipe (fdarray : UInt64)
  | unlink (path : Option (List UInt8))

/-- Is the process one that can make a call? -/
def Proc.isLive (p : Proc) : Bool :=
  match p.state with
  | .unused => false
  | .used => false
  | .zombie => false
  | _ => true

/-- A call of process `i` that touches only itself and the shared state. -/
def Kernel.local {α : Type} (k : Kernel) (i : Nat)
    (f : Proc → Glob → Except Panic (α × Proc × Glob)) :
    Except Panic Kernel := do
  let (_, s) ← f (k.proc i) k.glob
  pure (k.put i s)

/-- One call of process `i`. -/
def step (k : Kernel) (i : Nat) : Op → Except Panic Kernel
  | .mmap addr len prot flags fd offset =>
    k.local i fun p g =>
      sysMmap p g addr.toNat len.toInt prot flags fd.toInt offset.toNat
  | .munmap addr len =>
    k.local i fun p g => sysMunmap p g addr.toNat len.toInt
  | .fault va read => k.local i fun p g => vmfault p g va.toNat read
  | .store va b => k.local i fun p g => userStore p g va.toNat b
  | .sbrk n eager => k.local i fun p g => sysSbrk p g n.toInt eager
  | .fork => do
    let (_, k) ← kfork k i
    pure k
  | .exec path argv => k.local i fun p g => kexec p g path argv
  | .exit status => kexit k i status.toInt
  | .wait addr => do
    let (_, k) ← kwait k i addr.toNat
    pure k
  | .openFile path omode room =>
    k.local i fun p g => sysOpen p g path omode room
  | .close fd => k.local i fun p g => sysClose p g fd.toInt
  | .dup fd => k.local i fun p g => sysDup p g fd.toInt
  | .pipe fdarray => k.local i fun p g => sysPipe p g fdarray.toNat
  | .unlink path => k.local i fun p g => sysUnlink p g path

/-- One step that meets the condition `C`. -/
def StepIf (C : Kernel → Nat → Op → Prop) (k k' : Kernel) : Prop :=
  ∃ i op, i < nproc ∧ (k.proc i).isLive = true ∧ C k i op ∧ step k i op = .ok k'

/-- The runs whose steps all meet the condition `C`. -/
def Runs (C : Kernel → Nat → Op → Prop) : Kernel → Kernel → Prop := Relation.ReflTransGen (StepIf C)

/-- A run goes on with one more step. -/
theorem Runs.step {C : Kernel → Nat → Op → Prop} {k0 k k' : Kernel}
    (hr : Runs C k0 k) (i : Nat) (op : Op) (hi : i < nproc)
    (hl : (k.proc i).isLive = true) (hc : C k i op)
    (hs : Model.step k i op = .ok k') : Runs C k0 k' :=
  Relation.ReflTransGen.tail hr ⟨i, op, hi, hl, hc, hs⟩

/-- The invariant rule for runs: what every step that meets `C` carries
along holds wherever a run gets. -/
theorem Runs.inv {C : Kernel → Nat → Op → Prop} {k0 k : Kernel}
    (P : Kernel → Prop) (hr : Runs C k0 k) (h0 : P k0)
    (hstep : ∀ k k' i op, i < nproc → (k.proc i).isLive = true →
      C k i op → P k → Model.step k i op = .ok k' → P k') : P k := by
  induction hr with
  | refl => exact h0
  | tail _ hs ih =>
    obtain ⟨i, op, hi, hl, hc, hok⟩ := hs
    exact hstep _ _ i op hi hl hc ih hok

end Xv6Labs.Model
