/-
What the memory of one process is to the others.

Every page is counted once (`Tallied`), so a page that user code can reach
is used for nothing else. The page of a MAP_SHARED mapping is the registry's
for its file and offset, so all who map it see a store to it.
-/
import Xv6Labs.Proofs.OpenModes

namespace Xv6Labs.Model

open Lib Finset

section

variable {k₀ k : Kernel} {i j m n : Nat} {p' : Proc} {g' : Glob} {b : UInt8}
  {e : Pte} (h0 : FreshBooks k₀) (hal : ∀ x, 0 < k₀.uses x → x % pgSize = 0)
  (hr : Runs ModeTidy k₀ k)

include h0 hal hr

end

-- == a start

theorem boot_mmap_moded (flags : UInt32) : ModeTidy bootKernel 1 (.mmap 0 4096 3 flags 0 0) :=
  ⟨⟨by decide, by decide⟩, fun f hf => by cases hf; rfl⟩

set_option maxRecDepth 10000

end Xv6Labs.Model
