/-
Which panics the small functions can end in, for any list of panics `bad`.
-/
import Xv6Labs.Model.Mmap
import Xv6Labs.Proofs.Entries

namespace Xv6Labs.Model

open Lib

variable {bad : List Panic}
variable {pt : PageTable} {va : Nat} {ph : Phys} {g : Glob}

theorem walk_avoids (h : .walk ∈ bad → va < maxVa) : Avoids bad (walk pt va) := by
  unfold walk
  split
  · next hge => exact .error fun hin => absurd (h hin) (Nat.not_lt.mpr hge)
  · split <;> exact .ok _

theorem walkValid_avoids (h : .walk ∈ bad → va < maxVa) : Avoids bad (walkValid pt va) := by
  refine (walk_avoids h).bind fun o _ => ?_
  cases o <;> exact .ok _

theorem kfree_avoids {pa : Nat} (h : .kfree ∉ bad) : Avoids bad (kfree ph pa) := by
  unfold kfree
  split
  · exact .ok _
  · exact .error h

theorem uvmunmap_avoids {n : Nat}
    {doFree : Bool} (hk : .kfree ∉ bad) (hu : .uvmunmap ∉ bad)
    (h : .walk ∈ bad → va + n * pgSize ≤ maxVa) : Avoids bad (uvmunmap pt ph va n doFree) := by
  unfold uvmunmap
  split
  · exact .error hu
  refine .forUpto (fun _ _ => True) trivial (fun k hlt t _ => ?_) (fun _ _ _ _ _ _ => trivial)
  refine (walk_avoids fun hin => ?_).bind fun o _ => ?_
  · have hmax := h hin
    have hmod : u64 ((va : Int) + n * pgSize) ≤ va + n * pgSize := by
      rw [u64_of_lt (n := va + n * pgSize) (by omega) (by unfold maxVa at hmax; omega)]
    rw [lt_pagesBelow] at hlt
    unfold pgSize at *
    omega
  · cases o with
    | none => exact .ok _
    | some m =>
      dsimp only
      split
      · exact .ok _
      · split
        · exact (kfree_avoids hk).bind fun _ _ => .ok _
        · exact .ok _

theorem sharedDecref_avoids {ip : Option Nat} {off : Nat}
    (h : .kfree ∉ bad) : Avoids bad (g.sharedDecref ip off) := by
  refine .bind ?_ fun _ _ => .ok _
  unfold sharedDecref
  split
  · exact .ok _
  · split
    · exact (kfree_avoids h).bind fun _ _ =>
        (kfree_avoids h).bind fun _ _ => .ok _
    · exact .ok _

theorem ilock_avoids {ip : Nat} (h : .ilock ∉ bad)
    (ht : .ilockType ∉ bad) : Avoids bad (ilock g ip) := by
  unfold ilock
  dsimp only
  split
  · exact .error h
  split
  · exact .ok _
  · split
    · exact .error ht
    · exact .ok _

end Xv6Labs.Model
