/-
What piperead loses: a call that stops at an address it cannot write has
dropped the byte for it (`pipereadCopy_spec`).
-/
import Xv6Labs.Proofs.PipeRuns

namespace Xv6Labs.Model

open Lib

variable {pi pi' : PipeBuf} {u u' : UserBytes} {addr : Nat}

/-- The first `r` bytes at `addr`. -/
def UserBytes.stored (u : UserBytes) (addr : Nat) (r : Int) : List UInt8 :=
  (List.range r.toNat).map fun j : Nat => u.byte (u64 (addr + j))

theorem PipeBuf.length_bytes (pi : PipeBuf) : pi.bytes.length < 2 ^ 32 := by
  simp only [PipeBuf.bytes, between, ring, List.length_map, List.length_range]
  exact (pi.nwrite - pi.nread).isLt

theorem u64_add_ne {i j : Nat} (hij : i < j) (hj : j < i + 2 ^ 32) :
    u64 (addr + i) ≠ u64 (addr + j) := by
  unfold u64
  omega

/-- The bytes `bs` go from the front of the pipe to the user, and then the
turns or the bytes are used up, or one more byte is dropped. -/
theorem pipereadCopy_spec {k i r : Nat} (h : pipereadCopy addr k i pi u = (r, pi', u')) :
    ∃ bs : List UInt8, r = i + bs.length
      ∧ (∀ m (hm : m < bs.length), u.writable (u64 (addr + ↑(i + m)))
        ∧ u'.byte (u64 (addr + ↑(i + m))) = bs[m])
      ∧ (∀ a, (∀ m < bs.length, a ≠ u64 (addr + ↑(i + m))) → u'.byte a = u.byte a)
      ∧ ((pi.bytes = bs ++ pi'.bytes ∧ (bs.length = k ∨ pi'.bytes = []))
        ∨ ∃ ch, pi.bytes = bs ++ ch :: pi'.bytes ∧ bs.length < k
          ∧ u.writable (u64 (addr + ↑(i + bs.length))) = false) := by
  induction k generalizing i pi u with
  | zero =>
    cases h
    exact ⟨[], rfl, nofun, fun _ _ => rfl, .inl ⟨rfl, .inl rfl⟩⟩
  | succ k ih =>
    rw [pipereadCopy] at h
    split at h
    · next hempty =>
      cases h
      have hnil : pi'.bytes = [] := by
        rw [PipeBuf.bytes, hempty, between_self]
      exact ⟨[], rfl, nofun, fun _ _ => rfl, .inl ⟨rfl, .inr hnil⟩⟩
    · next hne =>
      have hget := PipeBuf.bytes_get hne
      dsimp only [UserBytes.copyout] at h
      cases hw : u.writable (u64 (addr + i)) with
      | false =>
        rw [hw] at h
        cases h
        exact ⟨[], rfl, nofun, fun _ _ => rfl, .inr ⟨_, hget, Nat.succ_pos k, hw⟩⟩
      | true =>
        rw [hw] at h
        obtain ⟨bs, rfl, hcopied, hframe, hend⟩ := ih h
        have hshort : bs.length < 2 ^ 32 := by
          have hlen := PipeBuf.length_bytes pi.get.2
          rcases hend with ⟨he, _⟩ | ⟨ch, he, _⟩
          all_goals
            rw [he, List.length_append] at hlen
            omega
        have hshift : ∀ m, i + 1 + m = i + (m + 1) := fun m => by omega
        refine ⟨pi.get.1 :: bs, by simp; omega, fun m hm => ?_, fun a ha => ?_, ?_⟩
        · cases m with
          | zero =>
            refine ⟨hw, ?_⟩
            rw [hframe _ fun m hm => u64_add_ne (by omega) (by omega)]
            exact Function.update_self ..
          | succ m =>
            have hm' := hcopied m (by simpa using hm)
            rw [hshift] at hm'
            exact hm'
        · rw [hframe a fun m hm => ?_]
          · exact Function.update_of_ne (ha 0 (by simp)) ..
          · rw [hshift]
            exact ha (m + 1) (by simpa using hm)
        rcases hend with ⟨he, hstop⟩ | ⟨ch, he, hlt, hbad⟩
        · refine .inl ⟨by rw [hget, he]; rfl, ?_⟩
          exact hstop.imp_left fun hk => congrArg (· + 1) hk
        · refine .inr ⟨ch, by rw [hget, he]; rfl, by simpa using hlt, ?_⟩
          rw [hshift] at hbad
          exact hbad

/-- No byte is lost exactly if every byte that the call gets to can be
stored. -/
theorem piperead_keeps_bytes_iff {killed : Bool} {n r : Int}
    (h : piperead pi killed u addr n = some (r, pi', u')) :
    u'.stored addr r ++ pi'.bytes = pi.bytes ↔
      ∀ j : Nat, j < n → j < pi.bytes.length →
        u.writable (u64 (addr + j)) = true := by
  unfold piperead pipereadWait at h
  split_ifs at h with hwait hkilled
  · cases h
    have hnil : pi.bytes = [] := by
      rw [PipeBuf.bytes, hwait.1, between_self]
    rw [hnil]
    exact iff_of_true rfl nofun
  generalize hc : pipereadCopy addr n.toNat 0 pi u = t at h
  obtain ⟨i, pi₁, u₁⟩ := t
  cases h
  obtain ⟨bs, rfl, hcopied, _, hend⟩ := pipereadCopy_spec hc
  simp only [Nat.zero_add] at *
  have hstored : u'.stored addr (bs.length : Int) = bs := by
    refine List.ext_getElem (by simp [UserBytes.stored]) fun m _ hm => ?_
    simp only [UserBytes.stored, List.getElem_map, List.getElem_range]
    exact (hcopied m hm).2
  rw [hstored]
  rcases hend with ⟨he, hstop⟩ | ⟨ch, he, hlt, hbad⟩
  · refine iff_of_true he.symm fun j hj hlen => (hcopied j ?_).1
    rcases hstop with hk | hnil
    · omega
    · rw [he, hnil, List.append_nil] at hlen
      exact hlen
  · refine iff_of_false (fun heq => ?_) fun hall => ?_
    · have hlen := congrArg List.length (heq.trans he)
      simp at hlen
    · rw [hall bs.length (by omega) (by rw [he]; simp)] at hbad
      cases hbad

/-- Two of three bytes are read, and the third stays. -/
theorem piperead_keeps_bytes_two :
    ∃ pi' u', piperead ((((PipeBuf.alloc fun _ => 0).put 7).put 8).put 9) false
        ⟨fun _ => 0, fun _ => true⟩ 0 2 = some (2, pi', u')
      ∧ pi'.bytes = [9] ∧ u'.stored 0 2 ++ pi'.bytes
        = ((((PipeBuf.alloc fun _ => 0).put 7).put 8).put 9).bytes := by
  have hread : piperead ((((PipeBuf.alloc fun _ => 0).put 7).put 8).put 9)
      false ⟨fun _ => 0, fun _ => true⟩ 0 2 = some (2, _, _) := rfl
  exact ⟨_, _, hread, rfl,
    (piperead_keeps_bytes_iff hread).mpr fun _ _ _ => rfl⟩

/-- The byte is neither stored nor in the pipe. -/
theorem piperead_drops_byte :
    ∃ pi', piperead ((PipeBuf.alloc fun _ => 0).put 7) false
        ⟨fun _ => 0, fun _ => false⟩ 0 1
          = some (0, pi', ⟨fun _ => 0, fun _ => false⟩)
      ∧ ((PipeBuf.alloc fun _ => 0).put 7).bytes = [7] ∧ pi'.bytes = [] :=
  ⟨_, rfl, rfl, rfl⟩

end Xv6Labs.Model
