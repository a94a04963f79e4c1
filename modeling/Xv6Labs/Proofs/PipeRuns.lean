/-
Pipes deliver the bytes they accept, in order.

What was delivered, followed by what is in the ring between the counters
(`between`), is what was accepted, also after the counters have wrapped.
Only the call that has the lock takes turns.
-/
import Xv6Labs.Lib.Overlay
import Xv6Labs.Lib.Ring
import Xv6Labs.Model.Pipe

namespace Xv6Labs.Model

open Lib

-- == the ring

/-- The bytes in the pipe. -/
def PipeBuf.bytes (pi : PipeBuf) : List UInt8 := between pipeSize pi.data pi.nread pi.nwrite

/-- The number of bytes in the pipe. -/
def PipeBuf.count (pi : PipeBuf) : Nat := (pi.nwrite - pi.nread).toNat

section

variable {pi : PipeBuf}

theorem pipeSize_dvd : pipeSize ∣ 2 ^ 32 := by decide

/-- pipewrite's test for a full pipe. -/
theorem PipeBuf.full_iff : pi.nwrite = pi.nread + pipeSize ↔ pi.count = pipeSize := by
  unfold PipeBuf.count
  constructor
  · intro h
    rw [h, BitVec.add_comm, BitVec.add_sub_cancel]
    rfl
  · intro h
    have hgap : pi.nwrite - pi.nread = (pipeSize : BitVec 32) := BitVec.eq_of_toNat_eq h
    rw [← hgap, BitVec.add_comm, BitVec.sub_add_cancel]

theorem PipeBuf.count_lt (h : pi.count < pipeSize) : (pi.nwrite - pi.nread).toNat + 1 < 2 ^ 32 := by
  unfold PipeBuf.count pipeSize at h
  omega

theorem PipeBuf.count_put (h : pi.count < pipeSize) (ch : UInt8) :
    (pi.put ch).count = pi.count + 1 :=
  gap_push (PipeBuf.count_lt h)

theorem PipeBuf.bytes_put (h : pi.count < pipeSize) (ch : UInt8) :
    (pi.put ch).bytes = pi.bytes ++ [ch] :=
  between_push pipeSize_dvd h (PipeBuf.count_lt h)

theorem PipeBuf.count_get (h : pi.nread ≠ pi.nwrite) : pi.get.2.count = pi.count - 1 := by
  refine gap_pop (Nat.pos_of_ne_zero fun h0 => h (gap_eq_zero.mp h0))

theorem PipeBuf.bytes_get (h : pi.nread ≠ pi.nwrite) : pi.bytes = pi.get.1 :: pi.get.2.bytes :=
  between_pop pipeSize_dvd h

end

-- == the ledger

/-- The bytes accepted are the bytes delivered and those in the pipe. -/
structure PipeRun.Fifo (s : PipeRun) : Prop where
  room : s.pipe.count ≤ pipeSize
  order : s.accepted = s.delivered ++ s.pipe.bytes

/-- Only the call with the lock is past acquire; in its second loop a first
turn of piperead finds a byte, or the write end closed. -/
structure PipeRun.Held (s : PipeRun) : Prop where
  holder : ∀ p, (s.calls p).inLock = true → s.lock = some p
  reading : ∀ p n i, s.calls p = .read n i → 0 ≤ i ∧
    (i = 0 → s.pipe.nread ≠ s.pipe.nwrite ∨ s.pipe.writeopen = false)

section

variable {s s' : PipeRun} {p : Nat} {c : PipeCall}

@[simp] theorem PipeCall.wake_inLock (chan : PipeChan) (c : PipeCall) :
    (c.wake chan).inLock = c.inLock := by
  cases c <;> simp only [PipeCall.wake]
  all_goals split <;> rfl

theorem PipeCall.rouse_of_inLock (h : c.rouse.inLock = true) : c.rouse = c := by
  cases c <;> first | rfl | cases h

/-- Only the calls in the lock matter. -/
theorem PipeRun.Held.congr (h : s.Held)
    (hcalls : ∀ q, (s'.calls q).inLock = true → s'.calls q = s.calls q)
    (hlock : s'.lock = s.lock) (hpipe : s'.pipe = s.pipe) : s'.Held where
  holder q hq := by
    rw [hlock]
    exact h.holder q (hcalls q hq ▸ hq)
  reading q n i hq := by
    rw [hpipe]
    have hin : (s'.calls q).inLock = true := congrArg PipeCall.inLock hq
    exact h.reading q n i ((hcalls q hin).symm.trans hq)

/-- A call that is not in the lock moves, or stays where it is. -/
theorem PipeRun.Held.goto (h : s.Held)
    (hc : c.inLock = true → c = s.calls p) : (s.goto p c).Held := by
  refine h.congr (fun q hq => ?_) rfl rfl
  by_cases heq : q = p
  · subst heq
    simp only [PipeRun.goto, Function.update_self] at hq ⊢
    exact hc hq
  · simp only [PipeRun.goto, Function.update_of_ne heq]

/-- With the lock free nobody is in it. -/
theorem PipeRun.Held.free (h : s.Held) (hlock : s.lock = none) (q : Nat) :
    (s.calls q).inLock = false := by
  refine Bool.eq_false_iff.mpr fun hq => ?_
  have hsome := h.holder q hq
  rw [hlock] at hsome
  cases hsome

/-- Nobody is in the lock. -/
theorem PipeRun.held_of_free (h : ∀ q, (s.calls q).inLock = false) : s.Held where
  holder q hq := absurd hq (by simp [h q])
  reading q n i hq := by
    have hin := h q
    rw [hq] at hin
    cases hin

theorem PipeRun.held_after {σ : Type} {on off : σ → PipeCall} {t : PipeTurn σ}
    (hby : ∀ q, (s.calls q).inLock = true → q = p) (hp : s.lock = some p)
    (hon : ∀ a, t = .next a → ∀ n i, on a = .read n i → 0 ≤ i ∧
      (i = 0 → s.pipe.nread ≠ s.pipe.nwrite ∨ s.pipe.writeopen = false))
    (hoff : ∀ a chan wake, t = .sleep a chan wake → (off a).inLock = false) :
    (s.after p on off t).Held := by
  -- after a sleep or a return nobody is in the lock
  have hfree : ∀ wake c, c.inLock = false → (((s.wakeup wake).goto p c).release).Held := by
    intro wake c hc
    refine held_of_free fun q => ?_
    by_cases heq : q = p
    · subst heq
      simpa [PipeRun.goto, PipeRun.release] using hc
    · have hq : (s.calls q).inLock = false := Bool.eq_false_iff.mpr fun hin => heq (hby q hin)
      cases wake <;> simp [PipeRun.goto, PipeRun.release, PipeRun.wakeup, heq, hq]
  cases t with
  | next a =>
    refine ⟨fun q hq => ?_, fun q n i hq => ?_⟩
    · by_cases heq : q = p
      · exact heq ▸ hp
      · simp only [PipeRun.after, PipeRun.goto, Function.update_of_ne heq] at hq
        exact absurd (hby q hq) heq
    · by_cases heq : q = p
      · subst heq
        simp only [PipeRun.after, PipeRun.goto, Function.update_self] at hq
        exact hon a rfl n i hq
      · simp only [PipeRun.after, PipeRun.goto, Function.update_of_ne heq] at hq
        exact absurd (hby q (congrArg PipeCall.inLock hq)) heq
  | sleep a chan wake => exact hfree wake _ (hoff a chan wake rfl)
  | ret value wake => exact hfree wake _ rfl

theorem PipeRun.Fifo.congr (h : s.Fifo) (hpipe : s'.pipe.data = s.pipe.data)
    (hr : s'.pipe.nread = s.pipe.nread) (hw : s'.pipe.nwrite = s.pipe.nwrite)
    (hacc : s'.accepted = s.accepted) (hdel : s'.delivered = s.delivered) : s'.Fifo := by
  have hcount : s'.pipe.count = s.pipe.count := by
    unfold PipeBuf.count
    rw [hr, hw]
  have hbytes : s'.pipe.bytes = s.pipe.bytes := by
    unfold PipeBuf.bytes
    rw [hpipe, hr, hw]
  exact ⟨hcount ▸ h.room, by rw [hacc, hdel, hbytes]; exact h.order⟩

@[simp] theorem PipeRun.wakeup_pipe (s : PipeRun) (chan : Option PipeChan) :
    (s.wakeup chan).pipe = s.pipe ∧ (s.wakeup chan).accepted = s.accepted ∧
      (s.wakeup chan).delivered = s.delivered := by
  cases chan <;> exact ⟨rfl, rfl, rfl⟩

theorem PipeRun.Fifo.wakeup (h : s.Fifo) (chan : Option PipeChan) : (s.wakeup chan).Fifo := by
  obtain ⟨hpipe, hacc, hdel⟩ := PipeRun.wakeup_pipe s chan
  exact h.congr (by rw [hpipe]) (by rw [hpipe]) (by rw [hpipe]) hacc hdel

theorem PipeRun.Fifo.after {σ : Type} {on off : σ → PipeCall} (h : s.Fifo)
    (t : PipeTurn σ) : (s.after p on off t).Fifo := by
  cases t with
  | next a => exact h.congr rfl rfl rfl rfl rfl
  | sleep a chan wake => exact (h.wakeup wake).congr rfl rfl rfl rfl rfl
  | ret value wake => exact (h.wakeup wake).congr rfl rfl rfl rfl rfl

-- == turns

/-- A turn of pipewrite stores a byte, or changes nothing. -/
theorem pipewriteTurn_cases (pi : PipeBuf) (killed : Bool) (n : Int) (ch : UInt8) (i : Int) :
    (pi.count ≠ pipeSize ∧ pipewriteTurn pi killed n ch i = (pi.put ch, .next (i + 1))) ∨
    ((pipewriteTurn pi killed n ch i).1 = pi ∧
      ∀ a, (pipewriteTurn pi killed n ch i).2 ≠ .next a) := by
  unfold pipewriteTurn
  split
  · split
    · exact .inr ⟨rfl, fun a h => nomatch h⟩
    · split
      · exact .inr ⟨rfl, fun a h => nomatch h⟩
      · next hfull =>
        exact .inl ⟨fun h => hfull (PipeBuf.full_iff.mpr h), rfl⟩
  · exact .inr ⟨rfl, fun a h => nomatch h⟩

theorem PipeRun.Fifo.write (h : s.Fifo) (n : Int) (ch : UInt8) (i : Int) :
    ({ s with
      pipe := (pipewriteTurn s.pipe (s.killed p) n ch i).1
      accepted := match (pipewriteTurn s.pipe (s.killed p) n ch i).2 with
        | .next _ => s.accepted ++ [ch]
        | _ => s.accepted } : PipeRun).Fifo := by
  obtain ⟨hroom, heq⟩ | ⟨hpipe, hnext⟩ := pipewriteTurn_cases s.pipe (s.killed p) n ch i
  · have hlt : s.pipe.count < pipeSize := lt_of_le_of_ne h.room hroom
    rw [heq]
    refine ⟨?_, ?_⟩
    · show (s.pipe.put ch).count ≤ pipeSize
      rw [PipeBuf.count_put hlt]
      exact hlt
    · show s.accepted ++ [ch] = s.delivered ++ (s.pipe.put ch).bytes
      rw [PipeBuf.bytes_put hlt, h.order, List.append_assoc]
  · rw [hpipe]
    cases ht : (pipewriteTurn s.pipe (s.killed p) n ch i).2 with
    | next a => exact absurd ht (hnext a)
    | sleep a chan wake => exact h
    | ret value wake => exact h

theorem PipeRun.Fifo.read (h : s.Fifo) (n i : Int) :
    ({ s with
      pipe := (pipereadTurn s.pipe n i).1
      delivered := s.delivered ++ (pipereadTurn s.pipe n i).2.1.toList } : PipeRun).Fifo := by
  unfold pipereadTurn
  split
  · split
    · exact h.congr rfl rfl rfl rfl (List.append_nil _)
    · next hne =>
      have hroom := h.room
      refine ⟨?_, ?_⟩
      · show s.pipe.get.2.count ≤ pipeSize
        rw [PipeBuf.count_get hne]
        omega
      · show s.accepted = s.delivered ++ [s.pipe.get.1] ++ s.pipe.get.2.bytes
        rw [List.append_assoc, List.singleton_append, ← PipeBuf.bytes_get hne]
        exact h.order
  · exact h.congr rfl rfl rfl rfl (List.append_nil _)

theorem PipeRun.turn_inv {ch : UInt8} (hf : s.Fifo) (hh : s.Held)
    (hp : s.lock = some p) (h : s.turn p ch = some s') : s'.Fifo ∧ s'.Held := by
  have hby : ∀ q, (s.calls q).inLock = true → q = p := by
    intro q hq
    have hlock := hh.holder q hq
    rw [hp] at hlock
    exact (Option.some.inj hlock).symm
  unfold PipeRun.turn at h
  cases hcall : s.calls p with
  | write n i =>
    simp only [hcall] at h
    cases h
    refine ⟨(hf.write n ch i).after _, held_after hby hp ?_ ?_⟩
    · exact fun a _ m j hread => nomatch hread
    · exact fun _ _ _ _ => rfl
  | readWait n =>
    simp only [hcall] at h
    cases h
    refine ⟨hf.after _, held_after hby hp ?_ fun _ _ _ _ => rfl⟩
    intro a hnext m j hread
    cases hread
    refine ⟨Int.le_refl 0, fun _ => ?_⟩
    unfold pipereadWait at hnext
    split at hnext
    · split at hnext <;> cases hnext
    · next hgo =>
      by_cases hempty : s.pipe.nread = s.pipe.nwrite
      · exact .inr (Bool.eq_false_iff.mpr fun ho => hgo ⟨hempty, ho⟩)
      · exact .inl hempty
  | read n i =>
    simp only [hcall] at h
    cases h
    have hi := (hh.reading p n i hcall).1
    refine ⟨(hf.read n i).after _, held_after hby hp ?_ ?_⟩
    · intro a hnext m j hread
      have ha : a = i + 1 := by
        unfold pipereadTurn at hnext
        split at hnext
        · split at hnext <;> cases hnext
          rfl
        · cases hnext
      cases hread
      omega
    · intro a chan wake hsleep
      unfold pipereadTurn at hsleep
      split at hsleep
      · split at hsleep <;> cases hsleep
      · cases hsleep
  | none | writeEnter | writeAsleep | readEnter | readAsleep =>
    simp only [hcall] at h
    cases h

theorem PipeRun.enter_inv (hf : s.Fifo) (hh : s.Held) (hfree : s.lock = none)
    (h : s.enter p = some s') : s'.Fifo ∧ s'.Held := by
  -- the place in the lock is not the second loop of piperead
  have hplace : ∀ c, (∀ n i, c ≠ .read n i) →
      ({ s.goto p c with lock := some p } : PipeRun).Held := by
    intro c hc
    refine ⟨fun q hq => ?_, fun q n i hq => ?_⟩
    · by_cases heq : q = p
      · rw [heq]
      · simp only [PipeRun.goto, Function.update_of_ne heq, hh.free hfree q] at hq
        cases hq
    · by_cases heq : q = p
      · subst heq
        simp only [PipeRun.goto, Function.update_self] at hq
        exact absurd hq (hc n i)
      · simp only [PipeRun.goto, Function.update_of_ne heq] at hq
        have hin := hh.free hfree q
        rw [hq] at hin
        cases hin
  unfold PipeRun.enter at h
  split at h
  · cases h
    exact ⟨hf.congr rfl rfl rfl rfl rfl, hplace _ fun _ _ hc => nomatch hc⟩
  · cases h
    exact ⟨hf.congr rfl rfl rfl rfl rfl, hplace _ fun _ _ hc => nomatch hc⟩
  · cases h

theorem PipeRun.close_inv (writable : Bool) (hf : s.Fifo) (hh : s.Held) (hfree : s.lock = none) :
    (s.close writable).Fifo ∧ (s.close writable).Held := by
  cases writable with
  | false =>
    refine ⟨hf.congr rfl rfl rfl rfl rfl, held_of_free fun q => ?_⟩
    exact (PipeCall.wake_inLock .nwrite _).trans (hh.free hfree q)
  | true =>
    refine ⟨hf.congr rfl rfl rfl rfl rfl, held_of_free fun q => ?_⟩
    exact (PipeCall.wake_inLock .nread _).trans (hh.free hfree q)

/-- Every step keeps both. -/
theorem PipeRun.step_inv {e : PipeEvent} (hf : s.Fifo) (hh : s.Held)
    (h : s.step e = some s') : s'.Fifo ∧ s'.Held := by
  cases e with
  | callWrite p n =>
    obtain ⟨_, heq⟩ := Option.ite_none_right_eq_some.mp h
    cases heq
    refine ⟨hf.congr rfl rfl rfl rfl rfl, hh.goto fun hin => ?_⟩
    cases hin
  | callRead p n =>
    obtain ⟨_, heq⟩ := Option.ite_none_right_eq_some.mp h
    cases heq
    refine ⟨hf.congr rfl rfl rfl rfl rfl, hh.goto fun hin => ?_⟩
    cases hin
  | acquire p =>
    obtain ⟨hfree, heq⟩ := Option.ite_none_right_eq_some.mp h
    exact PipeRun.enter_inv hf hh hfree heq
  | turn p ch =>
    obtain ⟨hp, heq⟩ := Option.ite_none_right_eq_some.mp h
    exact PipeRun.turn_inv hf hh hp heq
  | close writable =>
    obtain ⟨hfree, heq⟩ := Option.ite_none_right_eq_some.mp h
    cases heq
    exact PipeRun.close_inv writable hf hh hfree
  | kill p =>
    cases h
    refine ⟨hf.congr rfl rfl rfl rfl rfl, ?_⟩
    exact (hh.goto PipeCall.rouse_of_inLock).congr (fun _ _ => rfl) rfl rfl

theorem PipeRun.start_inv {pipe : PipeBuf} (h : pipe.nread = pipe.nwrite) :
    (PipeRun.start pipe).Fifo ∧ (PipeRun.start pipe).Held := by
  have hempty : between pipeSize pipe.data pipe.nread pipe.nwrite = [] := by
    rw [h, between_self]
  refine ⟨⟨?_, hempty.symm⟩, held_of_free fun _ => rfl⟩
  show (pipe.nwrite - pipe.nread).toNat ≤ pipeSize
  rw [gap_eq_zero.mpr h]
  exact Nat.zero_le _

end

/-- Some step of a run on a pipe. -/
def PipeStep (s s' : PipeRun) : Prop := ∃ e, s.step e = some s'

/-- From a pipe that is empty, with any counters: in every state of every
run the bytes delivered and then those in the pipe are the bytes accepted,
there are at most PIPESIZE of them, and a turn of piperead returns 0 for a
positive `n` only if the pipe is empty and its write end is closed. -/
theorem pipe_is_fifo {pipe : PipeBuf} {s : PipeRun}
    (h : pipe.nread = pipe.nwrite)
    (hr : Reaches PipeStep (PipeRun.start pipe) s) :
    s.accepted = s.delivered ++ s.pipe.bytes ∧
      (s.pipe.nwrite - s.pipe.nread).toNat ≤ pipeSize ∧
      ∀ p n i wake, s.lock = some p → s.calls p = .read n i → 0 < n →
        (pipereadTurn s.pipe n i).2.2 = .ret 0 wake →
        s.pipe.nread = s.pipe.nwrite ∧ s.pipe.writeopen = false := by
  obtain ⟨hf, hh⟩ := hr.inv (P := fun s => s.Fifo ∧ s.Held)
    (PipeRun.start_inv h) fun s s' ⟨hf, hh⟩ ⟨e, he⟩ =>
      PipeRun.step_inv hf hh he
  refine ⟨hf.order, hf.room, ?_⟩
  intro p n i wake _ hcall hn hret
  obtain ⟨_, hfirst⟩ := hh.reading p n i hcall
  unfold pipereadTurn at hret
  split at hret
  · split at hret
    · next hempty =>
      cases hret
      exact ⟨hempty, (hfirst rfl).resolve_left fun hne => hne hempty⟩
    · cases hret
  · next hdone =>
    cases hret
    exact absurd hn hdone

/-- A pipe whose counters are about to wrap. -/
def lateCounters : PipeBuf :=
  { PipeBuf.alloc fun _ => 5 with nread := -1, nwrite := -1 }

/-- Two bytes go through it: the counters are 1 afterwards. -/
theorem pipe_is_fifo_wrap :
    ∃ s, Reaches PipeStep (PipeRun.start lateCounters) s ∧
      s.pipe.nwrite = 1 ∧ s.delivered = [65, 66] ∧
      s.accepted = s.delivered ++ s.pipe.bytes := by
  have hplay : ∃ s, play PipeRun.step (PipeRun.start lateCounters)
      [.callWrite 1 2, .callRead 2 5, .acquire 1, .turn 1 65, .turn 1 66,
        .turn 1 0, .acquire 2, .turn 2 0, .turn 2 0, .turn 2 0] = some s ∧
      s.pipe.nwrite = 1 ∧ s.delivered = [65, 66] :=
    ⟨_, rfl, by decide, by decide⟩
  obtain ⟨s, hs, hw, hdel⟩ := hplay
  have hr : Reaches PipeStep (PipeRun.start lateCounters) s :=
    reaches_of_play hs
  exact ⟨s, hr, hw, hdel, (pipe_is_fifo rfl hr).1⟩

end Xv6Labs.Model
