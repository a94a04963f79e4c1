/-
The receive ring.

The ring is three stretches: packets stored and not yet delivered, the
descriptors of the card, and those the driver has refilled in this call. As
long as every kalloc succeeds they fit (`Rx.Ok`), and every packet is
delivered once, in order (`rx_ring_sound`); a kalloc that fails leaves the
call in the middle (`rx_ring_survives_iff`).
-/
import Mathlib.Data.List.Nodup
import Xv6Labs.Lib.Overlay
import Xv6Labs.Lib.Window
import Xv6Labs.Model.E1000

namespace Xv6Labs.Model

open Lib Function

-- == the run

/-- The receive ring and a record of what happened. -/
structure RxRun where
  t : Rx
  /-- pages given out by kalloc and not freed -/
  live : List Nat
  /-- those of them that are in use outside the ring -/
  away : List Nat
  /-- the packets the card stored: buffer and length -/
  stored : List (Nat × Nat)
  /-- the calls of net_rx -/
  delivered : List (Nat × Nat)
  /-- a kalloc in e1000_recv has failed -/
  failed : Bool

/-- After e1000_init, with the pages that kalloc gave it. -/
def RxRun.init (pages : Nat → Nat) : RxRun where
  t := e1000InitRx pages
  live := (List.range rxRingSize).map pages
  away := []
  stored := []
  delivered := []
  failed := false

/-- net_rx is called with the buffer of slot `idx`, if there is a packet in
it; the buffer is away from then on. -/
def RxRun.pass (r : RxRun) (base idx : Nat) : RxRun :=
  match (recvTurn r.t base idx 0).2 with
  | none => r
  | some call =>
    { r with away := call.1 :: r.away, delivered := r.delivered ++ [call] }

/-- The turn after net_rx has returned, with what kalloc returns then. -/
def RxRun.resume (r : RxRun) (base idx page : Nat) : RxRun :=
  match recvTurn r.t base idx page with
  | (t, none) => { r with t }
  | (t, some _) =>
    { r with
      t
      live := if page = 0 then r.live else page :: r.live
      failed := r.failed || page == 0 }

/-- A kalloc outside e1000_recv, or a kfree of a page that is away: in the
rest of the kernel, and in net_rx. -/
inductive PageStep : RxRun → RxRun → Prop where
  | alloc {r : RxRun} (p : Nat) (hnew : p ∉ r.live) :
      PageStep r { r with live := p :: r.live, away := p :: r.away }
  | free {r : RxRun} (p : Nat) (h : p ∈ r.away) :
      PageStep r { r with
        live := r.live.filter (· ≠ p), away := r.away.filter (· ≠ p) }

/-- One step. `C` is what is known of the result of kalloc in e1000_recv.
Between the call of net_rx and that kalloc net_rx may free the buffer, so
that kalloc returns it again. -/
inductive RxStep (C : Nat → Prop) : RxRun → RxRun → Prop where
  | arrive {r : RxRun} {t : Rx} (len : Nat) (h : r.t.arrive len = some t) :
      RxStep C r { r with
        t, stored := r.stored ++ [((r.t.ring r.t.rdh).addr, len)] }
  | intr {r : RxRun} (h : r.t.pc = none) : RxStep C r { r with t := r.t.enter }
  | turn {r r₁ : RxRun} {base idx : Nat} (p : Nat)
      (h : r.t.pc = some (base, idx)) (hC : C p)
      (hwork : Reaches PageStep (r.pass base idx) r₁)
      (hnew : p ≠ 0 → p ∉ r₁.live) : RxStep C r (r₁.resume base idx p)
  | work {r r' : RxRun} (h : PageStep r r') : RxStep C r r'

-- == the ring

/-- The slot e1000_recv looks at next. -/
def Rx.pos (t : Rx) : Nat :=
  match t.pc with
  | some (_, idx) => idx
  | none => (t.rdt + 1) % rxRingSize

/-- Stored and not yet delivered. -/
def Rx.pending (t : Rx) : List Nat := window rxRingSize t.pos t.rdh

/-- The descriptors of the card. -/
def Rx.owned (t : Rx) : List Nat := window rxRingSize t.rdh t.rdt

/-- The packet in a slot: buffer and length. -/
def Rx.packet (t : Rx) (i : Nat) : Nat × Nat := (t.bufs i, (t.ring i).length)

structure Rx.Ok (t : Rx) : Prop where
  rdh_lt : t.rdh < rxRingSize
  rdt_lt : t.rdt < rxRingSize
  pc : ∀ base idx, t.pc = some (base, idx) → base = t.rdt ∧ idx < rxRingSize
  span : dist rxRingSize t.pos t.rdh + dist rxRingSize t.rdh t.rdt = dist rxRingSize t.pos t.rdt
  dd : ∀ i, i < rxRingSize → ((t.ring i).dd = true ↔ i ∈ t.pending)
  addr : ∀ i, i < rxRingSize → (t.ring i).addr = t.bufs i
  inj : ∀ i j, i < rxRingSize → j < rxRingSize → t.bufs i = t.bufs j → i = j

section

variable {t t' : Rx} {base idx p i len : Nat}

theorem Rx.Ok.pos_lt (h : t.Ok) : t.pos < rxRingSize := by
  unfold Rx.pos
  split
  next base idx hpc => exact (h.pc base idx hpc).2
  next => exact succ_mod_lt h.rdt_lt

theorem Rx.Ok.owned_clear (h : t.Ok) (hi : i ∈ t.owned) : (t.ring i).dd = false := by
  have hlt := lt_of_mem_window h.rdh_lt h.rdt_lt hi
  rw [← Bool.not_eq_true, h.dd i hlt]
  exact not_mem_window_of_span h.pos_lt h.rdh_lt h.rdt_lt h.span hi

-- ----------------------------------------------------------------- arrival

/-- The ring after the card stored a packet. -/
def Rx.store (t : Rx) (len : Nat) : Rx :=
  { t with
    ring := update t.ring t.rdh
      { t.ring t.rdh with
        length := len, status := (t.ring t.rdh).status ||| rxdStatDD }
    rdh := (t.rdh + 1) % rxRingSize }

theorem Rx.arrive_some (h : t.arrive len = some t') : t.rdh ≠ t.rdt ∧ t' = t.store len := by
  unfold Rx.arrive at h
  split at h
  next hne =>
    cases h
    exact ⟨hne, rfl⟩
  next => cases h

/-- The card does not come round to the driver's position. -/
theorem Rx.Ok.pos_ne (h : t.Ok) (hne : t.rdh ≠ t.rdt) : t.pos ≠ (t.rdh + 1) % rxRingSize := by
  intro heq
  have hspan := h.span
  have hlap := dist_succ_self h.rdh_lt
  have hlt := dist_lt h.pos_lt h.rdt_lt
  have hpos : dist rxRingSize t.rdh t.rdt ≠ 0 := fun h0 => hne (eq_of_dist h.rdh_lt h.rdt_lt h0)
  rw [← heq] at hlap
  omega

theorem Rx.Ok.store_pending (h : t.Ok) (hne : t.rdh ≠ t.rdt) :
    (t.store len).pending = t.pending ++ [t.rdh] :=
  window_push h.pos_lt h.rdh_lt (h.pos_ne hne)

theorem Rx.store_ring (t : Rx) (len i : Nat) : (t.store len).ring i =
    if i = t.rdh then { t.ring t.rdh with
      length := len, status := (t.ring t.rdh).status ||| rxdStatDD }
    else t.ring i := update_apply ..

theorem Rx.Ok.store (h : t.Ok) (hne : t.rdh ≠ t.rdt) : (t.store len).Ok := by
  refine ⟨succ_mod_lt h.rdh_lt, h.rdt_lt, h.pc, ?_, ?_, ?_, h.inj⟩
  · show dist rxRingSize t.pos ((t.rdh + 1) % rxRingSize) +
      dist rxRingSize ((t.rdh + 1) % rxRingSize) t.rdt = dist rxRingSize t.pos t.rdt
    rw [dist_push h.pos_lt h.rdh_lt (h.pos_ne hne), ← h.span, dist_pop h.rdh_lt h.rdt_lt hne]
    omega
  · intro i hi
    rw [h.store_pending hne, List.mem_append, List.mem_singleton, t.store_ring]
    split
    next heq =>
      refine ⟨fun _ => .inr heq, fun _ => ?_⟩
      unfold RxDesc.dd
      rw [or_and_absorb]
      rfl
    next hn =>
      rw [h.dd i hi]
      exact (or_iff_left hn).symm
  · intro i hi
    rw [t.store_ring]
    split
    next heq =>
      rw [heq]
      exact h.addr t.rdh h.rdh_lt
    next => exact h.addr i hi

theorem Rx.Ok.store_packets (h : t.Ok) (hne : t.rdh ≠ t.rdt) :
    (t.store len).pending.map (t.store len).packet =
      t.pending.map t.packet ++ [((t.ring t.rdh).addr, len)] := by
  have hend : t.rdh ∉ t.pending := end_not_mem_window h.pos_lt h.rdh_lt
  rw [h.store_pending hne, List.map_append, List.map_singleton]
  congr 1
  · refine List.map_congr_left ?_
    intro i hi
    have hn : i ≠ t.rdh := fun heq => hend (heq ▸ hi)
    unfold Rx.packet
    rw [t.store_ring, if_neg hn]
    rfl
  · unfold Rx.packet
    rw [t.store_ring, if_pos rfl, h.addr t.rdh h.rdh_lt]
    rfl

-- ------------------------------------------------------------------- turns

theorem Rx.Ok.enter (h : t.Ok) (hpc : t.pc = none) : t.enter.Ok ∧ t.enter.pending = t.pending := by
  have hpos : t.enter.pos = t.pos := by
    unfold Rx.pos
    rw [hpc]
    rfl
  have hpend : t.enter.pending = t.pending := by
    unfold Rx.pending
    rw [hpos]
    rfl
  refine ⟨⟨h.rdh_lt, h.rdt_lt, ?_, ?_, ?_, h.addr, h.inj⟩, hpend⟩
  · intro base idx heq
    cases heq
    exact ⟨rfl, succ_mod_lt h.rdt_lt⟩
  · rw [hpos]
    exact h.span
  · rw [hpend]
    exact h.dd

/-- The ring after a packet was delivered and its slot refilled. -/
def Rx.refill (t : Rx) (base idx p : Nat) : Rx :=
  { t with
    bufs := update t.bufs idx p
    ring := update t.ring idx { t.ring idx with status := 0, addr := p }
    pc := some (base, (idx + 1) % rxRingSize) }

/-- A turn leaves the loop, delivers, or delivers and gives up. -/
theorem recvTurn_cases (t : Rx) (base idx p : Nat) :
    ((idx = base ∨ (t.ring idx).dd = false) ∧ recvTurn t base idx p = (t.leave idx, none)) ∨
    (idx ≠ base ∧ (t.ring idx).dd = true ∧ p ≠ 0 ∧
      recvTurn t base idx p = (t.refill base idx p, some (t.packet idx))) ∨
    (idx ≠ base ∧ (t.ring idx).dd = true ∧ p = 0 ∧
      recvTurn t base idx p =
        ({ t with bufs := update t.bufs idx 0, pc := none }, some (t.packet idx))) := by
  unfold recvTurn
  by_cases hb : idx = base
  · rw [if_neg (fun hn => hn hb)]
    exact .inl ⟨.inl hb, rfl⟩
  rw [if_pos hb]
  cases hdd : (t.ring idx).dd with
  | false => exact .inl ⟨.inr rfl, rfl⟩
  | true =>
    by_cases hp : p = 0
    · subst hp
      exact .inr (.inr ⟨hb, rfl, rfl, rfl⟩)
    · refine .inr (.inl ⟨hb, rfl, hp, ?_⟩)
      simp only [Bool.not_true, Bool.false_eq_true, if_false, if_neg hp]
      rfl

theorem Rx.pos_of_pc (hpc : t.pc = some (base, idx)) : t.pos = idx := by
  unfold Rx.pos
  rw [hpc]

/-- The loop is left when there is nothing more to deliver. -/
theorem Rx.Ok.leave_empty (h : t.Ok) (hpc : t.pc = some (base, idx))
    (hstop : idx = base ∨ (t.ring idx).dd = false) : t.rdh = idx := by
  obtain ⟨hbase, hlt⟩ := h.pc base idx hpc
  have hpos := Rx.pos_of_pc hpc
  refine (eq_of_dist hlt h.rdh_lt ?_).symm
  cases hstop with
  | inl heq =>
    have hspan := h.span
    rw [hpos, ← hbase, ← heq, dist_self hlt] at hspan
    omega
  | inr hdd =>
    by_contra hne
    have hmem : idx ∈ t.pending := by
      unfold Rx.pending
      rw [hpos]
      refine (mem_window hlt h.rdh_lt).mpr ⟨hlt, ?_⟩
      rw [dist_self hlt]
      omega
    rw [(h.dd idx hlt).mpr hmem] at hdd
    cases hdd

theorem Rx.leave_pos (hlt : idx < rxRingSize) :
    (t.leave idx).pos = idx ∧ (t.leave idx).rdt < rxRingSize := by
  unfold rxRingSize at hlt
  unfold Rx.leave Rx.pos u32 rxRingSize
  dsimp only
  omega

theorem Rx.Ok.leave (h : t.Ok) (hpc : t.pc = some (base, idx))
    (hstop : idx = base ∨ (t.ring idx).dd = false) :
    (t.leave idx).Ok ∧ (t.leave idx).pending = [] ∧ t.pending = [] := by
  obtain ⟨_, hlt⟩ := h.pc base idx hpc
  have hrdh := h.leave_empty hpc hstop
  obtain ⟨hpos, hrdt⟩ := Rx.leave_pos hlt
  have hrdh' : (t.leave idx).rdh = idx := hrdh
  have hpend : (t.leave idx).pending = [] := by
    unfold Rx.pending
    rw [hpos, hrdh', window_self hlt]
  have hpend' : t.pending = [] := by
    unfold Rx.pending
    rw [Rx.pos_of_pc hpc, hrdh, window_self hlt]
  refine ⟨⟨h.rdh_lt, hrdt, ?_, ?_, ?_, h.addr, h.inj⟩, hpend, hpend'⟩
  · intro _ _ heq
    cases heq
  · rw [hpos, hrdh', dist_self hlt, Nat.zero_add]
  · rw [hpend, ← hpend']
    exact h.dd

theorem Rx.Ok.pending_pop (h : t.Ok) (hpc : t.pc = some (base, idx))
    (hdd : (t.ring idx).dd = true) :
    idx ≠ t.rdh ∧ t.pending = idx :: (t.refill base idx p).pending := by
  obtain ⟨_, hlt⟩ := h.pc base idx hpc
  have hpos := Rx.pos_of_pc hpc
  have hmem := (h.dd idx hlt).mp hdd
  unfold Rx.pending at hmem ⊢
  rw [hpos] at hmem ⊢
  have hne : idx ≠ t.rdh := by
    intro heq
    rw [← heq, window_self hlt] at hmem
    exact List.not_mem_nil hmem
  exact ⟨hne, window_pop hlt h.rdh_lt hne⟩

theorem Rx.Ok.refill_not_pending (h : t.Ok) (hpc : t.pc = some (base, idx)) :
    idx ∉ (t.refill base idx p).pending := by
  obtain ⟨_, hlt⟩ := h.pc base idx hpc
  intro hm
  have hd := ((mem_window (succ_mod_lt hlt) h.rdh_lt).mp hm).2
  have hlt' := dist_lt (succ_mod_lt hlt) h.rdh_lt
  rw [dist_succ_self hlt] at hd
  omega

theorem Rx.refill_ring (t : Rx) (base idx p i : Nat) :
    (t.refill base idx p).ring i = (if i = idx then { t.ring idx with status := 0, addr := p }
      else t.ring i) ∧
    (t.refill base idx p).bufs i = if i = idx then p else t.bufs i :=
  ⟨update_apply .., update_apply ..⟩

theorem Rx.Ok.refill (h : t.Ok) (hpc : t.pc = some (base, idx))
    (hne : idx ≠ base) (hdd : (t.ring idx).dd = true)
    (hp : ∀ i, i < rxRingSize → i ≠ idx → t.bufs i ≠ p) : (t.refill base idx p).Ok := by
  obtain ⟨hbase, hlt⟩ := h.pc base idx hpc
  have hpos := Rx.pos_of_pc hpc
  obtain ⟨hrdh, hpend⟩ := h.pending_pop (p := p) hpc hdd
  have hring := fun i => (t.refill_ring base idx p i).1
  have hbufs := fun i => (t.refill_ring base idx p i).2
  refine ⟨h.rdh_lt, h.rdt_lt, ?_, ?_, ?_, ?_, ?_⟩
  · intro _ _ heq
    cases heq
    exact ⟨hbase, succ_mod_lt hlt⟩
  · show dist rxRingSize ((idx + 1) % rxRingSize) t.rdh +
      dist rxRingSize t.rdh t.rdt = dist rxRingSize ((idx + 1) % rxRingSize) t.rdt
    have hspan := h.span
    rw [hpos, dist_pop hlt h.rdh_lt hrdh, dist_pop hlt h.rdt_lt (hbase ▸ hne)] at hspan
    omega
  · intro i hi
    rw [hring]
    split
    next heq =>
      subst heq
      have hclear : ¬ ((0 : UInt8) &&& rxdStatDD != 0) = true := by decide
      exact ⟨fun hd => absurd hd hclear, fun hm => absurd hm (h.refill_not_pending hpc)⟩
    next hn =>
      rw [h.dd i hi, hpend, List.mem_cons]
      exact or_iff_right hn
  · intro i hi
    rw [hring, hbufs]
    split
    next => rfl
    next => exact h.addr i hi
  intro i j hi hj
  rw [hbufs, hbufs]
  split
  next heq =>
    split
    next heq' =>
      intro _
      rw [heq, heq']
    next hn =>
      intro heq'
      exact absurd heq'.symm (hp j hj hn)
  next hn =>
    split
    next =>
      intro heq'
      exact absurd heq' (hp i hi hn)
    next => exact h.inj i j hi hj

theorem Rx.Ok.refill_packets (h : t.Ok) (hpc : t.pc = some (base, idx))
    (hdd : (t.ring idx).dd = true) :
    t.pending.map t.packet = t.packet idx ::
      (t.refill base idx p).pending.map (t.refill base idx p).packet := by
  obtain ⟨_, hpend⟩ := h.pending_pop hpc hdd
  rw [hpend, List.map_cons]
  congr 1
  refine List.map_congr_left ?_
  intro i hi
  have hn : i ≠ idx := by
    intro heq
    exact h.refill_not_pending hpc (heq ▸ hi)
  unfold Rx.packet
  rw [(t.refill_ring base idx p i).1, (t.refill_ring base idx p i).2, if_neg hn, if_neg hn]

end

-- == the run

/-- The pages of the ring are its own, but for the one of slot `o`, which
net_rx has got. -/
structure RxRun.Owns (r : RxRun) (o : Option Nat) : Prop where
  bufs : ∀ i, i < rxRingSize → o ≠ some i → r.t.bufs i ∈ r.live ∧ r.t.bufs i ∉ r.away
  away : ∀ p ∈ r.away, p ∈ r.live

/-- The ring is in order and its pages are its own. -/
structure RxRun.Inv (r : RxRun) : Prop where
  ok : r.t.Ok
  nonzero : ∀ i, i < rxRingSize → r.t.bufs i ≠ 0
  owns : r.Owns none
  flow : r.stored = r.delivered ++ r.t.pending.map r.t.packet
  calls : ∀ c ∈ r.delivered, c.1 ≠ 0

/-- The pages of e1000_init: kalloc gave sixteen different ones. -/
structure InitPages (pages : Nat → Nat) : Prop where
  ne_zero : ∀ i, i < rxRingSize → pages i ≠ 0
  inj : ∀ i j, i < rxRingSize → j < rxRingSize → pages i = pages j → i = j

theorem RxRun.pending_init (pages : Nat → Nat) : (RxRun.init pages).t.pending = [] :=
  (by decide : window rxRingSize ((rxRingSize - 1 + 1) % rxRingSize) 0 = [])

theorem RxRun.inv_init {pages : Nat → Nat} (h : InitPages pages) : (RxRun.init pages).Inv where
  ok :=
    { rdh_lt := (by decide : 0 < rxRingSize)
      rdt_lt := (by decide : rxRingSize - 1 < rxRingSize)
      pc := fun _ _ hpc => nomatch hpc
      span := (by decide : dist rxRingSize
        ((rxRingSize - 1 + 1) % rxRingSize) 0 + dist rxRingSize 0 (rxRingSize - 1) =
          dist rxRingSize ((rxRingSize - 1 + 1) % rxRingSize) (rxRingSize - 1))
      dd := fun i _ =>
        have hclear : ¬ ((0 : UInt8) &&& rxdStatDD != 0) = true := by decide
        ⟨fun hd => absurd hd hclear, fun hm =>
          absurd (RxRun.pending_init pages ▸ hm) List.not_mem_nil⟩
      addr := fun _ _ => rfl
      inj := h.inj }
  nonzero := h.ne_zero
  owns := ⟨fun _ hi _ => ⟨List.mem_map_of_mem (List.mem_range.mpr hi),
    List.not_mem_nil⟩, fun _ hp => absurd hp List.not_mem_nil⟩
  flow := by
    rw [RxRun.pending_init]
    rfl
  calls c hc := absurd hc List.not_mem_nil

section

variable {r r₁ r' : RxRun} {base idx p : Nat} {C : Nat → Prop}

/-- A slot that ends the loop has no packet to pass on. -/
theorem RxRun.pass_stop (h : idx = base ∨ (r.t.ring idx).dd = false) : r.pass base idx = r := by
  unfold RxRun.pass
  obtain ⟨_, heq⟩ | ⟨_, _, h0, _⟩ | ⟨hne, hdd, _⟩ := recvTurn_cases r.t base idx 0
  · rw [heq]
  · exact absurd rfl h0
  · rw [hdd] at h
    exact absurd (h.resolve_right Bool.noConfusion) hne

/-- A slot with DD set: its buffer goes to net_rx. -/
theorem RxRun.pass_go (hne : idx ≠ base) (hdd : (r.t.ring idx).dd = true) :
    r.pass base idx = { r with
      away := (r.t.packet idx).1 :: r.away
      delivered := r.delivered ++ [r.t.packet idx] } := by
  unfold RxRun.pass
  obtain ⟨hstop, _⟩ | ⟨_, _, h0, _⟩ | ⟨_, _, _, heq⟩ := recvTurn_cases r.t base idx 0
  · rw [hdd] at hstop
    exact absurd (hstop.resolve_right Bool.noConfusion) hne
  · exact absurd rfl h0
  · rw [heq]

/-- The rest of the kernel takes no page of the ring, and gives none back. -/
theorem PageStep.owns {o : Option Nat} (h : r.Owns o) (hs : PageStep r r') : r'.Owns o := by
  cases hs with
  | alloc p hnew =>
    refine ⟨fun i hi ho => ?_, fun q hq => ?_⟩
    · obtain ⟨hlive, haway⟩ := h.bufs i hi ho
      refine ⟨List.mem_cons_of_mem _ hlive, fun hm => ?_⟩
      cases List.mem_cons.mp hm with
      | inl heq => exact hnew (heq ▸ hlive)
      | inr hm => exact haway hm
    · cases List.mem_cons.mp hq with
      | inl heq =>
        rw [heq]
        exact List.mem_cons_self
      | inr hm => exact List.mem_cons_of_mem _ (h.away q hm)
  | free p hp =>
    refine ⟨fun i hi ho => ?_, fun q hq => ?_⟩
    · obtain ⟨hlive, haway⟩ := h.bufs i hi ho
      have hne : r.t.bufs i ≠ p := fun heq => haway (heq ▸ hp)
      exact ⟨List.mem_filter.mpr ⟨hlive, decide_eq_true hne⟩,
        fun hm => haway (List.mem_of_mem_filter hm)⟩
    · obtain ⟨hm, hne⟩ := List.mem_filter.mp hq
      exact List.mem_filter.mpr ⟨h.away q hm, hne⟩

/-- Only the pages in use are different. -/
def RxRun.Works (r r' : RxRun) : Prop :=
  (∃ live away, r' = { r with live, away }) ∧ ∀ o, r.Owns o → r'.Owns o

theorem PageStep.works (hs : PageStep r r') : r.Works r' :=
  ⟨by cases hs <;> exact ⟨_, _, rfl⟩, fun _ h => hs.owns h⟩

/-- The work of net_rx leaves the ring and the record of the calls alone. -/
theorem works_of_reaches (h : Reaches PageStep r r') : r.Works r' := by
  refine Reaches.inv (P := r.Works) h ⟨⟨_, _, rfl⟩, fun _ h => h⟩ ?_
  rintro a b ⟨⟨live, away, rfl⟩, ho⟩ hs
  obtain ⟨⟨live', away', rfl⟩, ho'⟩ := hs.works
  exact ⟨⟨live', away', rfl⟩, fun o h => ho' o (ho o h)⟩

theorem RxRun.Inv.own (h : r.Inv) {i : Nat} (hi : i < rxRingSize) :
    r.t.bufs i ∈ r.live ∧ r.t.bufs i ∉ r.away :=
  h.owns.bufs i hi (Option.some_ne_none i).symm

theorem RxRun.Inv.works (h : r.Inv) (hw : r.Works r') : r'.Inv := by
  obtain ⟨⟨live, away, rfl⟩, ho⟩ := hw
  exact ⟨h.ok, h.nonzero, ho none h.owns, h.flow, h.calls⟩

theorem RxRun.Inv.leave (h : r.Inv) (hw : r.Works r₁) (hpc : r.t.pc = some (base, idx))
    (hstop : idx = base ∨ (r.t.ring idx).dd = false) :
    { r₁ with t := r.t.leave idx : RxRun }.Inv := by
  obtain ⟨hok, hpend, hpend'⟩ := h.ok.leave hpc hstop
  obtain ⟨⟨live, away, rfl⟩, ho⟩ := hw
  obtain ⟨hbufs, haway⟩ := ho none h.owns
  refine ⟨hok, h.nonzero, ⟨hbufs, haway⟩, ?_, h.calls⟩
  rw [h.flow, hpend, hpend']
  rfl

/-- net_rx has got the buffer of slot `idx`, and the slot gets a page that
is free by then, perhaps the same one. -/
theorem RxRun.Inv.refill {live away : List Nat} {f : Bool} (h : r.Inv)
    (hpc : r.t.pc = some (base, idx)) (hne : idx ≠ base)
    (hdd : (r.t.ring idx).dd = true) (hp : p ≠ 0)
    (hw : (r.pass base idx).Works { r.pass base idx with live, away })
    (hnew : p ∉ live) :
    { r with
      t := r.t.refill base idx p
      live := p :: live
      away
      delivered := r.delivered ++ [r.t.packet idx]
      failed := f : RxRun }.Inv := by
  have hlt := (h.ok.pc base idx hpc).2
  rw [RxRun.pass_go hne hdd] at hw
  -- net_rx starts with the pages of the ring but this one out of reach
  obtain ⟨hown, haway⟩ : { r with
      live, away, delivered := r.delivered ++ [r.t.packet idx] : RxRun }.Owns (some idx) := by
    refine hw.2 (some idx) ⟨fun i hi ho => ?_, fun q hq => ?_⟩
    · obtain ⟨hlive, hout⟩ := h.own hi
      refine ⟨hlive, fun hm => ?_⟩
      cases List.mem_cons.mp hm with
      | inl heq => exact ho (congrArg some (h.ok.inj i idx hi hlt heq).symm)
      | inr hm => exact hout hm
    · cases List.mem_cons.mp hq with
      | inl heq =>
        rw [heq]
        exact (h.own hlt).1
      | inr hm => exact h.owns.away q hm
  have hown : ∀ i, i < rxRingSize → i ≠ idx → r.t.bufs i ∈ live ∧ r.t.bufs i ∉ away :=
    fun i hi hi' => hown i hi fun heq => hi' (Option.some.inj heq).symm
  refine ⟨h.ok.refill hpc hne hdd fun i hi hi' hb =>
    hnew (hb ▸ (hown i hi hi').1), fun i hi => ?_, ⟨fun i hi _ => ?_,
    fun q hq => List.mem_cons_of_mem _ (haway q hq)⟩, ?_, ?_⟩
  · rw [(r.t.refill_ring base idx p i).2]
    split
    · exact hp
    · exact h.nonzero i hi
  · rw [(r.t.refill_ring base idx p i).2]
    split
    · exact ⟨List.mem_cons_self, fun hm => hnew (haway p hm)⟩
    · next hi' =>
      obtain ⟨hlive, hout⟩ := hown i hi hi'
      exact ⟨List.mem_cons_of_mem _ hlive, hout⟩
  · show r.stored = r.delivered ++ [r.t.packet idx] ++ _
    rw [h.flow, h.ok.refill_packets hpc hdd, List.append_assoc]
    rfl
  intro c hc
  cases List.mem_append.mp hc with
  | inl hc => exact h.calls c hc
  | inr hc =>
    rw [List.mem_singleton.mp hc]
    exact h.nonzero idx hlt

/-- A turn ends the loop, or passes a packet on, with a page for its slot or
without. -/
theorem RxRun.turn_cases (p : Nat) (hw : (r.pass base idx).Works r₁) :
    ((idx = base ∨ (r.t.ring idx).dd = false) ∧ r.Works r₁ ∧
      r₁.resume base idx p = { r₁ with t := r.t.leave idx }) ∨
    (idx ≠ base ∧ (r.t.ring idx).dd = true ∧
      r₁.delivered = r.delivered ++ [r.t.packet idx] ∧
      (p ≠ 0 ∧ r₁.resume base idx p = { r₁ with
        t := r.t.refill base idx p, live := p :: r₁.live } ∨
      p = 0 ∧ r₁.resume base idx p = { r₁ with
        t := { r.t with bufs := update r.t.bufs idx 0, pc := none }
        failed := true })) := by
  obtain ⟨⟨live, away, rfl⟩, _⟩ := id hw
  unfold RxRun.resume
  obtain ⟨hstop, heq⟩ | ⟨hne, hdd, hp, heq⟩ | ⟨hne, hdd, rfl, heq⟩ := recvTurn_cases r.t base idx p
  · rw [RxRun.pass_stop hstop] at hw ⊢
    refine .inl ⟨hstop, hw, ?_⟩
    simp only [heq]
  · rw [RxRun.pass_go hne hdd]
    refine .inr ⟨hne, hdd, rfl, .inl ⟨hp, ?_⟩⟩
    simp only [heq, if_neg hp, beq_eq_false_iff_ne.mpr hp, Bool.or_false]
  · rw [RxRun.pass_go hne hdd]
    refine .inr ⟨hne, hdd, rfl, .inr ⟨rfl, ?_⟩⟩
    simp only [heq, if_pos, beq_self_eq_true, Bool.or_true]

theorem RxRun.Inv.turn (h : r.Inv) (hpc : r.t.pc = some (base, idx))
    (hp : p ≠ 0) (hw : (r.pass base idx).Works r₁) (hnew : p ∉ r₁.live) :
    (r₁.resume base idx p).Inv := by
  obtain ⟨hstop, hw, heq⟩ | ⟨hne, hdd, _, ⟨_, heq⟩ | ⟨hp0, _⟩⟩ := RxRun.turn_cases p hw
  · rw [heq]
    exact h.leave hw hpc hstop
  · obtain ⟨⟨live, away, rfl⟩, _⟩ := id hw
    have hrefill := h.refill (f := r.failed) hpc hne hdd hp hw hnew
    rw [heq, RxRun.pass_go hne hdd]
    exact hrefill
  · exact absurd hp0 hp

/-- Every step keeps the ring in order, as long as kalloc succeeds. -/
theorem RxStep.inv (h : r.Inv) (hC : ∀ p, C p → p ≠ 0) (hs : RxStep C r r') : r'.Inv := by
  cases hs with
  | arrive len ht =>
    obtain ⟨hne, rfl⟩ := Rx.arrive_some ht
    refine ⟨h.ok.store hne, h.nonzero, ⟨h.owns.bufs, h.owns.away⟩, ?_, h.calls⟩
    rw [h.ok.store_packets hne, h.flow, List.append_assoc]
  | intr hpc =>
    obtain ⟨hok, hpend⟩ := h.ok.enter hpc
    refine ⟨hok, h.nonzero, ⟨h.owns.bufs, h.owns.away⟩, ?_, h.calls⟩
    rw [hpend, h.flow]
    rfl
  | turn p hpc hp hw hnew =>
    exact h.turn hpc (hC p hp) (works_of_reaches hw) (hnew (hC p hp))
  | work hs => exact h.works hs.works

/-- With a kalloc that succeeds, the calls of net_rx are the stored packets,
in order, each with the buffer the card filled and its length, up to those
still pending; the loop ends, and when it ends none is pending. The
descriptors of the card have DD clear and a live page that no one else has,
and a turn of the driver leaves them alone. -/
theorem rx_ring_sound {pages : Nat → Nat} (hpages : InitPages pages)
    (hr : Reaches (RxStep (· ≠ 0)) (RxRun.init pages) r) :
    r.stored = r.delivered ++ r.t.pending.map r.t.packet ∧
    (∀ i ∈ r.t.owned, (r.t.ring i).dd = false ∧
      (r.t.ring i).addr = r.t.bufs i ∧ r.t.bufs i ≠ 0 ∧
      r.t.bufs i ∈ r.live ∧ r.t.bufs i ∉ r.away ∧
      ∀ j, j < rxRingSize → j ≠ i →
        (r.t.ring j).addr ≠ r.t.bufs i ∧ r.t.bufs j ≠ r.t.bufs i) ∧
    (∀ base idx p, r.t.pc = some (base, idx) → p ≠ 0 →
      let t' := (recvTurn r.t base idx p).1
      (t'.pc = none ∧ r.delivered = r.stored ∨
        ∃ idx', t'.pc = some (base, idx') ∧
          dist rxRingSize idx' base < dist rxRingSize idx base) ∧
      ∀ i ∈ r.t.owned, t'.ring i = r.t.ring i ∧ t'.bufs i = r.t.bufs i) := by
  have h : r.Inv := hr.inv (RxRun.inv_init hpages)
    fun _ _ h hs => RxStep.inv h (fun _ hp => hp) hs
  refine ⟨h.flow, ?_, ?_⟩
  · intro i hi
    have hlt := lt_of_mem_window h.ok.rdh_lt h.ok.rdt_lt hi
    obtain ⟨hlive, haway⟩ := h.own hlt
    refine ⟨h.ok.owned_clear hi, h.ok.addr i hlt, h.nonzero i hlt, hlive,
      haway, ?_⟩
    intro j hj hne
    have hbuf : r.t.bufs j ≠ r.t.bufs i :=
      fun heq => hne (h.ok.inj j i hj hlt heq)
    rw [h.ok.addr j hj]
    exact ⟨hbuf, hbuf⟩
  intro base idx p hpc hp
  obtain ⟨hbase, hlt⟩ := h.ok.pc base idx hpc
  obtain ⟨hstop, heq⟩ | ⟨hne, hdd, _, heq⟩ | ⟨_, _, hp0, _⟩ :=
    recvTurn_cases r.t base idx p
  · rw [heq]
    refine ⟨.inl ⟨rfl, ?_⟩, fun i _ => ⟨rfl, rfl⟩⟩
    rw [h.flow, (h.ok.leave hpc hstop).2.2, List.map_nil, List.append_nil]
  · rw [heq]
    refine ⟨.inr ⟨(idx + 1) % rxRingSize, rfl, ?_⟩, ?_⟩
    · have hbl : base < rxRingSize := hbase ▸ h.ok.rdt_lt
      rw [dist_pop hlt hbl hne]
      exact Nat.lt_succ_self _
    intro i hi
    have hn : i ≠ idx := by
      intro heq'
      have hclear := h.ok.owned_clear hi
      rw [heq', hdd] at hclear
      cases hclear
    exact ⟨(r.t.refill_ring base idx p i).1.trans (if_neg hn),
      (r.t.refill_ring base idx p i).2.trans (if_neg hn)⟩
  · exact absurd hp0 hp

end

/-- Pages 1 to 16. -/
theorem initPages_succ : InitPages (· + 1) where
  ne_zero _ _ := Nat.succ_ne_zero _
  inj _ _ _ _ h := Nat.succ.inj h

/-- Two packets arrive, one before and one during the call. net_rx frees the
first buffer, and kalloc returns it for the same slot; it keeps the second,
and takes the page that kalloc would have returned. -/
theorem rx_ring_sound_two :
    ∃ r : RxRun, Reaches (RxStep (· ≠ 0)) (RxRun.init (· + 1)) r ∧
      r.t.pc = none ∧ r.stored = [(1, 60), (2, 61)] ∧ r.t.bufs 0 = 1 ∧
      r.stored = r.delivered ++ r.t.pending.map r.t.packet := by
  have h₁ : Reaches (RxStep (· ≠ 0)) (RxRun.init (· + 1)) _ :=
    (Reaches.refl _).step (.arrive 60 rfl)
  have h₂ := (h₁.step (.intr rfl)).step
    (.turn 1 rfl (by decide) ((Reaches.refl _).step (.free 1 (by decide)))
      (fun _ => by decide))
  have h₃ := (h₂.step (.arrive 61 rfl)).step
    (.turn 18 rfl (by decide) ((Reaches.refl _).step (.alloc 17 (by decide)))
      (fun _ => by decide))
  have h₄ := h₃.step
    (.turn 19 rfl (by decide) (Reaches.refl _) (fun _ => by decide))
  exact ⟨_, h₄, rfl, rfl, rfl, (rx_ring_sound initPages_succ h₄).1⟩

-- == a kalloc that fails

/-- What e1000_recv should leave: every slot has a live page of its own, which
its descriptor has too; net_rx never got a null buffer; and the packets that
were delivered are before RDT, so that the card has their descriptors, with
DD clear. -/
structure RxRun.Good (r : RxRun) : Prop where
  bufs : ∀ i, i < rxRingSize → r.t.bufs i ≠ 0 ∧ r.t.bufs i ∈ r.live ∧
    r.t.bufs i ∉ r.away ∧ (r.t.ring i).addr = r.t.bufs i
  inj : ∀ i j, i < rxRingSize → j < rxRingSize → r.t.bufs i = r.t.bufs j → i = j
  calls : ∀ c ∈ r.delivered, c.1 ≠ 0
  given : r.stored = r.delivered ++
    (window rxRingSize ((r.t.rdt + 1) % rxRingSize) r.t.rdh).map r.t.packet
  clear : ∀ i ∈ r.t.owned, (r.t.ring i).dd = false

section

variable {r r₁ r' : RxRun} {base idx p : Nat} {C : Nat → Prop}

theorem RxRun.Inv.good (h : r.Inv) (hpc : r.t.pc = none) : r.Good where
  bufs i hi := by
    obtain ⟨hlive, haway⟩ := h.own hi
    exact ⟨h.nonzero i hi, hlive, haway, h.ok.addr i hi⟩
  inj := h.ok.inj
  calls := h.calls
  given := by
    have hflow := h.flow
    unfold Rx.pending Rx.pos at hflow
    rw [hpc] at hflow
    exact hflow
  clear _ hi := h.ok.owned_clear hi

/-- A slot without a buffer, or a null buffer passed to net_rx. -/
def RxRun.Broken (r : RxRun) : Prop :=
  (∃ i, i < rxRingSize ∧ r.t.bufs i = 0) ∨ ∃ c ∈ r.delivered, c.1 = 0

/-- The slot without a buffer stays so until net_rx is called with it. -/
theorem RxRun.Broken.turn (h : r.Broken) (hw : (r.pass base idx).Works r₁) :
    (r₁.resume base idx p).Broken := by
  -- a turn that delivers changes the buffer of `idx` only
  have hkeep : ∀ q : RxRun, (∀ i, i ≠ idx → q.t.bufs i = r.t.bufs i) →
      q.delivered = r.delivered ++ [r.t.packet idx] → q.Broken := by
    intro q ht hd
    cases h with
    | inl hslot =>
      obtain ⟨i, hi, hz⟩ := hslot
      by_cases heq : i = idx
      · refine .inr ⟨r.t.packet idx, ?_, heq ▸ hz⟩
        rw [hd]
        exact List.mem_append_right _ (List.mem_singleton_self _)
      · refine .inl ⟨i, hi, ?_⟩
        rw [ht i heq]
        exact hz
    | inr hcall =>
      obtain ⟨c, hc, hz⟩ := hcall
      refine .inr ⟨c, ?_, hz⟩
      rw [hd]
      exact List.mem_append_left _ hc
  obtain ⟨_, ⟨⟨_, _, rfl⟩, _⟩, heq⟩ | ⟨_, _, hd, ⟨_, heq⟩ | ⟨_, heq⟩⟩ := RxRun.turn_cases p hw
  · rw [heq]
    exact h
  · rw [heq]
    exact hkeep _ (fun i hi => update_of_ne hi ..) hd
  · rw [heq]
    exact hkeep _ (fun i hi => update_of_ne hi ..) hd

theorem RxStep.broken (h : r.Broken) (hs : RxStep C r r') : r'.Broken := by
  cases hs with
  | arrive len ht =>
    obtain ⟨_, rfl⟩ := Rx.arrive_some ht
    exact h
  | intr _ => exact h
  | turn p _ _ hw _ => exact h.turn (works_of_reaches hw)
  | work hs =>
    obtain ⟨⟨live, away, rfl⟩, _⟩ := hs.works
    exact h

/-- Until a kalloc fails the ring is in order, and from then on it is not. -/
def RxRun.Fate (r : RxRun) : Prop := (r.failed = false → r.Inv) ∧ (r.failed = true → r.Broken)

theorem RxRun.pass_failed : (r.pass base idx).failed = r.failed := by
  unfold RxRun.pass
  split <;> rfl

theorem RxRun.Fate.turn (h : r.Fate) (hpc : r.t.pc = some (base, idx))
    (hw : (r.pass base idx).Works r₁) (hnew : p ≠ 0 → p ∉ r₁.live) :
    (r₁.resume base idx p).Fate := by
  have hkept : r₁.failed = r.failed := by
    obtain ⟨⟨live, away, rfl⟩, _⟩ := hw
    exact RxRun.pass_failed
  -- unless the kalloc fails, the record and the ring are as before
  have hsame : (r₁.resume base idx p).failed = r.failed →
      (r.Inv → (r₁.resume base idx p).Inv) → (r₁.resume base idx p).Fate := by
    intro hf hinv
    unfold RxRun.Fate
    rw [hf]
    exact ⟨fun hf => hinv (h.1 hf), fun hf => (h.2 hf).turn hw⟩
  obtain ⟨hstop, hw', heq⟩ | ⟨_, _, _, ⟨hp, heq⟩ | ⟨_, heq⟩⟩ := RxRun.turn_cases p hw
  · refine hsame (heq ▸ hkept) fun hinv => ?_
    rw [heq]
    exact hinv.leave hw' hpc hstop
  · exact hsame (heq ▸ hkept) fun hinv => hinv.turn hpc hp hw (hnew hp)
  refine ⟨fun hf => ?_, fun _ => ?_⟩
  · rw [heq] at hf
    cases hf
  cases hf : r.failed with
  | true => exact (h.2 hf).turn hw
  | false =>
    rw [heq]
    exact .inl ⟨idx, ((h.1 hf).ok.pc base idx hpc).2, update_self ..⟩

theorem RxStep.fate (h : r.Fate) (hs : RxStep C r r') : r'.Fate := by
  -- a step that is not a turn of the loop does not touch `failed`
  have hother : RxStep (· ≠ 0) r r' → r'.failed = r.failed → r'.Fate := by
    intro hs hf
    unfold RxRun.Fate
    rw [hf]
    exact ⟨fun hf => RxStep.inv (h.1 hf) (fun _ hp => hp) hs, fun hf => RxStep.broken (h.2 hf) hs⟩
  cases hs with
  | turn p hpc _ hw hnew => exact h.turn hpc (works_of_reaches hw) hnew
  | arrive len ht => exact hother (.arrive len ht) rfl
  | intr hpc => exact hother (.intr hpc) rfl
  | work hs => exact hother (.work hs) (by cases hs <;> rfl)

/-- The receive ring, with a kalloc that may fail. When e1000_recv has
returned the ring is as it should be exactly if no kalloc in e1000_recv has
failed. -/
theorem rx_ring_survives_iff {pages : Nat → Nat} (hpages : InitPages pages)
    (hr : Reaches (RxStep fun _ => True) (RxRun.init pages) r)
    (hpc : r.t.pc = none) : r.Good ↔ r.failed = false := by
  have h : r.Fate := hr.inv
    ⟨fun _ => RxRun.inv_init hpages, fun hf => nomatch hf⟩
    fun _ _ h hs => RxStep.fate h hs
  constructor
  · intro hgood
    rw [← Bool.not_eq_true]
    intro hf
    cases h.2 hf with
    | inl hslot =>
      obtain ⟨i, hi, hz⟩ := hslot
      exact (hgood.bufs i hi).1 hz
    | inr hcall =>
      obtain ⟨c, hc, hz⟩ := hcall
      exact hgood.calls c hc hz
  · intro hf
    exact (h.1 hf).good hpc

end

/-- net_rx frees the buffer, and kalloc returns it for the same slot. -/
theorem rx_ring_survives_one :
    ∃ r : RxRun, Reaches (RxStep fun _ => True) (RxRun.init (· + 1)) r ∧
      r.t.pc = none ∧ r.delivered = [(1, 60)] ∧ r.t.bufs 0 = 1 ∧ r.Good := by
  have h₁ : Reaches (RxStep fun _ => True) (RxRun.init (· + 1)) _ :=
    (Reaches.refl _).step (.arrive 60 rfl)
  have h₂ := (h₁.step (.intr rfl)).step
    (.turn 1 rfl trivial ((Reaches.refl _).step (.free 1 (by decide)))
      (fun _ => by decide))
  have h₃ := h₂.step
    (.turn 18 rfl trivial (Reaches.refl _) (fun _ => by decide))
  exact ⟨_, h₃, rfl, rfl, rfl,
    (rx_ring_survives_iff initPages_succ h₃ rfl).mpr rfl⟩

/-- One packet, and no page for its slot: the descriptor keeps the page that
net_rx has, RDT stays, and the next interrupt passes a null buffer on. -/
theorem rx_ring_out_of_memory :
    ∃ r r' : RxRun, Reaches (RxStep fun _ => True) (RxRun.init (· + 1)) r ∧
      r.t.pc = none ∧ r.t.bufs 0 = 0 ∧ (r.t.ring 0).addr ∈ r.away ∧
      r.t.rdt = 15 ∧ Reaches (RxStep fun _ => True) r r' ∧ r'.t.pc = none ∧
      r'.delivered = [(1, 60), (0, 60)] := by
  have h₁ : Reaches (RxStep fun _ => True) (RxRun.init (· + 1)) _ :=
    (Reaches.refl _).step (.arrive 60 rfl)
  have h₂ := (h₁.step (.intr rfl)).step
    (.turn 0 rfl trivial (Reaches.refl _) (fun h => absurd rfl h))
  refine ⟨_, _, h₂, rfl, rfl, by decide, rfl,
    ((Reaches.refl _).step (RxStep.intr rfl)).step
      (RxStep.turn 0 rfl trivial (Reaches.refl _) (fun h => absurd rfl h)),
    rfl, rfl⟩

end Xv6Labs.Model
