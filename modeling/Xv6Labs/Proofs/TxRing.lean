/-
The transmit ring.

The descriptors from TDH up to TDT are the frames that the card has not
finished, and DD is set in every other. A buffer is freed in the call that
refused it, or in the call that takes its slot one lap later. A caller owns
the page it passes.
-/
import Mathlib.Data.List.Nodup
import Xv6Labs.Lib.Overlay
import Xv6Labs.Lib.Window
import Xv6Labs.Model.E1000

namespace Xv6Labs.Model

open Lib Function

-- == the run

/-- A call of e1000_transmit and its result. -/
structure TxCall where
  buf : Nat
  len : Int
  rc : Int

/-- The transmit ring, the card, and a record of what they did. -/
structure TxRun where
  t : Tx
  stage : TxStage
  /-- pages that callers have from kalloc -/
  pages : List Nat
  calls : List TxCall
  /-- the call whose buffer `tx_bufs` has in a slot -/
  held : Nat → Option Nat
  /-- what the card sent -/
  sent : List (Nat × Nat)
  /-- the calls whose buffers were freed -/
  freed : List Nat
  /-- the arguments of kfree -/
  kfrees : List Nat

def TxRun.init : TxRun where
  t := e1000InitTx
  stage := .fetch
  pages := []
  calls := []
  held _ := none
  sent := []
  freed := []
  kfrees := []

/-- The frames of the calls that returned 0. -/
def TxRun.accepted (r : TxRun) : List (Nat × Nat) :=
  (r.calls.filter (·.rc = 0)).map fun c => (c.buf, u16 c.len)

/-- The buffer of a call. -/
def TxRun.bufOf (r : TxRun) (n : Nat) : Nat := (r.calls[n]?.map TxCall.buf).getD 0

/-- The record of a call. -/
def TxRun.call (r : TxRun) (buf : Nat) (len : Int) : TxRun :=
  let res := e1000Transmit r.t buf len
  let n := r.calls.length
  { r with
    t := res.tx
    pages := r.pages.erase buf
    calls := r.calls ++ [⟨buf, len, res.rc⟩]
    held := if res.rc = 0 then update r.held r.t.tdt (some n) else r.held
    freed := r.freed ++ if res.rc = 0 then (r.held r.t.tdt).toList else [n]
    kfrees := r.kfrees ++ res.kfreed }

inductive TxStep : TxRun → TxRun → Prop where
  /-- kalloc gives a page to a caller -/
  | alloc {r : TxRun} {p : Nat} (hp : p ≠ 0) (hpages : p ∉ r.pages)
      (hring : ∀ i, i < txRingSize → r.t.bufs i ≠ p) :
      TxStep r { r with pages := p :: r.pages }
  /-- a caller frees a page of its own -/
  | free {r : TxRun} (p : Nat) : TxStep r { r with pages := r.pages.erase p }
  | transmit {r : TxRun} {b : Nat} (len : Int) (hbuf : b ∈ r.pages) : TxStep r (r.call b len)
  | send {r : TxRun} (hs : r.stage = .fetch) (hne : r.t.tdh ≠ r.t.tdt) :
      TxStep r { r with
        stage := .sent, sent := r.sent ++ [(r.t.ring r.t.tdh).frame] }
  | done {r : TxRun} (hs : r.stage = .sent) : TxStep r { r with stage := .written, t := r.t.done }
  | advance {r : TxRun} (hs : r.stage = .written) :
      TxStep r { r with stage := .fetch, t := r.t.advance }

-- == e1000_transmit

/-- The descriptors that belong to the card. -/
def Tx.owned (t : Tx) : List Nat := window txRingSize t.tdh t.tdt

def Tx.queue (t : Tx) : List (Nat × Nat) := t.owned.map fun i => (t.ring i).frame

/-- The ring and `tx_bufs` fit together. -/
structure Tx.Ok (t : Tx) : Prop where
  tdh_lt : t.tdh < txRingSize
  tdt_lt : t.tdt < txRingSize
  dd : ∀ i, i < txRingSize → i ∉ t.owned → (t.ring i).dd = true
  addr : ∀ i ∈ t.owned, (t.ring i).addr = t.bufs i
  inj : ∀ i j, i < txRingSize → j < txRingSize → t.bufs i ≠ 0 → t.bufs i = t.bufs j → i = j

/-- A page that `tx_bufs` does not have. -/
def Tx.Apart (t : Tx) (p : Nat) : Prop := p ≠ 0 ∧ ∀ i, i < txRingSize → t.bufs i ≠ p

def Tx.full (t : Tx) : Bool := t.tdh == (t.tdt + 1) % txRingSize

/-- The ring after a frame was accepted. -/
def Tx.put (t : Tx) (buf : Nat) (len : Int) : Tx :=
  { t with
    ring := update t.ring t.tdt
      { addr := buf, length := u16 len, cmd := txdCmd, status := 0 }
    bufs := update t.bufs t.tdt buf
    tdt := (t.tdt + 1) % txRingSize }

section

variable {t : Tx} {buf i : Nat} {len : Int}

theorem Tx.Ok.tdt_not_owned (h : t.Ok) : t.tdt ∉ t.owned := end_not_mem_window h.tdh_lt h.tdt_lt

theorem Tx.transmit_full (hf : t.full = true) : e1000Transmit t buf len = ⟨-1, [buf], t⟩ := by
  have hfull : t.tdh = (t.tdt + 1) % txRingSize := eq_of_beq hf
  unfold e1000Transmit
  simp [← hfull]

theorem Tx.full_eq_false (hf : t.full = false) : t.tdh ≠ (t.tdt + 1) % txRingSize := by
  intro heq
  unfold Tx.full at hf
  rw [beq_iff_eq.mpr heq] at hf
  cases hf

/-- The DD bit at TDT is always set: only a full ring refuses. -/
theorem Tx.Ok.transmit_room (h : t.Ok) (hf : t.full = false) :
    e1000Transmit t buf len =
      ⟨0, if t.bufs t.tdt ≠ 0 then [t.bufs t.tdt] else [], t.put buf len⟩ := by
  have hroom := Tx.full_eq_false hf
  have hdd := h.dd t.tdt h.tdt_lt h.tdt_not_owned
  unfold e1000Transmit
  simp [hdd, hroom, Tx.put]

theorem Tx.Ok.put_owned (h : t.Ok) (hf : t.full = false) :
    (t.put buf len).owned = t.owned ++ [t.tdt] :=
  window_push h.tdh_lt h.tdt_lt (Tx.full_eq_false hf)

theorem Tx.Ok.put_ring (h : t.Ok) (hi : i ∈ t.owned) :
    (t.put buf len).ring i = t.ring i ∧ (t.put buf len).bufs i = t.bufs i := by
  have hne : i ≠ t.tdt := fun heq => h.tdt_not_owned (heq ▸ hi)
  exact ⟨update_of_ne hne .., update_of_ne hne ..⟩

theorem Tx.Ok.put (h : t.Ok) (hf : t.full = false) (hb : t.Apart buf) : (t.put buf len).Ok := by
  refine ⟨h.tdh_lt, succ_mod_lt h.tdt_lt, ?_, ?_, ?_⟩
  · intro i hi hn
    rw [h.put_owned hf, List.mem_append, List.mem_singleton, not_or] at hn
    show (update t.ring t.tdt _ i).dd = true
    rw [update_of_ne hn.2]
    exact h.dd i hi hn.1
  · intro i hi
    rw [h.put_owned hf, List.mem_append, List.mem_singleton] at hi
    cases hi with
    | inl hi =>
      have hput : (t.put buf len).ring i = t.ring i ∧ _ := h.put_ring hi
      rw [hput.1, hput.2]
      exact h.addr i hi
    | inr heq =>
      subst heq
      show (update t.ring t.tdt _ t.tdt).addr = update t.bufs t.tdt buf t.tdt
      rw [update_self, update_self]
  · intro i j hi hj
    show update t.bufs t.tdt buf i ≠ 0 → update t.bufs t.tdt buf i = update t.bufs t.tdt buf j →
      i = j
    rw [update_apply, update_apply]
    split
    next heq =>
      split
      next heq' =>
        intro _ _
        rw [heq, heq']
      next =>
        intro _ heq'
        exact absurd heq'.symm (hb.2 j hj)
    next =>
      split
      next =>
        intro _ heq'
        exact absurd heq' (hb.2 i hi)
      next => exact h.inj i j hi hj

theorem Tx.Ok.put_queue (h : t.Ok) (hf : t.full = false) :
    (t.put buf len).queue = t.queue ++ [(buf, u16 len)] := by
  unfold Tx.queue
  rw [h.put_owned hf, List.map_append]
  congr 1
  · refine List.map_congr_left ?_
    intro i hi
    rw [(h.put_ring hi).1]
  · show [(update t.ring t.tdt _ t.tdt).frame] = _
    rw [update_self]
    rfl

-- == the card

theorem Tx.done_ring (t : Tx) (i : Nat) :
    (t.done.ring i).frame = (t.ring i).frame ∧ (t.done.ring i).addr = (t.ring i).addr ∧
      ((t.ring i).dd = true → (t.done.ring i).dd = true) ∧ (t.done.ring t.tdh).dd = true := by
  have hhead : (t.done.ring t.tdh).dd = true := by
    show (update t.ring t.tdh _ t.tdh).dd = true
    rw [update_self]
    unfold TxDesc.dd
    rw [or_and_absorb]
    rfl
  by_cases heq : i = t.tdh
  · subst heq
    refine ⟨?_, ?_, fun _ => hhead, hhead⟩
    · show (update t.ring t.tdh _ t.tdh).frame = _
      rw [update_self]
      rfl
    · show (update t.ring t.tdh _ t.tdh).addr = _
      rw [update_self]
  · have hring : t.done.ring i = t.ring i := update_of_ne heq ..
    rw [hring]
    exact ⟨rfl, rfl, id, hhead⟩

theorem Tx.done_queue (t : Tx) : t.done.queue = t.queue :=
  List.map_congr_left fun i _ => (t.done_ring i).1

theorem Tx.Ok.done (h : t.Ok) : t.done.Ok where
  tdh_lt := h.tdh_lt
  tdt_lt := h.tdt_lt
  dd i hi hn := (t.done_ring i).2.2.1 (h.dd i hi hn)
  addr i hi := ((t.done_ring i).2.1).trans (h.addr i hi)
  inj := h.inj

theorem Tx.Ok.owned_pop (h : t.Ok) (hne : t.tdh ≠ t.tdt) : t.owned = t.tdh :: t.advance.owned :=
  window_pop h.tdh_lt h.tdt_lt hne

theorem Tx.Ok.queue_pop (h : t.Ok) (hne : t.tdh ≠ t.tdt) :
    t.queue = (t.ring t.tdh).frame :: t.advance.queue := by
  unfold Tx.queue
  rw [h.owned_pop hne]
  rfl

theorem Tx.Ok.advance (h : t.Ok) (hne : t.tdh ≠ t.tdt)
    (hdd : (t.ring t.tdh).dd = true) : t.advance.Ok where
  tdh_lt := succ_mod_lt h.tdh_lt
  tdt_lt := h.tdt_lt
  dd i hi hn := by
    by_cases heq : i = t.tdh
    · rw [heq]
      exact hdd
    refine h.dd i hi ?_
    rw [h.owned_pop hne]
    intro hm
    cases List.mem_cons.mp hm with
    | inl heq' => exact heq heq'
    | inr hm => exact hn hm
  addr i hi := by
    refine h.addr i ?_
    rw [h.owned_pop hne]
    exact List.mem_cons_of_mem _ hi
  inj := h.inj

end

-- == the books

/-- Which call each buffer belongs to, and which were freed. -/
structure TxRun.Books (r : TxRun) : Prop where
  pages : ∀ p ∈ r.pages, r.t.Apart p
  nodup : r.pages.Nodup
  empty : ∀ i, i < txRingSize → r.held i = none → r.t.bufs i = 0
  held : ∀ i n, i < txRingSize → r.held i = some n →
    r.t.bufs i ≠ 0 ∧ r.bufOf n = r.t.bufs i ∧ n < r.calls.length ∧ n ∉ r.freed
  once : ∀ i j n, i < txRingSize → j < txRingSize → r.held i = some n → r.held j = some n → i = j
  freed : r.freed.Nodup
  freed_lt : ∀ n ∈ r.freed, n < r.calls.length
  refused : ∀ n c, r.calls[n]? = some c → c.rc ≠ 0 → n ∈ r.freed
  kfrees : r.kfrees = r.freed.map r.bufOf

/-- Frames accepted, frames sent and the queue in between. -/
structure TxRun.Flow (r : TxRun) : Prop where
  flow : ∃ before, r.accepted = before ++ r.t.queue ∧ r.sent = before ++
    if r.stage = .fetch then [] else [(r.t.ring r.t.tdh).frame]
  busy : r.stage ≠ .fetch → r.t.tdh ≠ r.t.tdt
  written : r.stage = .written → (r.t.ring r.t.tdh).dd = true

structure TxRun.Inv (r : TxRun) : Prop where
  ok : r.t.Ok
  flow : r.Flow
  books : r.Books

theorem TxRun.inv_init : TxRun.init.Inv where
  ok :=
    { tdh_lt := by decide
      tdt_lt := by decide
      dd := fun _ _ _ => (by decide : (txdStatDD &&& txdStatDD != 0) = true)
      addr := fun _ _ => rfl
      inj := fun _ _ _ _ h => absurd rfl h }
  flow := ⟨⟨[], rfl, rfl⟩, fun h => absurd rfl h, fun h => nomatch h⟩
  books :=
    { pages := fun _ h => absurd h List.not_mem_nil
      nodup := List.nodup_nil
      empty := fun _ _ _ => rfl
      held := fun _ _ _ h => nomatch h
      once := fun _ _ _ _ _ h => nomatch h
      freed := List.nodup_nil
      freed_lt := fun _ h => absurd h List.not_mem_nil
      refused := fun _ _ h => nomatch h
      kfrees := rfl }

section

variable {r r' : TxRun} {buf : Nat} {len : Int}

theorem TxRun.call_full (h : r.t.full = true) :
    r.call buf len =
      { r with
        pages := r.pages.erase buf
        calls := r.calls ++ [⟨buf, len, -1⟩]
        freed := r.freed ++ [r.calls.length]
        kfrees := r.kfrees ++ [buf] } := by
  unfold TxRun.call
  rw [Tx.transmit_full h]
  rfl

theorem TxRun.call_room (hok : r.t.Ok) (h : r.t.full = false) :
    r.call buf len =
      { r with
        t := r.t.put buf len
        pages := r.pages.erase buf
        calls := r.calls ++ [⟨buf, len, 0⟩]
        held := update r.held r.t.tdt (some r.calls.length)
        freed := r.freed ++ (r.held r.t.tdt).toList
        kfrees := r.kfrees ++ if r.t.bufs r.t.tdt ≠ 0 then [r.t.bufs r.t.tdt] else [] } := by
  unfold TxRun.call
  rw [hok.transmit_room h]
  rfl

/-- A call does not change which buffers the calls before it had. -/
theorem TxRun.bufOf_append {n : Nat} {c : TxCall} (q : TxRun) (hq : q.calls = r.calls ++ [c]) :
    (n < r.calls.length → q.bufOf n = r.bufOf n) ∧ q.bufOf r.calls.length = c.buf := by
  unfold TxRun.bufOf
  rw [hq]
  refine ⟨?_, ?_⟩
  · intro hn
    rw [List.getElem?_append_left hn]
  · rw [List.getElem?_append_right (Nat.le_refl _), Nat.sub_self]
    rfl

theorem TxRun.Books.map_bufOf {c : TxCall} (h : r.Books) (q : TxRun)
    (hq : q.calls = r.calls ++ [c]) : r.freed.map q.bufOf = r.freed.map r.bufOf :=
  List.map_congr_left fun n hn => (TxRun.bufOf_append q hq).1 (h.freed_lt n hn)

theorem TxRun.Books.refuse (h : r.Books) (hf : r.t.full = true) : (r.call buf len).Books := by
  rw [TxRun.call_full hf]
  set q : TxRun := { r with
    pages := r.pages.erase buf
    calls := r.calls ++ [⟨buf, len, -1⟩]
    freed := r.freed ++ [r.calls.length]
    kfrees := r.kfrees ++ [buf] }
  have hcalls : q.calls = r.calls ++ [⟨buf, len, -1⟩] := rfl
  have hlen : q.calls.length = r.calls.length + 1 := by
    rw [List.length_append, List.length_singleton]
  have hnew : r.calls.length ∉ r.freed := fun hm => Nat.lt_irrefl _ (h.freed_lt _ hm)
  refine ⟨fun p hp => h.pages p (List.mem_of_mem_erase hp), h.nodup.erase buf,
    h.empty, ?_, h.once, ?_, ?_, ?_, ?_⟩
  · intro i n hi hn
    obtain ⟨hne, hbuf, hlt, hfr⟩ := h.held i n hi hn
    refine ⟨hne, ((TxRun.bufOf_append q hcalls).1 hlt).trans hbuf, by omega, ?_⟩
    intro hm
    cases List.mem_append.mp hm with
    | inl hm => exact hfr hm
    | inr hm => exact Nat.ne_of_lt hlt (List.mem_singleton.mp hm)
  · exact List.nodup_append.mpr ⟨h.freed, List.nodup_singleton _, by
      intro x hx y hy heq
      rw [heq, List.mem_singleton.mp hy] at hx
      exact hnew hx⟩
  · intro n hn
    cases List.mem_append.mp hn with
    | inl hn => exact Nat.lt_of_lt_of_le (h.freed_lt n hn) (by omega)
    | inr hn =>
      rw [List.mem_singleton.mp hn]
      omega
  · intro n c hc hrc
    by_cases hn : n < r.calls.length
    · rw [List.getElem?_append_left hn] at hc
      exact List.mem_append_left _ (h.refused n c hc hrc)
    · have hlt := (List.getElem?_eq_some_iff.mp hc).1
      have heq : n = r.calls.length := by omega
      rw [heq]
      exact List.mem_append_right _ (List.mem_singleton_self _)
  · show r.kfrees ++ [buf] = (r.freed ++ [r.calls.length]).map q.bufOf
    rw [List.map_append, h.map_bufOf q hcalls, List.map_singleton,
      (TxRun.bufOf_append (n := 0) q hcalls).2, h.kfrees]

theorem TxRun.Books.accept (h : r.Books) (hok : r.t.Ok)
    (hf : r.t.full = false) (hbuf : buf ∈ r.pages) :
    (r.call buf len).Books := by
  rw [TxRun.call_room hok hf]
  set q : TxRun := { r with
    t := r.t.put buf len
    pages := r.pages.erase buf
    calls := r.calls ++ [⟨buf, len, 0⟩]
    held := update r.held r.t.tdt (some r.calls.length)
    freed := r.freed ++ (r.held r.t.tdt).toList
    kfrees := r.kfrees ++ if r.t.bufs r.t.tdt ≠ 0 then [r.t.bufs r.t.tdt] else [] }
  have hcalls : q.calls = r.calls ++ [⟨buf, len, 0⟩] := rfl
  have hlen : q.calls.length = r.calls.length + 1 := by
    rw [List.length_append, List.length_singleton]
  have hheld : ∀ i, q.held i = if i = r.t.tdt then some r.calls.length else r.held i :=
    fun i => update_apply ..
  have hbufs : ∀ i, q.t.bufs i = if i = r.t.tdt then buf else r.t.bufs i := fun i => update_apply ..
  have hfreed : ∀ n, n ∈ q.freed ↔ n ∈ r.freed ∨ r.held r.t.tdt = some n := by
    intro n
    rw [List.mem_append, Option.mem_toList]
  have hlt : ∀ n ∈ q.freed, n < r.calls.length := by
    intro n hn
    cases (hfreed n).mp hn with
    | inl hn => exact h.freed_lt n hn
    | inr hn => exact (h.held _ n hok.tdt_lt hn).2.2.1
  refine ⟨?_, h.nodup.erase buf, ?_, ?_, ?_, ?_, ?_, ?_, ?_⟩
  · intro p hp
    obtain ⟨hne, hm⟩ := h.nodup.mem_erase_iff.mp hp
    refine ⟨(h.pages p hm).1, ?_⟩
    intro i hi
    rw [hbufs]
    split
    · exact Ne.symm hne
    · exact (h.pages p hm).2 i hi
  · intro i hi
    rw [hheld, hbufs]
    split
    · intro hn
      cases hn
    · exact h.empty i hi
  · intro i n hi
    rw [hheld, hbufs]
    split
    next heq =>
      intro hn
      cases hn
      refine ⟨(h.pages buf hbuf).1, (TxRun.bufOf_append (n := 0) q hcalls).2, by omega, ?_⟩
      intro hm
      exact Nat.lt_irrefl _ (hlt _ hm)
    next hne =>
      intro hn
      obtain ⟨hnz, hb, hl, hfr⟩ := h.held i n hi hn
      refine ⟨hnz, ((TxRun.bufOf_append q hcalls).1 hl).trans hb, by omega, ?_⟩
      intro hm
      -- freed now is the buffer of slot TDT, which is another call's
      cases (hfreed n).mp hm with
      | inl hm => exact hfr hm
      | inr hm => exact hne (h.once i _ n hi hok.tdt_lt hn hm)
  · intro i j n hi hj
    rw [hheld, hheld]
    split
    next heq =>
      split
      next heq' =>
        intro _ _
        rw [heq, heq']
      next =>
        intro hn hn'
        cases hn
        exact absurd (h.held j _ hj hn').2.2.1 (Nat.lt_irrefl _)
    next =>
      split
      next =>
        intro hn hn'
        cases hn'
        exact absurd (h.held i _ hi hn).2.2.1 (Nat.lt_irrefl _)
      next => exact h.once i j n hi hj
  · refine List.nodup_append.mpr ⟨h.freed, ?_, ?_⟩
    · cases r.held r.t.tdt with
      | none => exact List.nodup_nil
      | some n => exact List.nodup_singleton n
    · intro x hx y hy heq
      have hy' := Option.mem_toList.mp hy
      exact (h.held _ y hok.tdt_lt hy').2.2.2 (heq ▸ hx)
  · intro n hn
    exact Nat.lt_of_lt_of_le (hlt n hn) (by omega)
  · intro n c hc hrc
    by_cases hn : n < r.calls.length
    · rw [List.getElem?_append_left hn] at hc
      exact List.mem_append_left _ (h.refused n c hc hrc)
    have hlast := (List.getElem?_eq_some_iff.mp hc).1
    have heq : n = r.calls.length := by omega
    rw [heq, List.getElem?_append_right (Nat.le_refl _), Nat.sub_self] at hc
    cases hc
    exact absurd rfl hrc
  · show r.kfrees ++ _ = (r.freed ++ (r.held r.t.tdt).toList).map q.bufOf
    rw [List.map_append, h.map_bufOf q hcalls, h.kfrees]
    congr 1
    cases hn : r.held r.t.tdt with
    | none =>
      rw [h.empty _ hok.tdt_lt hn]
      rfl
    | some n =>
      obtain ⟨hnz, hb, hl, _⟩ := h.held _ n hok.tdt_lt hn
      rw [if_pos hnz, ← hb, ← (TxRun.bufOf_append q hcalls).1 hl]
      rfl

-- == the flow

theorem TxRun.accepted_append (q : TxRun) {rc : Int} (hq : q.calls = r.calls ++ [⟨buf, len, rc⟩]) :
    q.accepted = r.accepted ++ if rc = 0 then [(buf, u16 len)] else [] := by
  unfold TxRun.accepted
  rw [hq, List.filter_append, List.map_append]
  congr 1
  split
  next heq => simp [heq]
  next hne => simp [hne]

theorem Tx.Ok.head_owned {t : Tx} (h : t.Ok) (hne : t.tdh ≠ t.tdt) : t.tdh ∈ t.owned := by
  rw [h.owned_pop hne]
  exact List.mem_cons_self

theorem TxRun.Flow.refuse (h : r.Flow) (hf : r.t.full = true) : (r.call buf len).Flow := by
  rw [TxRun.call_full hf]
  obtain ⟨before, hacc, hsent⟩ := h.flow
  refine ⟨⟨before, ?_, hsent⟩, h.busy, h.written⟩
  rw [TxRun.accepted_append _ rfl, if_neg (by decide), List.append_nil]
  exact hacc

theorem TxRun.Flow.accept (h : r.Flow) (hok : r.t.Ok)
    (hf : r.t.full = false) : (r.call buf len).Flow := by
  rw [TxRun.call_room hok hf]
  obtain ⟨before, hacc, hsent⟩ := h.flow
  -- a descriptor the card is at is not the one written here
  have hhead : r.stage ≠ .fetch → (r.t.put buf len).ring r.t.tdh = r.t.ring r.t.tdh :=
    fun hst => (hok.put_ring (hok.head_owned (h.busy hst))).1
  refine ⟨⟨before, ?_, ?_⟩, ?_, ?_⟩
  · rw [TxRun.accepted_append _ rfl, hacc, List.append_assoc]
    congr 1
    exact (hok.put_queue hf).symm
  · show r.sent = before ++ if r.stage = .fetch then []
      else [((r.t.put buf len).ring r.t.tdh).frame]
    rw [hsent]
    split
    next => rfl
    next hst => rw [hhead hst]
  · intro _ heq
    exact Tx.full_eq_false hf heq
  intro hst
  have hne : r.stage ≠ .fetch := by
    intro heq
    rw [heq] at hst
    cases hst
  show ((r.t.put buf len).ring r.t.tdh).dd = true
  rw [hhead hne]
  exact h.written hst

theorem TxRun.Inv.call (h : r.Inv) (hbuf : buf ∈ r.pages) : (r.call buf len).Inv := by
  cases hf : r.t.full with
  | true =>
    refine ⟨?_, h.flow.refuse hf, h.books.refuse hf⟩
    rw [TxRun.call_full hf]
    exact h.ok
  | false =>
    refine ⟨?_, h.flow.accept h.ok hf, h.books.accept h.ok hf hbuf⟩
    rw [TxRun.call_room h.ok hf]
    exact h.ok.put hf (h.books.pages buf hbuf)

theorem TxStep.inv (h : r.Inv) (hs : TxStep r r') : r'.Inv := by
  obtain ⟨before, hacc, hsent⟩ := h.flow.flow
  have hb := h.books
  cases hs with
  | alloc hp hpages hring =>
    refine ⟨h.ok, ⟨⟨before, hacc, hsent⟩, h.flow.busy, h.flow.written⟩,
      { hb with pages := ?_, nodup := List.nodup_cons.mpr ⟨hpages, hb.nodup⟩ }⟩
    intro x hx
    cases List.mem_cons.mp hx with
    | inl heq =>
      rw [heq]
      exact ⟨hp, hring⟩
    | inr hx => exact hb.pages x hx
  | free p =>
    exact ⟨h.ok, ⟨⟨before, hacc, hsent⟩, h.flow.busy, h.flow.written⟩,
      { hb with
        pages := fun x hx => hb.pages x (List.mem_of_mem_erase hx)
        nodup := hb.nodup.erase p }⟩
  | transmit len hbuf => exact h.call hbuf
  | send hst hne =>
    refine ⟨h.ok, ⟨⟨before, hacc, ?_⟩, fun _ => hne, fun heq => nomatch heq⟩,
      { hb with }⟩
    show r.sent ++ _ = before ++ [_]
    rw [hsent, if_pos hst, List.append_nil]
  | done hst =>
    have hne : r.stage ≠ .fetch := by
      rw [hst]
      exact TxStage.noConfusion
    refine ⟨h.ok.done, ⟨⟨before, ?_, ?_⟩, fun _ => h.flow.busy hne,
        fun _ => (r.t.done_ring 0).2.2.2⟩,
      { hb with }⟩
    · show r.accepted = before ++ r.t.done.queue
      rw [r.t.done_queue]
      exact hacc
    · show r.sent = before ++ [(r.t.done.ring r.t.tdh).frame]
      rw [hsent, if_neg hne, (r.t.done_ring r.t.tdh).1]
  | advance hst =>
    have hne : r.stage ≠ .fetch := by
      rw [hst]
      exact TxStage.noConfusion
    have hbusy := h.flow.busy hne
    refine ⟨h.ok.advance hbusy (h.flow.written hst),
      ⟨⟨before ++ [(r.t.ring r.t.tdh).frame], ?_, ?_⟩,
        fun hn => absurd rfl hn, fun hn => nomatch hn⟩,
      { hb with }⟩
    · show r.accepted = before ++ [_] ++ r.t.advance.queue
      rw [hacc, h.ok.queue_pop hbusy, List.append_assoc]
      rfl
    · show r.sent = before ++ [_] ++ []
      rw [hsent, if_neg hne, List.append_nil]

theorem TxRun.inv_of_reaches (hr : Reaches TxStep TxRun.init r) : r.Inv :=
  hr.inv TxRun.inv_init fun _ _ h hs => TxStep.inv h hs

/-- No buffer that e1000_transmit frees is in a descriptor of the card. -/
theorem TxRun.Inv.kfreed_apart (h : r.Inv) (hbuf : buf ∈ r.pages) {p i : Nat}
    (hp : p ∈ (e1000Transmit r.t buf len).kfreed) (hi : i ∈ r.t.owned) : (r.t.ring i).addr ≠ p := by
  have hlt := lt_of_mem_window h.ok.tdh_lt h.ok.tdt_lt hi
  rw [h.ok.addr i hi]
  cases hf : r.t.full with
  | true =>
    rw [Tx.transmit_full hf, List.mem_singleton] at hp
    rw [hp]
    exact (h.books.pages buf hbuf).2 i hlt
  | false =>
    rw [h.ok.transmit_room hf] at hp
    split at hp
    next hnz =>
      rw [List.mem_singleton] at hp
      intro heq
      rw [hp] at heq
      have hslot := h.ok.inj _ i h.ok.tdt_lt hlt hnz heq.symm
      exact h.ok.tdt_not_owned (hslot ▸ hi)
    next => exact absurd hp List.not_mem_nil

/-- The card sends the frames of the calls that returned 0, in their order,
none skipped or twice, and all of them by the time TDH is TDT. No buffer is
freed while a descriptor of the card has it. No call's buffer is freed
twice, and a refused call's is freed. -/
theorem tx_ring_sound (hr : Reaches TxStep TxRun.init r) :
    r.sent <+: r.accepted ∧
    (r.t.tdh = r.t.tdt → r.sent = r.accepted) ∧
    (∀ buf ∈ r.pages, ∀ len, ∀ p ∈ (e1000Transmit r.t buf len).kfreed,
      ∀ i ∈ r.t.owned, (r.t.ring i).addr ≠ p) ∧
    (∀ n, r.freed.count n ≤ 1) ∧
    (∀ n c, r.calls[n]? = some c → c.rc ≠ 0 → r.freed.count n = 1) ∧
    r.kfrees = r.freed.map r.bufOf := by
  have h := TxRun.inv_of_reaches hr
  obtain ⟨before, hacc, hsent⟩ := h.flow.flow
  refine ⟨?_, ?_, fun buf hbuf len p hp i hi => h.kfreed_apart hbuf hp hi,
    List.nodup_iff_count_le_one.mp h.books.freed, ?_, h.books.kfrees⟩
  · rw [hacc, hsent]
    refine List.prefix_append_right_inj before |>.mpr ?_
    split
    next => exact List.nil_prefix
    next hst =>
      rw [h.ok.queue_pop (h.flow.busy hst)]
      exact List.cons_prefix_cons.mpr ⟨rfl, List.nil_prefix⟩
  · intro heq
    have hst : r.stage = .fetch := by
      by_contra hne
      exact h.flow.busy hne heq
    have hq : r.t.queue = [] := by
      unfold Tx.queue Tx.owned
      rw [heq, window_self h.ok.tdt_lt]
      rfl
    rw [hacc, hsent, if_pos hst, hq]
  · intro n c hc hrc
    exact List.count_eq_one_of_mem h.books.freed (h.books.refused n c hc hrc)

end

/-- Two frames, and the card catches up. -/
theorem tx_ring_sound_two :
    ∃ r : TxRun, Reaches TxStep TxRun.init r ∧ r.t.tdh = 2 ∧
      r.sent = r.accepted ∧ r.accepted = [(4096, 60), (8192, 61)] := by
  have h₁ : Reaches TxStep TxRun.init _ := (Reaches.refl _).step
    (.alloc (p := 4096) (by decide) (by decide) (by decide))
  have h₂ := h₁.step (.alloc (p := 8192) (by decide) (by decide) (by decide))
  have h₃ := h₂.step (.transmit (b := 4096) 60 (by decide))
  have h₄ := h₃.step (.transmit (b := 8192) 61 (by decide))
  have h₅ := h₄.step (.send rfl (by decide))
  have h₆ := (h₅.step (.done rfl)).step (.advance rfl)
  have h₇ := h₆.step (.send rfl (by decide))
  have h₈ := (h₇.step (.done rfl)).step (.advance rfl)
  exact ⟨_, h₈, rfl, (tx_ring_sound h₈).2.1 rfl, rfl⟩

end Xv6Labs.Model
