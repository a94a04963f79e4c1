/-
The list of the buffers is a ring in the order of their releases.

A `Run` records when brelse last made each count 0; `Lru r order` says that
`next` visits the buffers `order` from the head, that `prev` goes the other
way round, and that they are ordered by these times.
-/
import Xv6Labs.Lib.Links
import Xv6Labs.Model.BufferList

namespace Xv6Labs.Model.BufferList

open Lib Function
open Bio (nbuf)

namespace Cache

variable {c : Cache} {b : Nat} {l : List Nat}

-- == pointers

theorem pushFront_ring (h : Seg c.next c.prev head l head) (hl : l.Nodup)
    (hhead : head ∉ l) (hb : b ∉ l) (hne : b ≠ head) :
    Seg (c.pushFront b).next (c.pushFront b).prev head (b :: l) head := by
  have hnext : (update c.next b (c.next head)) head = c.next head := update_of_ne hne.symm ..
  simp only [pushFront, setNext, setPrev, hnext]
  exact h.push hl hhead hhead hb hne hne

/-- `b` has a neighbour that is not `b`: the stores do not meet. -/
theorem unlink_ring {l1 l2 : List Nat} (h : Seg c.next c.prev head (l1 ++ b :: l2) head)
    (hnd : (l1 ++ b :: l2).Nodup) (hhead : head ∉ l1 ++ b :: l2) :
    Seg (c.unlink b).next (c.unlink b).prev head (l1 ++ l2) head := by
  obtain ⟨h1, h2⟩ := seg_append.mp h
  have hsub : (l1 ++ l2).Sublist (l1 ++ b :: l2) := (List.sublist_cons_self b l2).append_left l1
  have hhead' : head ∉ l1 ++ l2 := fun hm => hhead (hsub.subset hm)
  have hself : b ≠ c.next b := by
    intro e
    have hmem := h2.next_mem
    rw [← e, List.mem_append, List.mem_singleton] at hmem
    have hb := (List.nodup_middle.mp hnd)
    rcases hmem with hmem | rfl
    · exact (List.nodup_cons.mp hb).1 (List.mem_append_right l1 hmem)
    · exact hhead (by simp)
  have hprev : update c.prev (c.next b) (c.prev b) b = c.prev b := update_of_ne hself ..
  simp only [unlink, setNext, setPrev, hprev]
  exact h1.cut h2 (hnd.sublist hsub) hhead' hhead'

theorem binit_ring : Seg binit.next binit.prev head (List.range nbuf).reverse head := by
  have hturns : ∀ n, n ≤ nbuf →
      Seg ((List.range n).foldl pushFront empty).next
        ((List.range n).foldl pushFront empty).prev head (List.range n).reverse head := by
    intro n hn
    induction n with
    | zero => exact ⟨rfl, rfl⟩
    | succ n ih =>
      rw [List.range_succ, List.foldl_append, List.reverse_append]
      refine pushFront_ring (ih (by omega))
        (List.nodup_reverse.mpr List.nodup_range) ?_ ?_ (Nat.ne_of_lt hn)
      · simp [head]
        omega
      · simp
  exact hturns nbuf (Nat.le_refl nbuf)

end Cache

-- == the order

/-- The cache and a record of the calls. -/
structure Run where
  cache : Cache
  /-- calls so far -/
  calls : Nat
  /-- the call in which brelse last made the count 0, and 0 for never -/
  freed : Nat → Nat

/-- After binit. -/
def Run.init : Run := ⟨.binit, 0, fun _ => 0⟩

/-- What a call adds to the record, from the cache after it. -/
def Run.record (r : Run) (c : Cache) : Cache.Op → Nat → Nat
  | .brelse b =>
    if c.refcnt b = 0 then update r.freed b (r.calls + 1) else r.freed
  | _ => r.freed

/-- One call; `none` is a panic. -/
def Run.step (r : Run) (op : Cache.Op) : Option Run :=
  (r.cache.step op).map fun c => ⟨c, r.calls + 1, r.record c op⟩

namespace Run

open Cache (binit_ring)

variable {r r' : Run} {b : Nat} {order : List Nat}

/-- The buffers from the head on, the latest release first. -/
structure Lru (r : Run) (order : List Nat) : Prop where
  ring : Seg r.cache.next r.cache.prev head order head
  perm : order.Perm (List.range nbuf)
  sorted : order.Pairwise fun a b => r.freed b < r.freed a ∨ r.freed b = 0
  past : ∀ b, r.freed b ≤ r.calls

theorem Lru.head_not_mem (h : r.Lru order) : head ∉ order := by
  rw [h.perm.mem_iff, List.mem_range]
  exact Nat.lt_irrefl nbuf

theorem Lru.nodup (h : r.Lru order) : order.Nodup := h.perm.nodup_iff.mpr List.nodup_range

theorem init_lru : init.Lru (List.range nbuf).reverse :=
  ⟨binit_ring, List.reverse_perm _,
    List.pairwise_of_forall fun _ _ => .inr rfl, fun _ => Nat.le_refl 0⟩

/-- A call that moves no buffer. -/
theorem Lru.still (h : r.Lru order) {c : Cache} (hnext : c.next = r.cache.next)
    (hprev : c.prev = r.cache.prev) : Lru ⟨c, r.calls + 1, r.freed⟩ order := by
  refine ⟨?_, h.perm, h.sorted, fun b => Nat.le_succ_of_le (h.past b)⟩
  rw [hnext, hprev]
  exact h.ring

/-- The buffer moves to the front, with the time of the release. -/
theorem Lru.moved (h : r.Lru order) {c : Cache} (hb : b < nbuf)
    (hnext : c.next = r.cache.next) (hprev : c.prev = r.cache.prev) :
    ∃ order', Lru ⟨(c.unlink b).pushFront b, r.calls + 1,
      update r.freed b (r.calls + 1)⟩ order' := by
  obtain ⟨l1, l2, rfl⟩ := List.append_of_mem (h.perm.mem_iff.mpr (List.mem_range.mpr hb))
  have hring : Seg c.next c.prev head (l1 ++ b :: l2) head := by
    rw [hnext, hprev]
    exact h.ring
  obtain ⟨hnot, hnd⟩ := List.nodup_cons.mp (List.nodup_middle.mp h.nodup)
  have hhead := h.head_not_mem
  have hhead' : head ∉ l1 ++ l2 := fun hm => hhead (by
    rw [List.perm_middle.mem_iff]
    exact List.mem_cons_of_mem b hm)
  have hcut := Cache.unlink_ring hring h.nodup hhead
  refine ⟨b :: (l1 ++ l2), Cache.pushFront_ring hcut hnd hhead' hnot (Nat.ne_of_lt hb),
    List.perm_middle.symm.trans h.perm, ?_, fun x => ?_⟩
  · let f := update r.freed b (r.calls + 1)
    have hold : ∀ x ∈ l1 ++ l2, f x = r.freed x := fun x hx =>
      update_of_ne (ne_of_mem_of_not_mem hx hnot) ..
    have hself : f b = r.calls + 1 := update_self ..
    show List.Pairwise (fun x y => f y < f x ∨ f y = 0) _
    rw [List.pairwise_cons]
    constructor
    · intro x hx
      rw [hold x hx, hself]
      exact .inl (Nat.lt_succ_of_le (h.past x))
    refine (h.sorted.sublist ((List.sublist_cons_self b l2).append_left l1)).imp_of_mem ?_
    intro x y hx hy hxy
    rw [hold x hx, hold y hy]
    exact hxy
  · have := h.past x
    show update r.freed b (r.calls + 1) x ≤ r.calls + 1
    rw [update_apply]
    split
    · exact Nat.le_refl _
    · omega

/-- The stores of brelse leave the counts alone. -/
theorem brelse_zero (c : Cache) (b : Nat) :
    ((c.brelse b).refcnt b = 0 ∧ c.brelse b =
        ((c.setRefcnt b (c.refcnt b - 1)).unlink b).pushFront b) ∨
      ((c.brelse b).refcnt b ≠ 0 ∧ c.brelse b = c.setRefcnt b (c.refcnt b - 1)) := by
  unfold Cache.brelse
  dsimp only
  split
  · next hzero => exact .inl ⟨hzero, rfl⟩
  · next hmore => exact .inr ⟨hmore, rfl⟩

theorem Lru.step {op : Cache.Op} (h : r.Lru order) (hs : r.step op = some r') :
    ∃ order', r'.Lru order' := by
  obtain ⟨c, hc, rfl⟩ := Option.map_eq_some_iff.mp hs
  cases op with
  | bget dev blockno =>
    obtain ⟨⟨b, c1⟩, hb, rfl⟩ := Option.map_eq_some_iff.mp hc
    unfold Cache.bget at hb
    split at hb
    · cases hb
      exact ⟨order, h.still rfl rfl⟩
    · split at hb
      · cases hb
        exact ⟨order, h.still rfl rfl⟩
      · cases hb
  | fill b =>
    cases hc
    exact ⟨order, h.still rfl rfl⟩
  | brelse b =>
    cases hc
    unfold record
    rcases brelse_zero r.cache b with ⟨hzero, heq⟩ | ⟨hmore, heq⟩
    · dsimp only
      rw [if_pos hzero, heq]
      exact h.moved b.isLt rfl rfl
    · dsimp only
      rw [if_neg hmore, heq]
      exact ⟨order, h.still rfl rfl⟩
  | bpin b =>
    cases hc
    exact ⟨order, h.still rfl rfl⟩
  | bunpin b =>
    cases hc
    exact ⟨order, h.still rfl rfl⟩

theorem lru_of_run {ops : List Cache.Op} (h : ops.foldlM step init = some r) :
    ∃ order, r.Lru order := by
  suffices hrun : ∀ (ops : List Cache.Op) (r0 : Run),
      (∃ order, r0.Lru order) → ops.foldlM step r0 = some r → ∃ order, r.Lru order from
    hrun ops init ⟨_, init_lru⟩ h
  intro ops
  induction ops with
  | nil =>
    rintro r0 h0 ⟨⟩
    exact h0
  | cons op ops ih =>
    rintro r0 ⟨order, h0⟩ h
    rw [List.foldlM_cons] at h
    obtain ⟨r1, h1, h⟩ := Option.bind_eq_some_iff.mp h
    exact ih r1 (h0.step h1) h

-- == what bget finds

/-- A loop of bget goes through the list that its pointers link. -/
theorem find_eq {next back : Nat → Nat} {test : Nat → Bool} {a n : Nat}
    {l : List Nat} (h : Seg next back a l head) (hhead : head ∉ l)
    (hn : l.length < n) : Cache.find next test n (next a) = l.find? test := by
  induction l generalizing a n with
  | nil =>
    obtain ⟨n, rfl⟩ : ∃ m, n = m + 1 := ⟨n - 1, by simp at hn; omega⟩
    rw [Cache.find, if_pos h.1]
    rfl
  | cons x l ih =>
    obtain ⟨n, rfl⟩ : ∃ m, n = m + 1 := ⟨n - 1, by simp at hn; omega⟩
    rw [List.mem_cons, not_or] at hhead
    rw [Cache.find, h.1.1, if_neg (Ne.symm hhead.1), List.find?_cons,
      ih h.2 hhead.2 (by simpa using hn)]
    cases test x with
    | true => rfl
    | false => rfl

theorem Lru.length (h : r.Lru order) : order.length = nbuf := by
  rw [h.perm.length_eq, List.length_range]

/-- bget finds a buffer with the block. -/
theorem Lru.hit_none_iff (h : r.Lru order) (dev blockno : UInt32) :
    r.cache.hit dev blockno = none ↔ ∀ b < nbuf,
      ¬ (r.cache.dev b = dev ∧ r.cache.blockno b = blockno) := by
  rw [Cache.hit, find_eq h.ring h.head_not_mem
    (by rw [h.length]; exact Nat.lt_succ_self _), List.find?_eq_none]
  refine forall_congr' fun b => ?_
  rw [h.perm.mem_iff, List.mem_range]
  simp

/-- A miss takes the last free buffer of the order, if there is any. -/
theorem Lru.miss (h : r.Lru order) {dev blockno : UInt32} (hmiss : r.cache.hit dev blockno = none) :
    ((∀ x < nbuf, r.cache.refcnt x ≠ 0) ∧ r.cache.bget dev blockno = none) ∨
      ∃ b < nbuf, r.cache.refcnt b = 0 ∧ r.cache.bget dev blockno
          = some (b, r.cache.recycle b dev blockno) ∧
        ∀ x < nbuf, r.cache.refcnt x = 0 → x ≠ b → r.freed b < r.freed x ∨ r.freed b = 0 := by
  have hmem : ∀ x, x ∈ order.reverse ↔ x < nbuf := by
    intro x
    rw [List.mem_reverse, h.perm.mem_iff, List.mem_range]
  unfold Cache.bget
  rw [hmiss]
  rw [find_eq h.ring.reverse (by simpa using h.head_not_mem)
    (by rw [List.length_reverse, h.length]; exact Nat.lt_succ_self _)]
  cases hfind : order.reverse.find? fun b => r.cache.refcnt b = 0 with
  | none =>
    refine .inl ⟨fun x hx => ?_, rfl⟩
    simpa using List.find?_eq_none.mp hfind x ((hmem x).mpr hx)
  | some b =>
    obtain ⟨htest, as, bs, hrev, has⟩ := List.find?_eq_some_iff_append.mp hfind
    have hsorted := List.pairwise_reverse.mpr h.sorted
    refine .inr ⟨b, (hmem b).mp (List.mem_of_find?_eq_some hfind),
      of_decide_eq_true htest, rfl, fun x hx h0 hne => ?_⟩
    rw [← hmem, hrev] at hx
    rw [hrev] at hsorted
    rcases List.mem_append.mp hx with hx | hx
    · have := has x hx
      simp [h0] at this
    · have hx := (List.mem_cons.mp hx).resolve_left hne
      exact (List.pairwise_cons.mp (List.pairwise_append.mp hsorted).2.1).1 x hx

-- == the whole list

/-- What following `next` from the head visits. -/
def visited (r : Run) : List Nat := (List.range nbuf).map fun k => r.cache.next^[k + 1] head

theorem Lru.visited (h : r.Lru order) : r.visited = order := by
  refine List.ext_getElem (by simp [Run.visited, h.length]) fun k hk hk' => ?_
  have hit := h.ring.iterate (Nat.le_of_lt hk')
  rw [List.getElem?_append_left hk', List.getElem?_eq_getElem hk'] at hit
  simp only [Run.visited, List.getElem_map, List.getElem_range]
  exact (Option.some.inj hit).symm

/-- All buffers are pinned, and 3 and then 5 are released. -/
def pinned : List Cache.Op :=
  (List.finRange nbuf).map .bpin ++ [.brelse ⟨3, by decide⟩, .brelse ⟨5, by decide⟩]

end Run

end Xv6Labs.Model.BufferList
