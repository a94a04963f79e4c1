/-
Who owns which page in the network stack.

`Net.Owns n qs xs all`: every page of `all` is in exactly one place, held
by the running code (`xs`), in a port's queue, in the transmit ring, or on
the free list. `Net.Same`: nothing that the queues hold has changed.
-/
import Xv6Labs.Lib.Chain
import Xv6Labs.Model.Net

namespace Xv6Labs.Model

open Lib Function

-- == queues

/-- The pointers between pending packets. -/
def Net.nextOf (n : Net) (p : Nat) : Option Nat := (n.nodes p).map (·.next)

/-- The pages of one pending packet. -/
def Net.pagesOf (n : Net) (p : Nat) : List Nat := p :: ((n.nodes p).map (·.data)).toList

/-- The pages of the queues `qs`. -/
def Net.held (n : Net) (qs : List (List Nat)) : List Nat := qs.flatten.flatMap n.pagesOf

/-- The pages of the transmit ring. -/
def Net.txPages (n : Net) : List Nat := ((List.range txRingSize).map n.tx.bufs).filter (· ≠ 0)

/-- A port's queue is the nodes `ps`. -/
structure QueueIs (n : Net) (bp : BoundPort) (ps : List Nat) : Prop where
  chain : Chain n.nextOf bp.head ps
  tail : bp.tail = ps.getLast?.getD 0
  count : bp.pendingCount = ps.length
  short : ps.length ≤ maxPendingPackets

/-- The queues of the ports are `qs`, and their packets are there. -/
structure Net.Queues (n : Net) (qs : List (List Nat)) : Prop where
  length : qs.length = n.ports.length
  queue : ∀ (i : Nat) bp ps, n.ports[i]? = some bp → qs[i]? = some ps → QueueIs n bp ps
  node : ∀ p ∈ qs.flatten, ∃ pk, n.nodes p = some pk ∧ 0 ≤ pk.len ∧ pk.len ≤ pgSize

/-- Every page of `all` is in one place. -/
structure Net.Owns (n : Net) (qs : List (List Nat)) (xs all : List Nat) : Prop where
  perm : (xs ++ n.held qs ++ n.txPages ++ n.phys.freelist).Perm all
  nodup : all.Nodup
  valid : ∀ p ∈ all, n.phys.isPage p
  kend : 0 < n.phys.kend

/-- Nothing that the queues hold has changed. -/
structure Net.Same (n n' : Net) (qs : List (List Nat)) : Prop where
  ports : n'.ports = n.ports
  nodes : ∀ p ∈ qs.flatten, n'.nodes p = n.nodes p
  mem : ∀ p ∈ n.held qs, ∀ a, p ≤ a → a < p + pgSize → n'.phys.mem a = n.phys.mem a

section

variable {n n' n'' : Net} {qs : List (List Nat)} {xs all : List Nat}
  {p x i : Nat}
variable {a r : Nat}

theorem Net.pagesOf_congr (h : n'.nodes p = n.nodes p) : n'.pagesOf p = n.pagesOf p := by
  unfold Net.pagesOf
  rw [h]

theorem Net.held_congr (h : ∀ p ∈ qs.flatten, n'.nodes p = n.nodes p) : n'.held qs = n.held qs := by
  unfold Net.held
  rw [List.flatMap_congr]
  intro p hp
  exact Net.pagesOf_congr (h p hp)

theorem Net.Same.held (h : n.Same n' qs) : n'.held qs = n.held qs := Net.held_congr h.nodes

theorem Net.Same.refl (n : Net) (qs : List (List Nat)) : n.Same n qs :=
  ⟨rfl, fun _ _ => rfl, fun _ _ _ _ _ => rfl⟩

theorem Net.Same.trans (h : n.Same n' qs) (h' : n'.Same n'' qs) : n.Same n'' qs where
  ports := h'.ports.trans h.ports
  nodes p hp := (h'.nodes p hp).trans (h.nodes p hp)
  mem p hp a hle hlt := by
    rw [h'.mem p (h.held.symm ▸ hp) a hle hlt]
    exact h.mem p hp a hle hlt

theorem Net.mem_held_node (hp : p ∈ qs.flatten) : p ∈ n.held qs :=
  List.mem_flatMap.mpr ⟨p, hp, List.mem_cons_self⟩

theorem Net.mem_held_data (hp : p ∈ qs.flatten)
    (hn : n.nodes p = some pk) : pk.data ∈ n.held qs := by
  refine List.mem_flatMap.mpr ⟨p, hp, List.mem_cons_of_mem _ ?_⟩
  rw [hn]
  exact List.mem_singleton_self _

/-- The frame of a queue is its nodes. -/
theorem QueueIs.congr (h : QueueIs n bp ps)
    (hnodes : ∀ p ∈ ps, n'.nodes p = n.nodes p) : QueueIs n' bp ps where
  chain := by
    refine h.chain.congr ?_
    intro p hp
    unfold Net.nextOf
    rw [hnodes p hp]
  tail := h.tail
  count := h.count
  short := h.short

theorem Net.Queues.congr (h : n.Queues qs) (hs : n.Same n' qs) : n'.Queues qs where
  length := by
    rw [hs.ports]
    exact h.length
  queue i bp ps hbp hps := by
    rw [hs.ports] at hbp
    refine (h.queue i bp ps hbp hps).congr ?_
    intro p hp
    exact hs.nodes p (mem_flatten_of_getElem? hps hp)
  node p hp := by
    rw [hs.nodes p hp]
    exact h.node p hp

-- == pages

/-- Two pages do not overlap. -/
theorem Phys.isPage.apart {ph : Phys} (hp : ph.isPage p)
    (hq : ph.isPage q) (hne : p ≠ q) (ha : p ≤ a ∧ a < p + pgSize) :
    ¬ (q ≤ a ∧ a < q + pgSize) := by
  have hp' := hp.1
  have hq' := hq.1
  unfold pgSize at *
  omega

theorem Net.Owns.nodup_all (h : n.Owns qs xs all) :
    (xs ++ n.held qs ++ n.txPages ++ n.phys.freelist).Nodup :=
  h.perm.nodup_iff.mpr h.nodup

theorem Net.Owns.page_of_mem (h : n.Owns qs xs all)
    (hm : p ∈ xs ++ n.held qs ++ n.txPages ++ n.phys.freelist) : n.phys.isPage p :=
  h.valid p (h.perm.mem_iff.mp hm)

theorem Net.Owns.page_held (h : n.Owns qs xs all) (hp : p ∈ n.held qs) : n.phys.isPage p := by
  refine h.page_of_mem ?_
  simp only [List.mem_append]
  exact .inl (.inl (.inr hp))

theorem Net.Owns.page_local (h : n.Owns qs xs all) (hp : p ∈ xs) : n.phys.isPage p := by
  refine h.page_of_mem ?_
  simp only [List.mem_append]
  exact .inl (.inl (.inl hp))

theorem Net.Owns.page_free (h : n.Owns qs xs all) (hp : p ∈ n.phys.freelist) : n.phys.isPage p := by
  refine h.page_of_mem ?_
  simp only [List.mem_append]
  exact .inr hp

theorem Net.Owns.ne_zero (h : n.Owns qs xs all) (hp : n.phys.isPage p) : p ≠ 0 := by
  have hk := h.kend
  have hle := hp.2.1
  omega

theorem Net.Owns.local_apart (h : n.Owns qs xs all) (hx : x ∈ xs) (hp : p ∈ n.held qs) : x ≠ p := by
  intro heq
  have hnd := h.nodup_all
  rw [List.append_assoc, List.append_assoc, List.nodup_append] at hnd
  exact hnd.2.2 x hx p (List.mem_append_left _ hp) heq

theorem Net.Owns.free_apart (h : n.Owns qs xs all)
    (hx : x ∈ n.phys.freelist) (hp : p ∈ n.held qs) : x ≠ p := by
  intro heq
  have hnd := h.nodup_all
  rw [List.nodup_append] at hnd
  refine hnd.2.2 p ?_ x hx heq.symm
  simp only [List.mem_append]
  exact .inl (.inr hp)

theorem Net.Owns.swap (h : n.Owns qs xs all) {ys : List Nat}
    (hp : xs.Perm ys) : n.Owns qs ys all where
  perm := by
    refine List.Perm.trans ?_ h.perm
    exact ((hp.symm.append_right _).append_right _).append_right _
  nodup := h.nodup
  valid := h.valid
  kend := h.kend

/-- Changes inside one page that is not in a queue. -/
theorem Net.Owns.same_of_page (h : n.Owns qs xs all) (hx : n.phys.isPage x)
    (hne : ∀ p ∈ n.held qs, x ≠ p) (hports : n'.ports = n.ports)
    (hnodes : ∀ p, p ≠ x → n'.nodes p = n.nodes p)
    (hmem : ∀ a, ¬ (x ≤ a ∧ a < x + pgSize) → n'.phys.mem a = n.phys.mem a) :
    n.Same n' qs where
  ports := hports
  nodes p hp := hnodes p (hne p (Net.mem_held_node hp)).symm
  mem p hp a hle hlt := by
    refine hmem a ?_
    exact (h.page_held hp).apart hx (hne p hp).symm ⟨hle, hlt⟩

-- == kalloc and kfree

theorem memset_apart {mem : Nat → UInt8} {c : UInt8}
    (h : ¬ (x ≤ a ∧ a < x + pgSize)) : memset mem x c pgSize a = mem a :=
  if_neg h

/-- kalloc returns a page of the free list, or fails and changes nothing. -/
theorem Net.kalloc_cases (n : Net) : (n.phys.freelist = [] ∧ n.kalloc = (none, n)) ∨
    ∃ r n', n.kalloc = (some r, n') ∧ n.phys.freelist = r :: n'.phys.freelist := by
  unfold Net.kalloc Model.kalloc
  cases hf : n.phys.freelist with
  | nil => exact .inl ⟨rfl, rfl⟩
  | cons r rest => exact .inr ⟨r, _, rfl, rfl⟩

theorem Net.kalloc_some (hk : n.kalloc = (some r, n')) :
    n' = { n with phys := { n.phys with
      freelist := n.phys.freelist.tail
      mem := memset n.phys.mem r 5 pgSize } } ∧
      n.phys.freelist = r :: n.phys.freelist.tail := by
  unfold Net.kalloc Model.kalloc at hk
  cases hf : n.phys.freelist with
  | nil =>
    rw [hf] at hk
    cases hk
  | cons r' rest =>
    rw [hf] at hk
    cases hk
    exact ⟨rfl, rfl⟩

theorem Net.kalloc_mem (hk : n.kalloc = (some r, n')) : r ∈ n.phys.freelist := by
  rw [(Net.kalloc_some hk).2]
  exact List.mem_cons_self

/-- Every port has its queue. -/
theorem Net.Queues.at_port {bp : BoundPort} (h : n.Queues qs) (hbp : n.ports[i]? = some bp) :
    ∃ ps, qs[i]? = some ps := by
  have hlt := (List.getElem?_eq_some_iff.mp hbp).1
  rw [← h.length] at hlt
  exact ⟨_, List.getElem?_eq_getElem hlt⟩

theorem Net.Owns.kalloc (h : n.Owns qs xs all)
    (hk : n.kalloc = (some r, n')) :
    n'.Owns qs (r :: xs) all ∧ n.Same n' qs ∧ n.phys.isPage r ∧
      n'.tx = n.tx ∧ n'.nodes = n.nodes ∧
      (∀ a, ¬ (r ≤ a ∧ a < r + pgSize) → n'.phys.mem a = n.phys.mem a) := by
  obtain ⟨rfl, hf⟩ := Net.kalloc_some hk
  have hm := Net.kalloc_mem hk
  have hr : n.phys.isPage r := h.page_free hm
  refine ⟨{ h with perm := ?_ }, ?_, hr, rfl, rfl, fun a ha => memset_apart ha⟩
  · have hperm := h.perm
    rw [hf] at hperm
    exact List.perm_middle.symm.trans hperm
  · exact h.same_of_page hr (fun p hp => h.free_apart hm hp) rfl
      (fun _ _ => rfl) (fun a ha => memset_apart ha)

/-- kfree of a page of the running code succeeds. -/
theorem Net.Owns.kfree (h : n.Owns qs (x :: xs) all) :
    ∃ n', n.kfree x = .ok n' ∧ n'.Owns qs xs all ∧ n.Same n' qs ∧
      n'.phys.freelist = x :: n.phys.freelist ∧ n'.tx = n.tx ∧
      n'.phys.kend = n.phys.kend ∧
      (∀ p, p ≠ x → n'.nodes p = n.nodes p) ∧
      (∀ a, ¬ (x ≤ a ∧ a < x + pgSize) → n'.phys.mem a = n.phys.mem a) := by
  have hx := h.page_local List.mem_cons_self
  have hkf : n.kfree x = .ok
      { n with
        phys := { n.phys with
          freelist := x :: n.phys.freelist
          mem := memset n.phys.mem x 1 pgSize }
        nodes := update n.nodes x none } := by
    unfold Net.kfree Model.kfree
    rw [if_pos hx]
    rfl
  have hne : ∀ p ∈ n.held qs, x ≠ p := fun p hp => h.local_apart List.mem_cons_self hp
  have hnodes : ∀ p, p ≠ x → update n.nodes x none p = n.nodes p := fun p hp => update_of_ne hp ..
  refine ⟨_, hkf, { h with perm := ?_ }, ?_, rfl, rfl, rfl, hnodes, fun a ha => memset_apart ha⟩
  · have hheld : ∀ q : Net, q.nodes = update n.nodes x none → q.held qs = n.held qs := by
      intro q hq
      refine Net.held_congr ?_
      intro p hp
      rw [hq]
      exact hnodes p (hne p (Net.mem_held_node hp)).symm
    refine List.Perm.trans ?_ h.perm
    rw [hheld _ rfl]
    exact List.perm_middle
  · exact h.same_of_page hx hne rfl hnodes (fun a ha => memset_apart ha)

theorem Net.Owns.setMem (h : n.Owns qs xs all) (mem : Nat → UInt8) :
    (n.setMem mem).Owns qs xs all := { h with }

-- == enqueue and dequeue

/-- What a pending packet holds besides its link. -/
def PendingPacket.body (pk : PendingPacket) : Nat × Int × UInt32 × UInt16 :=
  (pk.data, pk.len, pk.srcIp, pk.srcPort)

theorem Net.pagesOf_body (h : (n'.nodes p).map (·.body) = (n.nodes p).map (·.body)) :
    n'.pagesOf p = n.pagesOf p := by
  have hdata : (n'.nodes p).map (·.data) = (n.nodes p).map (·.data) := by
    have hfst := congrArg (Option.map Prod.fst) h
    rw [Option.map_map, Option.map_map] at hfst
    exact hfst
  unfold Net.pagesOf
  rw [hdata]

variable {bp bp' : BoundPort} {ps : List Nat} {pk : PendingPacket} {q : Nat}

/-- One queue is replaced, and the nodes of the others stay. -/
theorem Net.Queues.set (h : n.Queues qs) {ps' : List Nat}
    (hnd : qs.flatten.Nodup) (hps : qs[i]? = some ps)
    (hports : n'.ports = n.ports.set i bp') (hq : QueueIs n' bp' ps')
    (hother : ∀ p ∈ qs.flatten, p ∉ ps → n'.nodes p = n.nodes p)
    (hnode : ∀ p ∈ (qs.set i ps').flatten, ∃ pk, n'.nodes p = some pk ∧
      0 ≤ pk.len ∧ pk.len ≤ pgSize) : n'.Queues (qs.set i ps') where
  length := by
    rw [hports, List.length_set, List.length_set]
    exact h.length
  queue j b ys hb hys := by
    rw [hports] at hb
    by_cases hij : i = j
    · subst hij
      have hlt := (List.getElem?_eq_some_iff.mp hps).1
      rw [List.getElem?_set_self hlt] at hys
      rw [List.getElem?_set_self (h.length ▸ hlt)] at hb
      cases hb
      cases hys
      exact hq
    · rw [List.getElem?_set_ne hij] at hb hys
      refine (h.queue j b ys hb hys).congr ?_
      intro p hp
      refine hother p (mem_flatten_of_getElem? hys hp) ?_
      exact disjoint_of_flatten_nodup hnd hys hps (Ne.symm hij) hp
  node := hnode

theorem Net.Owns.nodup_nodes (h : n.Owns qs xs all) : qs.flatten.Nodup := by
  have hnd := h.nodup_all
  rw [List.append_assoc, List.append_assoc, List.nodup_append] at hnd
  have hheld := (List.nodup_append.mp hnd.2.1).1
  have hsub : qs.flatten.Sublist (n.held qs) := by
    unfold Net.held
    generalize qs.flatten = ps
    induction ps with
    | nil => exact List.Sublist.refl _
    | cons p ps ih =>
      exact (ih.trans (List.sublist_append_right ..)).cons_cons p
  exact hheld.sublist hsub

theorem Net.nextOf_eq (h : n.nodes p = some pk) : n.nextOf p = some pk.next := by
  unfold Net.nextOf
  rw [h]
  rfl

/-- `n'` is `n` with the packet `pk` in page `q` at the end of the queue `ps`
of port `i`. -/
structure Net.Appended (n n' : Net) (qs : List (List Nat)) (i : Nat)
    (bp bp' : BoundPort) (ps : List Nat) (q : Nat) (pk : PendingPacket) :
    Prop where
  phys : n'.phys = n.phys
  tx : n'.tx = n.tx
  ports : n'.ports = n.ports.set i bp'
  port : bp'.port = bp.port
  count : bp'.pendingCount = bp.pendingCount + 1
  tail : bp'.tail = q
  chain : Chain n'.nextOf bp'.head (ps ++ [q])
  node : n'.nodes q = some pk
  other : ∀ p ∈ qs.flatten, p ∉ ps → n'.nodes p = n.nodes p
  body : ∀ p ∈ qs.flatten, (n'.nodes p).map (·.body) = (n.nodes p).map (·.body)

/-- The queue was empty. -/
theorem Net.Queues.enqueue_empty (hps : qs[i]? = some ps)
    (hq : QueueIs n bp ps) (ht : bp.tail = 0) (hqz : q ≠ 0)
    (hqnew : ∀ p ∈ qs.flatten, p ≠ q) (hnext : pk.next = 0) :
    ∃ n' bp', n.enqueue i bp q pk = .ok n' ∧ n.Appended n' qs i bp bp' ps q pk := by
  have hnil : ps = [] := by
    cases hl : ps.getLast? with
    | none => exact List.getLast?_eq_none_iff.mp hl
    | some t =>
      have htail := hq.tail
      rw [hl, ht] at htail
      exact absurd htail.symm (hq.chain.ne_zero (List.mem_of_getLast? hl))
  subst hnil
  have hself : update n.nodes q (some pk) q = some pk := update_self ..
  have hupd : ∀ p ∈ qs.flatten, update n.nodes q (some pk) p = n.nodes p :=
    fun p hp => update_of_ne (hqnew p hp) ..
  refine ⟨_, { bp with head := q, tail := q, pendingCount :=
    bp.pendingCount + 1 }, if_pos ht, ⟨rfl, rfl, rfl, rfl, rfl, rfl, ?_, hself,
    fun p hp _ => hupd p hp, fun p hp => congrArg _ (hupd p hp)⟩⟩
  refine Chain.single hqz ?_
  rw [Net.nextOf_eq hself, hnext]

/-- The last packet of the queue gets a link to the new one. -/
theorem Net.Queues.enqueue_behind (h : n.Queues qs) (hnd : qs.flatten.Nodup)
    (hps : qs[i]? = some ps) (hq : QueueIs n bp ps) (ht : bp.tail ≠ 0)
    (hqz : q ≠ 0) (hqnew : ∀ p ∈ qs.flatten, p ≠ q) (hnext : pk.next = 0) :
    ∃ n' bp', n.enqueue i bp q pk = .ok n' ∧ n.Appended n' qs i bp bp' ps q pk := by
  have hlast : ps.getLast? = some bp.tail := by
    have htail := hq.tail
    cases hl : ps.getLast? with
    | none =>
      rw [hl] at htail
      exact absurd htail ht
    | some t =>
      rw [hl] at htail
      rw [htail]
      rfl
  have htm : bp.tail ∈ ps := List.mem_of_getLast? hlast
  have hin : ∀ p ∈ ps, p ∈ qs.flatten := fun p hp => mem_flatten_of_getElem? hps hp
  have htq : bp.tail ≠ q := hqnew _ (hin _ htm)
  obtain ⟨last, hlastn, _, _⟩ := h.node _ (hin _ htm)
  have hnt : update n.nodes q (some pk) bp.tail = some last := by
    rw [update_of_ne htq, hlastn]
  let n' : Net :=
    { n with
      nodes := update (update n.nodes q (some pk)) bp.tail (some { last with next := q })
      ports := n.ports.set i
        { bp with tail := q, pendingCount := bp.pendingCount + 1 } }
  have hself : n'.nodes q = some pk := by
    show update _ _ _ _ = _
    rw [update_of_ne htq.symm, update_self]
  have htail' : n'.nodes bp.tail = some { last with next := q } := update_self ..
  have hupd : ∀ p ∈ qs.flatten, p ≠ bp.tail → n'.nodes p = n.nodes p := by
    intro p hp hne
    show update _ _ _ _ = _
    rw [update_of_ne hne, update_of_ne (hqnew p hp)]
  refine ⟨n', { bp with tail := q, pendingCount := bp.pendingCount + 1 }, ?_,
    ⟨rfl, rfl, rfl, rfl, rfl, rfl, ?_, hself, ?_, ?_⟩⟩
  · unfold Net.enqueue
    rw [if_neg ht, hnt]
  · refine hq.chain.snoc hlast ?_ hqz ?_ ?_ ?_
    · exact (List.nodup_flatten.mp hnd).1 ps (List.mem_of_getElem? hps)
    · intro p hp hne
      unfold Net.nextOf
      rw [hupd p (hin p hp) hne]
    · rw [Net.nextOf_eq htail']
    · rw [Net.nextOf_eq hself, hnext]
  · intro p hp hn
    exact hupd p hp fun heq => hn (heq ▸ htm)
  intro p hp
  by_cases hpt : p = bp.tail
  · rw [hpt, htail', hlastn]
    rfl
  · rw [hupd p hp hpt]

theorem Net.Appended.queues (ha : n.Appended n' qs i bp bp' ps q pk)
    (h : n.Queues qs) (hnd : qs.flatten.Nodup)
    (hbp : n.ports[i]? = some bp) (hps : qs[i]? = some ps)
    (hroom : ps.length < maxPendingPackets) (hlen : 0 ≤ pk.len)
    (hpage : pk.len ≤ pgSize) : n'.Queues (qs.set i (ps ++ [q])) := by
  refine h.set hnd hps ha.ports ⟨ha.chain, ?_, ?_, ?_⟩ ha.other ?_
  · rw [ha.tail, List.getLast?_concat]
    rfl
  · rw [ha.count, (h.queue i bp ps hbp hps).count, List.length_append]
    rfl
  · rw [List.length_append]
    exact hroom
  intro p hp
  cases List.mem_cons.mp ((flatten_set_snoc hps).mem_iff.mp hp) with
  | inl heq =>
    rw [heq]
    exact ⟨pk, ha.node, hlen, hpage⟩
  | inr hp =>
    obtain ⟨pk0, hpk0, hl, hl'⟩ := h.node p hp
    have hb := ha.body p hp
    rw [hpk0] at hb
    obtain ⟨pk1, hpk1, heq⟩ := Option.map_eq_some_iff.mp hb
    have hlen1 : pk1.len = pk0.len := congrArg (fun b => b.2.1) heq
    exact ⟨pk1, hpk1, hlen1 ▸ hl, hlen1 ▸ hl'⟩

theorem Net.Appended.owns (ha : n.Appended n' qs i bp bp' ps q pk)
    (h : n.Owns qs (q :: pk.data :: xs) all) (hps : qs[i]? = some ps) :
    n'.Owns (qs.set i (ps ++ [q])) xs all := by
  have hheld : (n'.held (qs.set i (ps ++ [q]))).Perm (q :: pk.data :: n.held qs) := by
    refine ((flatten_set_snoc hps).flatMap_right _).trans ?_
    have hown : n'.pagesOf q = [q, pk.data] := by
      unfold Net.pagesOf
      rw [ha.node]
      rfl
    have hrest : qs.flatten.flatMap n'.pagesOf = qs.flatten.flatMap n.pagesOf := by
      rw [List.flatMap_congr]
      intro p hp
      exact Net.pagesOf_body (ha.body p hp)
    rw [List.flatMap_cons, hown, hrest]
    exact List.Perm.refl _
  have htx : n'.txPages = n.txPages := by
    unfold Net.txPages
    rw [ha.tx]
  refine ⟨?_, h.nodup, ha.phys ▸ h.valid, ha.phys ▸ h.kend⟩
  refine List.Perm.trans ?_ h.perm
  rw [htx, ha.phys]
  refine (List.Perm.append_right _ ?_).append_right _
  refine (List.Perm.append_left xs hheld).trans ?_
  exact (List.perm_middle).trans (List.perm_middle.cons q)

/-- A packet in pages of the running code goes to the end of a queue. -/
theorem Net.Owns.enqueue (h : n.Owns qs (q :: pk.data :: xs) all)
    (hqs : n.Queues qs) (hbp : n.ports[i]? = some bp) (hps : qs[i]? = some ps)
    (hnext : pk.next = 0) :
    ∃ n' bp', n.enqueue i bp q pk = .ok n' ∧ n.Appended n' qs i bp bp' ps q pk := by
  have hq := hqs.queue i bp ps hbp hps
  have hqz : q ≠ 0 := h.ne_zero (h.page_local List.mem_cons_self)
  have hqnew : ∀ p ∈ qs.flatten, p ≠ q := fun p hp heq =>
    h.local_apart List.mem_cons_self (Net.mem_held_node hp) heq.symm
  by_cases ht : bp.tail = 0
  · exact Net.Queues.enqueue_empty hps hq ht hqz hqnew hnext
  · exact hqs.enqueue_behind h.nodup_nodes hps hq ht hqz hqnew hnext

theorem Net.Owns.dequeue (h : n.Owns qs xs all) (hqs : n.Queues qs)
    (hbp : n.ports[i]? = some bp) (hps : qs[i]? = some (p :: ps)) (hpk : n.nodes p = some pk) :
    (n.dequeue i bp pk).Queues (qs.set i ps) ∧
      (n.dequeue i bp pk).Owns (qs.set i ps) (p :: pk.data :: xs) all := by
  have hq := hqs.queue i bp _ hbp hps
  obtain ⟨rfl, _, q, hq', hchain⟩ := hq.chain
  have hnext : pk.next = q := by
    unfold Net.nextOf at hq'
    rw [hpk] at hq'
    exact Option.some.inj hq'
  subst hnext
  have hcount := hq.count
  have hshort := hq.short
  rw [List.length_cons] at hcount hshort
  have htail : (if pk.next = 0 then 0 else bp.tail) = ps.getLast?.getD 0 := by
    split
    next hz =>
      rw [(hchain.eq_zero_iff).mp hz]
      rfl
    next hz =>
      rw [hq.tail]
      cases ps with
      | nil => exact absurd hchain hz
      | cons y ys => rfl
  have hnodes : ∀ y ∈ (qs.set i ps).flatten, y ∈ qs.flatten := by
    intro y hy
    exact (flatten_set_tail hps).mem_iff.mpr (List.mem_cons_of_mem _ hy)
  refine ⟨?_, { h with perm := ?_ }⟩
  · refine hqs.set h.nodup_nodes hps rfl ⟨?_, htail, ?_, by omega⟩
      (fun _ _ _ => rfl) (fun y hy => hqs.node y (hnodes y hy))
    · exact hchain.congr fun _ _ => rfl
    · show bp.pendingCount - 1 = ps.length
      omega
  refine List.Perm.trans ?_ h.perm
  have hheld : (n.held qs).Perm (bp.head :: pk.data :: (n.dequeue i bp pk).held (qs.set i ps)) := by
    refine ((flatten_set_tail hps).flatMap_right _).trans ?_
    rw [List.flatMap_cons]
    have hown : n.pagesOf bp.head = [bp.head, pk.data] := by
      unfold Net.pagesOf
      rw [hpk]
      rfl
    rw [hown]
    exact List.Perm.refl _
  refine (List.Perm.append_right _ ?_).append_right _
  refine List.Perm.trans ?_ (List.Perm.append_left xs hheld.symm)
  exact ((List.perm_middle).trans (List.perm_middle.cons _)).symm

end

end Xv6Labs.Model
