/-
The port queues, over every run.

Beside the stack stands a record, for each port, of the packets that should
have been queued and of those that sys_recv has taken: a queue is what is
left of the first without the second (`udp_queues_sound`). Between the
calls the rest of the kernel leaves the pages of the queues alone.
-/
import Xv6Labs.Lib.Overlay
import Xv6Labs.Proofs.NetRx
import Xv6Labs.Proofs.UserCopy

namespace Xv6Labs.Model

open Lib Function

variable {ps : List Nat} {bp' : BoundPort} {len : Int}

-- == the run

/-- The stack, and for each port what was accepted and what was taken. -/
structure NetRun where
  n : Net
  accepted : UInt16 → List Packet
  taken : UInt16 → List Packet

/-- The frame is well formed, its port is bound and has fewer than sixteen
packets pending, and two pages are free. -/
def NetRun.Accepts (r : NetRun) (buf : Nat) (len : Int) : Prop :=
  let port := frameDport r.n.phys.mem buf
  ¬ Malformed r.n.phys.mem buf len ∧
    (findBoundPort r.n.ports port).isSome ∧
    (r.accepted port).length - (r.taken port).length < maxPendingPackets ∧
    2 ≤ r.n.phys.freelist.length

instance (r : NetRun) (buf : Nat) (len : Int) : Decidable (r.Accepts buf len) :=
  inferInstanceAs (Decidable (_ ∧ _ ∧ _ ∧ _))

/-- The record after ip_rx. -/
def NetRun.arrived (r : NetRun) (n : Net) (buf : Nat) (len : Int) : NetRun :=
  let port := frameDport r.n.phys.mem buf
  { r with
    n
    accepted := if r.Accepts buf len then
      update r.accepted port (r.accepted port ++ [framePacket r.n.phys.mem buf])
      else r.accepted }

/-- The record after sys_recv: the first packet of the queue was taken. -/
def NetRun.received (r : NetRun) (n : Net) (port : UInt16) : NetRun :=
  match (findBoundPort r.n.ports port).bind (r.n.ports[·]?) with
  | none => { r with n }
  | some bp =>
    if bp.head = 0 then { r with n }
    else
      { r with
        n
        taken := update r.taken port (r.taken port ++ [r.n.packetAt bp.head]) }

/-- The page table maps no page of a queue. -/
def Net.UserApart (n : Net) (pt : PageTable) : Prop := ∀ qs, n.Queues qs → pt.Apart (n.held qs)

inductive NetStep : NetRun → NetRun → Prop where
  | bind {r : NetRun} (port : Int) : NetStep r { r with n := (sysBind r.n port).2 }
  | recv {r : NetRun} {n : Net} {pt : PageTable} {killed : Bool}
      {dport : Int} {srcArg sportArg buf : Nat} {maxlen ret : Int}
      (hpt : r.n.UserApart pt)
      (h : sysRecv r.n pt killed dport srcArg sportArg buf maxlen = .ok (some (ret, n))) :
      NetStep r (r.received n (toU16 dport))
  /-- ip_rx, with a frame in a page that is in no other place -/
  | rx {r : NetRun} {n : Net} {buf : Nat} {len : Int}
      (hbuf : ∀ qs, r.n.Queues qs → ∃ all, r.n.Owns qs [buf] all)
      (hlen : u64 len ≤ pgSize) (h : ipRx r.n buf len = .ok n) :
      NetStep r (r.arrived n buf len)
  /-- the rest of the kernel -/
  | other {r : NetRun} {n : Net}
      (h : ∀ qs, r.n.Queues qs → r.n.Same n qs ∧ ∃ all, n.Owns qs [] all) :
      NetStep r { r with n }

-- == sys_recv

section

variable {n n' : Net} {qs : List (List Nat)} {all ps : List Nat}
  {p i srcArg sportArg buf : Nat} {pt : PageTable} {bp : BoundPort}
  {pk : PendingPacket} {maxlen : Int}
variable {dport : Int} {port : UInt16}

/-- The copies of sys_recv return, and change user pages only. -/
theorem recvCopies_total (pt : PageTable) (mem : Nat → UInt8)
    (pk : PendingPacket) (srcArg sportArg buf : Nat) (maxlen : Int) :
    ∃ ret mem', recvCopies pt mem pk srcArg sportArg buf maxlen =
        .ok (ret, mem') ∧ ∀ a, pt.Outside a → mem' a = mem a := by
  unfold recvCopies
  obtain ⟨b1, m1, h1, hf1⟩ := copyoutUser_total pt mem srcArg (fun _ => bytes32 pk.srcIp) 4
  rw [h1, ok_bind]
  cases b1 with
  | false => exact ⟨-1, m1, rfl, hf1⟩
  | true =>
    obtain ⟨b2, m2, h2, hf2⟩ := copyoutUser_total pt m1 sportArg (fun _ => bytes16 pk.srcPort) 2
    dsimp only
    rw [h2, ok_bind]
    cases b2 with
    | false => exact ⟨-1, m2, rfl, fun a ha => (hf2 a ha).trans (hf1 a ha)⟩
    | true =>
      dsimp only
      -- the length stays a variable: the kernel must not compute `u64`
      generalize (if maxlen < pk.len then maxlen else pk.len) = copyLen
      generalize u64 copyLen = len
      obtain ⟨b3, m3, h3, hf3⟩ := copyoutUser_total pt m2 buf (fun mem i => mem (pk.data + i)) len
      rw [h3]
      have hf : ∀ a, pt.Outside a → m3 a = mem a := fun a ha =>
        (hf3 a ha).trans ((hf2 a ha).trans (hf1 a ha))
      cases b3 with
      | false => exact ⟨-1, m3, rfl, hf⟩
      | true => exact ⟨copyLen, m3, rfl, hf⟩

/-- The pages of a process are beside those of the queues. -/
theorem PageTable.Apart.outside {ph : Phys} {a : Nat} (h : pt.Apart ps)
    (hp : p ∈ ps) (hpage : ph.isPage p) (ha : p ≤ a ∧ a < p + pgSize) : pt.Outside a := by
  intro m e he hin
  obtain ⟨hal, hne⟩ := h m e he
  have hp' := hpage.1
  have heq : e.pa = p := by
    unfold pgSize at *
    omega
  exact hne (heq ▸ hp)

/-- `n'` is `n` with the first packet of queue `i` taken and its two pages
freed. -/
structure Net.Took (n n' : Net) (qs : List (List Nat)) (all : List Nat)
    (i p data : Nat) (bp : BoundPort) (ps : List Nat) : Prop where
  queues : n'.Queues (qs.set i ps)
  owns : n'.Owns (qs.set i ps) [] all
  freed : n'.phys.freelist = p :: data :: n.phys.freelist
  ports : ∃ bp', n'.ports = n.ports.set i bp' ∧ bp'.port = bp.port
  others : ∀ x ∈ (qs.set i ps).flatten, n'.packetAt x = n.packetAt x

/-- After the copies, whatever they return: both pages go back. -/
theorem Net.Owns.recv_free (mem : Nat → UInt8) (h : n.Owns qs [] all)
    (hqs : n.Queues qs) (hbp : n.ports[i]? = some bp)
    (hps : qs[i]? = some (p :: ps)) (hpk : n.nodes p = some pk)
    (hmem : ∀ x ∈ n.held qs, ∀ a, x ≤ a → a < x + pgSize → mem a = n.phys.mem a) :
    ∃ n1 n', ((n.dequeue i bp pk).setMem mem).kfree pk.data = .ok n1 ∧
      n1.kfree p = .ok n' ∧ n.Took n' qs all i p pk.data bp ps ∧
      ∀ a, ¬ (p ≤ a ∧ a < p + pgSize) →
        ¬ (pk.data ≤ a ∧ a < pk.data + pgSize) → n'.phys.mem a = mem a := by
  obtain ⟨hqs1, hown1⟩ := h.dequeue hqs hbp hps hpk
  have hsub : ∀ x ∈ (qs.set i ps).flatten, x ∈ qs.flatten := by
    intro x hx
    exact (flatten_set_tail hps).mem_iff.mpr (List.mem_cons_of_mem _ hx)
  have hsame0 : (n.dequeue i bp pk).Same ((n.dequeue i bp pk).setMem mem) (qs.set i ps) := by
    refine ⟨rfl, fun _ _ => rfl, ?_⟩
    intro x hx
    refine hmem x ?_
    obtain ⟨y, hy, hxy⟩ := List.mem_flatMap.mp hx
    exact List.mem_flatMap.mpr ⟨y, hsub y hy, hxy⟩
  obtain ⟨n1, hk1, hown2, hsame1, hfree1, _, _, _, hmem1⟩ :=
    ((hown1.swap (List.Perm.swap ..)).setMem mem).kfree
  obtain ⟨n', hk2, hown3, hsame2, hfree2, _, _, _, hmem2⟩ := hown2.kfree
  have hsame := (hsame0.trans hsame1).trans hsame2
  refine ⟨n1, n', hk1, hk2, ⟨hqs1.congr hsame, hown3, ?_, ⟨_, hsame.ports, rfl⟩, ?_⟩, ?_⟩
  · rw [hfree2, hfree1]
    rfl
  · intro x hx
    exact hqs1.packetAt_same hsame hx
  · intro a hp hdata
    rw [hmem2 a hp, hmem1 a hdata]
    rfl

/-- sys_recv on a port with a packet pending. -/
theorem Net.Owns.recv (killed : Bool) (srcArg sportArg buf : Nat)
    (maxlen : Int) (h : n.Owns qs [] all) (hqs : n.Queues qs) (hpt : pt.Apart (n.held qs))
    (hi : findBoundPort n.ports (toU16 dport) = some i)
    (hbp : n.ports[i]? = some bp) (hps : qs[i]? = some (p :: ps)) (hpk : n.nodes p = some pk) :
    ∃ ret mem n', recvCopies pt n.phys.mem pk srcArg sportArg buf maxlen = .ok (ret, mem) ∧
      sysRecv n pt killed dport srcArg sportArg buf maxlen = .ok (some (ret, n')) ∧
      n.Took n' qs all i p pk.data bp ps ∧ ∀ a, ¬ pt.Outside a → n'.phys.mem a = mem a := by
  obtain ⟨ret, mem, hcopy, hframe⟩ := recvCopies_total pt n.phys.mem pk srcArg sportArg buf maxlen
  obtain ⟨hhead, hne, _⟩ := (hqs.queue i bp _ hbp hps).chain
  have hp := mem_flatten_of_getElem? hps List.mem_cons_self
  have hheld := Net.mem_held_data hp hpk
  have hdata : pk.data ≠ 0 := h.ne_zero (h.page_held hheld)
  obtain ⟨n1, n', hk1, hk2, htook, hmem⟩ := h.recv_free mem hqs hbp hps hpk (by
    intro x hx a hle hlt
    exact hframe a (hpt.outside hx (h.page_held hx) ⟨hle, hlt⟩))
  refine ⟨ret, mem, n', hcopy, ?_, htook, ?_⟩
  swap
  · intro a ha
    refine hmem a (fun hin => ha ?_) (fun hin => ha ?_)
    · exact hpt.outside (Net.mem_held_node hp) (h.page_held (Net.mem_held_node hp)) hin
    · exact hpt.outside hheld (h.page_held hheld) hin
  subst hhead
  unfold sysRecv
  simp only [hi, hbp, if_neg hne, hpk]
  have hcopy' : recvCopies pt (n.dequeue i bp pk).phys.mem pk srcArg sportArg
      buf maxlen = .ok (ret, mem) := hcopy
  rw [hcopy']
  show (do
    let n ← (if pk.data ≠ 0 then
      ((n.dequeue i bp pk).setMem mem).kfree pk.data else _)
    let n ← n.kfree bp.head
    pure (some (ret, n))) = _
  rw [if_pos hdata, hk1, ok_bind, hk2]
  rfl

-- == port numbers

section

variable {ports : List BoundPort} {port : UInt16}

theorem map_port_set (hbp : ports[i]? = some bp) (hport : bp'.port = bp.port) :
    (ports.set i bp').map (·.port) = ports.map (·.port) := by
  rw [List.map_set, hport]
  refine List.ext_getElem? ?_
  intro j
  rw [List.getElem?_set]
  split_ifs with hij hlt
  · rw [← hij, List.getElem?_map, hbp]
    rfl
  · rw [← hij, List.getElem?_eq_none (Nat.le_of_not_lt hlt)]
  · rfl

theorem findBoundPort_congr {ports' : List BoundPort}
    (h : ports'.map (·.port) = ports.map (·.port)) :
    findBoundPort ports' port = findBoundPort ports port := by
  have hmap : ∀ ps : List BoundPort, findBoundPort ps port =
      (ps.map (·.port)).findIdx? (· == port) := by
    intro ps
    rw [List.findIdx?_map]
    rfl
  rw [hmap, hmap, h]

theorem findBoundPort_none (h : findBoundPort ports port = none)
    (hbp : ports[i]? = some bp) : bp.port ≠ port := by
  have := List.findIdx?_eq_none_iff.mp h bp (List.mem_of_getElem? hbp)
  simpa using this

theorem port_inj {j : Nat} (hnd : (ports.map (·.port)).Nodup)
    (hbp : ports[i]? = some bp) (hbp' : ports[j]? = some bp') (h : bp'.port = bp.port) : j = i := by
  obtain ⟨hlt, _⟩ := List.getElem?_eq_some_iff.mp hbp'
  refine (List.getElem?_inj ?_ hnd).mp ?_
  · rw [List.length_map]
    exact hlt
  · rw [List.getElem?_map, List.getElem?_map, hbp, hbp']
    exact congrArg some h

theorem findBoundPort_of_get (hnd : (ports.map (·.port)).Nodup)
    (hbp : ports[i]? = some bp) : findBoundPort ports bp.port = some i := by
  cases hf : findBoundPort ports bp.port with
  | none => exact absurd rfl (findBoundPort_none hf hbp)
  | some j =>
    obtain ⟨bp', hbp', hport⟩ := findBoundPort_some hf
    rw [port_inj hnd hbp hbp' hport]

end

-- == the invariant

/-- The queues of the stack are what was accepted and not yet taken. -/
structure NetRun.Inv (r : NetRun) (qs : List (List Nat)) : Prop where
  queues : r.n.Queues qs
  owns : ∃ all, r.n.Owns qs [] all
  ports : (r.n.ports.map (·.port)).Nodup
  ledger : ∀ (i : Nat) bp ps, r.n.ports[i]? = some bp → qs[i]? = some ps →
    r.accepted bp.port = r.taken bp.port ++ ps.map r.n.packetAt
  unbound : ∀ port, findBoundPort r.n.ports port = none → r.accepted port = [] ∧ r.taken port = []

variable {r r' : NetRun}

theorem NetRun.Inv.set {ps' : List Nat} (h : r.Inv qs)
    (hbp : r.n.ports[i]? = some bp) (hports : r'.n.ports = r.n.ports.set i bp')
    (hport : bp'.port = bp.port) (hqs : r'.n.Queues (qs.set i ps'))
    (hown : r'.n.Owns (qs.set i ps') [] all)
    (hpackets : ∀ j ps, j ≠ i → qs[j]? = some ps → ps.map r'.n.packetAt = ps.map r.n.packetAt)
    (hacc : ∀ port, port ≠ bp.port → r'.accepted port = r.accepted port)
    (htaken : ∀ port, port ≠ bp.port → r'.taken port = r.taken port)
    (hled : r'.accepted bp.port =
      r'.taken bp.port ++ ps'.map r'.n.packetAt) : r'.Inv (qs.set i ps') := by
  have hmap := map_port_set hbp hport
  rw [← hports] at hmap
  refine ⟨hqs, ⟨all, hown⟩, by rw [hmap]; exact h.ports, ?_, ?_⟩
  · intro j bp1 ps1 hbp1 hps1
    rw [hports, List.getElem?_set] at hbp1
    rw [List.getElem?_set] at hps1
    split at hbp1
    next hij =>
      subst hij
      rw [if_pos rfl] at hps1
      split at hbp1
      · rw [if_pos] at hps1
        · cases hbp1
          cases hps1
          rw [hport]
          exact hled
        · have hl := h.queues.length
          omega
      · cases hbp1
    next hij =>
      rw [if_neg hij] at hps1
      have hne : bp1.port ≠ bp.port := fun heq =>
        hij (port_inj h.ports hbp hbp1 heq).symm
      rw [hacc _ hne, htaken _ hne, hpackets j ps1 (Ne.symm hij) hps1]
      exact h.ledger j bp1 ps1 hbp1 hps1
  · intro port hnone
    rw [findBoundPort_congr hmap] at hnone
    have hne := findBoundPort_none hnone hbp
    rw [hacc _ hne.symm, htaken _ hne.symm]
    exact h.unbound port hnone

theorem NetRun.Inv.same (h : r.Inv qs) (hs : r.n.Same n qs)
    (hown : n.Owns qs [] all) : NetRun.Inv { r with n } qs where
  queues := h.queues.congr hs
  owns := ⟨all, hown⟩
  ports := by
    rw [hs.ports]
    exact h.ports
  ledger j bp ps hbp hps := by
    have hbp' : r.n.ports[j]? = some bp := hs.ports ▸ hbp
    rw [h.ledger j bp ps hbp' hps]
    refine congrArg _ (List.map_congr_left ?_)
    intro x hx
    exact (h.queues.packetAt_same hs (mem_flatten_of_getElem? hps hx)).symm
  unbound port hnone := by
    refine h.unbound port ?_
    rw [← hs.ports]
    exact hnone

-- == the steps

theorem flatten_concat_nil (qs : List (List Nat)) : (qs ++ [[]]).flatten = qs.flatten := by
  rw [List.flatten_append]
  exact List.append_nil _

/-- Port and queue number `j` after a new port with an empty queue. -/
theorem bound_concat_cases {ports : List BoundPort} {bp0 : BoundPort} {j : Nat}
    (hlen : qs.length = ports.length) (hbp : (ports ++ [bp0])[j]? = some bp)
    (hps : (qs ++ [[]])[j]? = some ps) :
    (ports[j]? = some bp ∧ qs[j]? = some ps) ∨ (bp = bp0 ∧ ps = []) := by
  obtain hbp | ⟨hj, rfl⟩ := getElem?_concat_some hbp
  · obtain hps | ⟨hj, rfl⟩ := getElem?_concat_some hps
    · exact .inl ⟨hbp, hps⟩
    · rw [hj, hlen, List.getElem?_eq_none (Nat.le_refl _)] at hbp
      cases hbp
  · obtain hps | ⟨_, rfl⟩ := getElem?_concat_some hps
    · rw [hj, ← hlen, List.getElem?_eq_none (Nat.le_refl _)] at hps
      cases hps
    · exact .inr ⟨rfl, rfl⟩

/-- A new port has an empty queue. -/
theorem NetRun.Inv.concat (h : r.Inv qs)
    (hf : findBoundPort r.n.ports port = none) :
    NetRun.Inv { r with
      n := { r.n with
        ports := r.n.ports ++ [{ port, pendingCount := 0, head := 0, tail := 0 }] } }
      (qs ++ [[]]) := by
  obtain ⟨all, hown⟩ := h.owns
  have hlen := h.queues.length
  refine ⟨⟨?_, ?_, ?_⟩, ⟨all, ?_⟩, ?_, ?_, ?_⟩
  · dsimp only
    rw [List.length_append, List.length_append, hlen]
    rfl
  · intro j bp ps hbp hps
    obtain ⟨hbp, hps⟩ | ⟨rfl, rfl⟩ := bound_concat_cases hlen hbp hps
    · exact (h.queues.queue j bp ps hbp hps).congr fun _ _ => rfl
    · exact ⟨rfl, rfl, rfl, Nat.zero_le _⟩
  · rw [flatten_concat_nil]
    exact h.queues.node
  · refine { hown with perm := ?_ }
    unfold Net.held
    rw [flatten_concat_nil]
    exact hown.perm
  · dsimp only
    rw [List.map_append, List.nodup_append]
    refine ⟨h.ports, List.nodup_singleton _, ?_⟩
    intro x hx y hy
    obtain ⟨bp, hbp, rfl⟩ := List.mem_map.mp hx
    obtain ⟨j, hj⟩ := List.getElem?_of_mem hbp
    rw [List.mem_singleton.mp hy]
    exact findBoundPort_none hf hj
  · intro j bp ps hbp hps
    obtain ⟨hbp, hps⟩ | ⟨rfl, rfl⟩ := bound_concat_cases hlen hbp hps
    · exact h.ledger j bp ps hbp hps
    · obtain ⟨hacc, htaken⟩ := h.unbound port hf
      rw [hacc, htaken]
      rfl
  · intro port' hnone
    refine h.unbound port' (List.findIdx?_eq_none_iff.mpr ?_)
    intro bp hbp
    exact List.findIdx?_eq_none_iff.mp hnone bp (List.mem_append_left _ hbp)

theorem NetRun.Inv.bind (h : r.Inv qs) (port : Int) :
    ∃ qs', NetRun.Inv { r with n := (sysBind r.n port).2 } qs' := by
  unfold sysBind
  cases hf : findBoundPort r.n.ports (toU16 port) with
  | some i => exact ⟨qs, h⟩
  | none =>
    rw [if_neg (by decide)]
    split
    next => exact ⟨qs, h⟩
    next => exact ⟨qs ++ [[]], h.concat hf⟩

theorem NetRun.Inv.take {data : Nat} (h : r.Inv qs)
    (hbp : r.n.ports[i]? = some bp) (hport : bp.port = port)
    (hps : qs[i]? = some (p :: ps)) (ht : r.n.Took n qs all i p data bp ps) :
    NetRun.Inv { r with
      n
      taken := update r.taken port (r.taken port ++ [r.n.packetAt p]) } (qs.set i ps) := by
  obtain ⟨bp', hports, hport'⟩ := ht.ports
  have hothers : ∀ (j : Nat) ps1, (qs.set i ps)[j]? = some ps1 →
      ps1.map n.packetAt = ps1.map r.n.packetAt := by
    intro j ps1 hps1
    refine List.map_congr_left ?_
    intro x hx
    exact ht.others x (mem_flatten_of_getElem? hps1 hx)
  have hi := (List.getElem?_eq_some_iff.mp hps).1
  refine h.set hbp hports hport' ht.queues ht.owns ?_ (fun _ _ => rfl) ?_ ?_
  · intro j ps1 hj hps1
    refine hothers j ps1 ?_
    rw [List.getElem?_set_ne hj.symm]
    exact hps1
  · intro port' hne
    exact update_of_ne (hport ▸ hne) ..
  · dsimp only
    rw [h.ledger i bp _ hbp hps, hport, update_self,
      hothers i ps (List.getElem?_set_self hi), List.map_cons,
      List.append_assoc, List.singleton_append]

theorem NetRun.Inv.recv {killed : Bool} {ret : Int} (h : r.Inv qs)
    (hpt : r.n.UserApart pt)
    (heq : sysRecv r.n pt killed dport srcArg sportArg buf maxlen =
      .ok (some (ret, n))) : ∃ qs', (r.received n (toU16 dport)).Inv qs' := by
  unfold NetRun.received
  cases hf : findBoundPort r.n.ports (toU16 dport) with
  | none =>
    unfold sysRecv at heq
    rw [hf] at heq
    cases heq
    exact ⟨qs, h⟩
  | some i =>
    obtain ⟨bp, hbp, hport⟩ := findBoundPort_some hf
    obtain ⟨all, hown⟩ := h.owns
    obtain ⟨ps, hps⟩ := h.queues.at_port hbp
    have hq := h.queues.queue i bp _ hbp hps
    rw [Option.bind_some, hbp]
    dsimp only
    cases ps with
    | nil =>
      have hhead : bp.head = 0 := hq.chain
      rw [if_pos hhead]
      unfold sysRecv at heq
      simp only [hf, hbp, if_pos hhead] at heq
      cases killed with
      | false => cases heq
      | true =>
        cases heq
        exact ⟨qs, h⟩
    | cons p ps =>
      obtain ⟨pk, hpk, _⟩ := h.queues.node p (mem_flatten_of_getElem? hps List.mem_cons_self)
      obtain ⟨hhead, hne, _⟩ := hq.chain
      obtain ⟨ret', _, n', _, heq', ht, _⟩ := hown.recv killed srcArg sportArg
        buf maxlen h.queues (hpt qs h.queues) hf hbp hps hpk
      rw [heq'] at heq
      cases heq
      rw [hhead, if_neg hne]
      exact ⟨qs.set i ps, h.take hbp hport hps ht⟩

/-- ip_rx did not queue the frame. -/
theorem NetRun.Inv.arrived_same (h : r.Inv qs) (hno : ¬ r.Accepts buf len)
    (hs : r.n.Same n qs) (hown : n.Owns qs [] all) : (r.arrived n buf len).Inv qs := by
  unfold NetRun.arrived
  dsimp only
  rw [if_neg hno]
  exact h.same hs hown

/-- ip_rx queued the frame. -/
theorem NetRun.Inv.arrived_new {q : Nat} (h : r.Inv qs)
    (hyes : r.Accepts buf len) (hport : bp.port = frameDport r.n.phys.mem buf)
    (hlen : headersLen + (frameUlen r.n.phys.mem buf - udpLen) ≤ pgSize)
    (hacc : r.n.Accepted n qs all buf i q bp bp' ps) :
    (r.arrived n buf len).Inv (qs.set i (ps ++ [q])) := by
  unfold NetRun.arrived
  dsimp only
  rw [if_pos hyes, ← hport]
  have hothers : ∀ (j : Nat) ps1, qs[j]? = some ps1 →
      ps1.map n.packetAt = ps1.map r.n.packetAt := by
    intro j ps1 hps1
    refine List.map_congr_left ?_
    intro x hx
    exact hacc.others x (mem_flatten_of_getElem? hps1 hx)
  refine h.set hacc.bound hacc.ports hacc.port hacc.queues hacc.owns
    (fun j ps1 _ hps1 => hothers j ps1 hps1) ?_ (fun _ _ => rfl) ?_
  · intro port hne
    exact update_of_ne hne ..
  dsimp only
  rw [update_self, h.ledger i bp ps hacc.bound hacc.queue,
    List.map_append, hothers i ps hacc.queue, List.append_assoc]
  show _ = _ ++ (_ ++ [n.packetAt q])
  rw [hacc.packet hlen]

theorem NetRun.Inv.rx (h : r.Inv qs) (hbuf : ∀ qs, r.n.Queues qs → ∃ all, r.n.Owns qs [buf] all)
    (hlen : u64 len ≤ pgSize) (heq : ipRx r.n buf len = .ok n) :
    ∃ qs', (r.arrived n buf len).Inv qs' := by
  obtain ⟨all0, hown0⟩ := h.owns
  obtain ⟨all, hown⟩ := hbuf qs h.queues
  by_cases hmal : Malformed r.n.phys.mem buf len
  · rw [ipRx_malformed hmal] at heq
    cases heq
    exact ⟨qs, h.arrived_same (fun hyes => hyes.1 hmal) (.refl ..) hown0⟩
  rw [ipRx_wellFormed hmal] at heq
  have hfits : headersLen + (frameUlen r.n.phys.mem buf - udpLen) ≤ pgSize := by
    unfold Malformed at hmal
    unfold headersLen udpLen ethLen ipLen at *
    omega
  cases hf : findBoundPort r.n.ports (frameDport r.n.phys.mem buf) with
  | none =>
    rw [hf] at heq
    obtain ⟨n', hk, hdrop⟩ := hown.drop
    rw [show r.n.kfree buf = .ok n from heq] at hk
    cases hk
    refine ⟨qs, h.arrived_same (fun hyes => ?_) hdrop.same hdrop.owns⟩
    have hsome := hyes.2.1
    rw [hf] at hsome
    cases hsome
  | some i =>
    rw [hf] at heq
    dsimp only at heq
    obtain ⟨bp, hbp, hport⟩ := findBoundPort_some hf
    obtain ⟨ps, hps⟩ := h.queues.at_port hbp
    have hpending : (r.accepted bp.port).length - (r.taken bp.port).length = ps.length := by
      rw [h.ledger i bp _ hbp hps, List.length_append, List.length_map]
      omega
    rw [hport] at hpending
    obtain ⟨hno, n', hk, hdrop⟩ | ⟨hyes, hrest⟩ := ipRxPort_spec hown h.queues hbp hps
    · rw [heq] at hk
      cases hk
      refine ⟨qs, h.arrived_same (fun hyes => hno ?_) hdrop.same hdrop.owns⟩
      rw [← hpending]
      exact hyes.2.2
    · obtain ⟨_, n', q, bp', hk, hacc⟩ | ⟨hbig, _⟩ := hrest
      · rw [heq] at hk
        cases hk
        rw [← hpending] at hyes
        exact ⟨_, h.arrived_new ⟨hmal, by rw [hf]; rfl, hyes⟩ hport hfits hacc⟩
      · unfold headersLen udpLen ethLen ipLen at *
        omega

theorem NetRun.Inv.step (h : r.Inv qs) (hs : NetStep r r') : ∃ qs', r'.Inv qs' := by
  cases hs with
  | bind port => exact h.bind port
  | recv hpt heq => exact h.recv hpt heq
  | rx hbuf hlen heq => exact h.rx hbuf hlen heq
  | other hother =>
    obtain ⟨hsame, all, hown⟩ := hother qs h.queues
    exact ⟨qs, h.same hsame hown⟩

/-- Before the first bind. -/
def NetRun.start (n : Net) : NetRun where
  n
  accepted _ := []
  taken _ := []

theorem NetRun.start_inv (hports : n.ports = []) (hown : n.Owns [] [] all) :
    (NetRun.start n).Inv [] where
  queues := by
    refine ⟨?_, ?_, ?_⟩
    · show [].length = n.ports.length
      rw [hports]
      rfl
    · intro i bp ps _ hps
      cases hps
    · intro p hp
      cases hp
  owns := ⟨all, hown⟩
  ports := by
    show (n.ports.map _).Nodup
    rw [hports]
    exact List.nodup_nil
  ledger := by
    intro i bp ps _ hps
    cases hps
  unbound _ _ := ⟨rfl, rfl⟩

theorem NetRun.inv_of_reaches (hports : n.ports = []) (hown : n.Owns [] [] all)
    (hr : Reaches NetStep (NetRun.start n) r) : ∃ qs, r.Inv qs :=
  hr.inv (P := fun r => ∃ qs, r.Inv qs) ⟨[], NetRun.start_inv hports hown⟩
    fun _ _ ⟨_, h⟩ hs => h.step hs

theorem QueueIs.head_eq_zero_iff (h : QueueIs n bp ps) : bp.head = 0 ↔ bp.tail = 0 := by
  rw [h.chain.eq_zero_iff, h.tail]
  constructor
  · intro hnil
    rw [hnil]
    rfl
  intro hz
  cases hl : ps.getLast? with
  | none => exact List.getLast?_eq_none_iff.mp hl
  | some x =>
    rw [hl] at hz
    exact absurd hz (h.chain.ne_zero (List.mem_of_getLast? hl))

/-- Any sys_recv on port `i`, whose queue is `p :: ps`: whatever its copies
return, the packet in `p` is taken and its two pages are freed. -/
def NetRun.Consumes (r : NetRun) (i p : Nat) (bp : BoundPort) (ps : List Nat) : Prop :=
  ∀ pt killed dport srcArg sportArg buf maxlen, toU16 dport = bp.port →
    r.n.UserApart pt → ∃ pk ret mem n' bp', r.n.nodes p = some pk ∧
      recvCopies pt r.n.phys.mem pk srcArg sportArg buf maxlen = .ok (ret, mem) ∧
      sysRecv r.n pt killed dport srcArg sportArg buf maxlen = .ok (some (ret, n')) ∧
      n'.ports[i]? = some bp' ∧ Chain n'.nextOf bp'.head ps ∧
      n'.phys.freelist = p :: pk.data :: r.n.phys.freelist ∧
      (r.received n' bp.port).taken bp.port = r.taken bp.port ++ [r.n.packetAt p]

theorem NetRun.Inv.consumes (h : r.Inv qs) (hbp : r.n.ports[i]? = some bp)
    (hps : qs[i]? = some (p :: ps)) : r.Consumes i p bp ps := by
  intro pt killed dport srcArg sportArg buf maxlen hport hpt
  obtain ⟨all, hown⟩ := h.owns
  obtain ⟨pk, hpk, _⟩ := h.queues.node p (mem_flatten_of_getElem? hps List.mem_cons_self)
  have hf := findBoundPort_of_get h.ports hbp
  obtain ⟨ret, mem, n', hcopy, heq, ht, _⟩ := hown.recv killed srcArg sportArg
    buf maxlen h.queues (hpt qs h.queues) (hport ▸ hf) hbp hps hpk
  obtain ⟨bp', hports, _⟩ := ht.ports
  obtain ⟨hhead, hne, _⟩ := (h.queues.queue i bp _ hbp hps).chain
  have hi := (List.getElem?_eq_some_iff.mp hbp).1
  have hi' := (List.getElem?_eq_some_iff.mp hps).1
  have hbp' : n'.ports[i]? = some bp' := by
    rw [hports]
    exact List.getElem?_set_self hi
  refine ⟨pk, ret, mem, n', bp', hpk, hcopy, heq, hbp', ?_, ht.freed, ?_⟩
  · exact (ht.queues.queue i bp' ps hbp' (List.getElem?_set_self hi')).chain
  unfold NetRun.received
  rw [hf, Option.bind_some, hbp]
  dsimp only
  rw [hhead, if_neg hne]
  exact update_self ..

end

-- == every run

/-- In every run no port number is bound twice, each queue is a list of at
most sixteen packets whose last is the tail and whose length is the count,
and what was accepted for the port is what was taken from it and then what
is queued; sys_recv on a queue that is not empty consumes its first packet. -/
theorem udp_queues_sound {n : Net} {all : List Nat} {r : NetRun}
    (hports : n.ports = []) (hown : n.Owns [] [] all)
    (hr : Reaches NetStep (NetRun.start n) r) :
    (r.n.ports.map (·.port)).Nodup ∧
    ∀ (i : Nat) bp, r.n.ports[i]? = some bp → ∃ ps,
      Chain r.n.nextOf bp.head ps ∧ bp.tail = ps.getLast?.getD 0 ∧
      (bp.head = 0 ↔ bp.tail = 0) ∧
      bp.pendingCount = ps.length ∧ ps.length ≤ maxPendingPackets ∧
      r.accepted bp.port = r.taken bp.port ++ ps.map r.n.packetAt ∧
      ∀ p rest, ps = p :: rest → r.Consumes i p bp rest := by
  obtain ⟨qs, h⟩ := NetRun.inv_of_reaches hports hown hr
  refine ⟨h.ports, ?_⟩
  intro i bp hbp
  obtain ⟨ps, hps⟩ := h.queues.at_port hbp
  have hq := h.queues.queue i bp _ hbp hps
  refine ⟨ps, hq.chain, hq.tail, hq.head_eq_zero_iff, hq.count, hq.short,
    h.ledger i bp _ hbp hps, ?_⟩
  rintro p rest rfl
  exact h.consumes hbp hps

/-- A datagram of one byte, 42, from port 9 of 10.0.2.2 to port 7. -/
def udpFrame : List UInt8 :=
  List.replicate 12 0 ++ [0x08, 0x00] ++ List.replicate 12 0 ++
    [10, 0, 2, 2] ++ List.replicate 4 0 ++ [0, 9, 0, 7, 0, 9, 0, 0, 42]

theorem idleNet_owns_free (frame : List UInt8) :
    (idleNet frame).Owns [] [] [0x87001000, 0x87002000] where
  perm := List.Perm.refl _
  nodup := by decide
  valid p hp := (idleNet_owns frame).valid p (List.mem_cons_of_mem _ hp)
  kend := Nat.zero_lt_succ _

/-- Port 7 is bound and the datagram comes in. -/
theorem udp_queues_sound_datagram :
    ∃ r, Reaches NetStep (NetRun.start (idleNet udpFrame)) r ∧
      r.accepted 7 = [⟨[42], 0x0a000202, 9⟩] ∧
      (∃ bp ps, r.n.ports[0]? = some bp ∧ bp.port = 7 ∧
        Chain r.n.nextOf bp.head ps ∧ ps.length ≤ maxPendingPackets ∧
        r.accepted 7 = r.taken 7 ++ ps.map r.n.packetAt) := by
  have hinv := (NetRun.start_inv rfl (idleNet_owns_free udpFrame)).concat
    (show findBoundPort [] 7 = none from rfl)
  have hbuf : ∀ qs, (sysBind (idleNet udpFrame) 7).2.Queues qs →
      ∃ all, (sysBind (idleNet udpFrame) 7).2.Owns qs [0x87000000] all := by
    intro qs hqs
    have heq : qs = [[]] := hqs.unique hinv.queues
    subst heq
    have h := idleNet_owns udpFrame
    exact ⟨_, h.perm, h.nodup, h.valid, h.kend⟩
  obtain ⟨n, hrx, hport⟩ : ∃ n, ipRx (sysBind (idleNet udpFrame) 7).2
      0x87000000 43 = .ok n ∧ (n.ports[0]?.map (·.port)) = some 7 :=
    ⟨_, rfl, rfl⟩
  have hr : Reaches NetStep (NetRun.start (idleNet udpFrame)) _ :=
    ((Reaches.refl _).step (.bind 7)).step (.rx hbuf (by decide) hrx)
  obtain ⟨bp, hbp, hbp7⟩ := Option.map_eq_some_iff.mp hport
  obtain ⟨ps, hchain, _, _, _, hshort, hled, _⟩ :=
    (udp_queues_sound rfl (idleNet_owns_free udpFrame) hr).2 0 bp hbp
  rw [hbp7] at hled
  exact ⟨_, hr, rfl, bp, ps, hbp, hbp7, hchain, hshort, hled⟩

end Xv6Labs.Model
