/-
The shared page registry over sequences of calls.

`Counted` is what the registry is for, and `sharedCalls_counted` the
refinement: the chains show this map after every call, as long as the
counts fit the `int` that holds them. The 2^31st reference to a key turns
its count negative, and later ones count up to a zero that frees a page in
use. The pages of entries are apart from those the callers hand over.
-/
import Xv6Labs.Model.Boot
import Xv6Labs.Proofs.Frames
import Xv6Labs.Proofs.Registry

namespace Xv6Labs.Model

open Lib

variable {ip : Option Nat} {off : Nat} {e : SharedEntry} {s : SharedTab × Phys}
  {cs : List SharedCall}

variable {o : Option SharedEntry} {s' : SharedTab × Phys}
  {addr : Option Nat → Nat}

-- == the calls

/-- A number stored in an `int`. -/
def cInt (n : Int) : Int := n.bmod (2 ^ 32)

/-- The table as it is kept in memory: every `refcnt` is an `int`. -/
def SharedTab.stored (t : SharedTab) : SharedTab :=
  { t with buckets := fun h =>
      (t.buckets h).map fun e => { e with refcnt := cInt e.refcnt } }

/-- `init_shared_tab`. -/
def initSharedTab (addr : Option Nat → Nat) : SharedTab :=
  { addr, buckets := fun _ => [] }

/-- The calls that change the registry. -/
inductive SharedCall
  | get (ip : Option Nat) (off pa : Nat)
  | decref (ip : Option Nat) (off : Nat)
deriving DecidableEq, Repr

def sharedCall (s : SharedTab × Phys) : SharedCall → Except Panic (SharedTab × Phys)
  | .get ip off pa =>
    let (_, t, ph) := sharedGetOrCreate s.1 s.2 ip off pa
    .ok (t.stored, ph)
  | .decref ip off => do
    let (t, ph) ← sharedDecref s.1 s.2 ip off
    pure (t.stored, ph)

/-- Calls one after another, from `init_shared_tab`. -/
def sharedCalls (addr : Option Nat → Nat) (ph : Phys)
    (cs : List SharedCall) : Except Panic (SharedTab × Phys) :=
  cs.foldlM sharedCall (initSharedTab addr, ph)

-- == the counted map

/-- What the map keeps for a key: the gets and decrefs since its entry
was made, the page it was made for, and the page the entry lives in. -/
structure Held where
  gets : Nat
  decrefs : Nat
  pa : Nat
  self : Nat
deriving DecidableEq, Repr

def Held.count (e : Held) : Int := e.gets - e.decrefs

/-- A map of counted entries, and the free pages. -/
structure Counted where
  held : Option Nat × Nat → Option Held
  free : List Nat

/-- The map with one key set, and other free pages. -/
def Counted.set (m : Counted) (k : Option Nat × Nat) (a : Option Held)
    (free : List Nat) : Counted :=
  ⟨Function.update m.held k a, free⟩

/-- A get counts, or makes an entry on a free page if there is one. A
decref counts, and with the last reference frees the entry's page and
the page the entry lives in. -/
def Counted.call (m : Counted) : SharedCall → Counted
  | .get ip off pa =>
    match m.held (ip, off), m.free with
    | some e, free =>
      m.set (ip, off) (some { e with gets := e.gets + 1 }) free
    | none, [] => m
    | none, r :: rest => m.set (ip, off) (some ⟨1, 0, pa, r⟩) rest
  | .decref ip off =>
    match m.held (ip, off) with
    | none => m
    | some e =>
      if e.count = 1 then
        m.set (ip, off) none (e.self :: e.pa :: m.free)
      else
        m.set (ip, off) (some { e with decrefs := e.decrefs + 1 }) m.free

theorem Counted.set_self (m : Counted) (k : Option Nat × Nat) : m.set k (m.held k) m.free = m := by
  unfold Counted.set
  rw [Function.update_eq_self]

def Counted.run (free : List Nat) (cs : List SharedCall) : Counted :=
  cs.foldl Counted.call ⟨fun _ => none, free⟩

-- == chains

/-- No chain holds a key twice, and each key is in the chain its hash
names. -/
structure SharedTab.Chains (t : SharedTab) : Prop where
  wf : t.Wf
  hash : ∀ h, ∀ k ∈ (t.buckets h).map (fun e => (e.ip, e.off)), t.hash k.1 k.2 = h

variable {t t' : SharedTab} {ph ph' : Phys} {m : Counted}

theorem SharedTab.Chains.init (addr : Option Nat → Nat) : (initSharedTab addr).Chains :=
  ⟨fun _ => List.nodup_nil, fun _ _ hk => by cases hk⟩

/-- One chain replaced by another with keys of the same hash. -/
theorem SharedTab.Chains.setBucket (hc : t.Chains) {h : Nat}
    {c : List SharedEntry} (hn : (c.map fun e => (e.ip, e.off)).Nodup)
    (hh : ∀ k ∈ c.map (fun e => (e.ip, e.off)), t.hash k.1 k.2 = h) : (t.setBucket h c).Chains := by
  refine ⟨hc.wf.setBucket hn, fun h' k hk => ?_⟩
  by_cases heq : h' = h
  · rw [heq, setBucket_self] at hk
    rw [heq]
    exact hh k hk
  · rw [setBucket_of_ne t c heq] at hk
    exact hc.hash h' k hk

theorem SharedTab.Chains.updFirst (hc : t.Chains) (ip : Option Nat)
    (off : Nat) (f : SharedEntry → SharedEntry) (hf : ∀ e, (f e).ip = e.ip ∧ (f e).off = e.off) :
    (t.setBucket (t.hash ip off) (Model.updFirst ip off f (t.buckets (t.hash ip off)))).Chains := by
  refine hc.setBucket ?_ ?_
  · rw [updFirst_keys hf]
    exact hc.wf _
  · rw [updFirst_keys hf]
    exact hc.hash _

theorem SharedTab.Chains.erase (hc : t.Chains) (ip : Option Nat) (off : Nat) :
    (t.setBucket (t.hash ip off) ((t.buckets (t.hash ip off)).eraseP
      fun e => e.isFor ip off)).Chains := by
  have hsub := (List.eraseP_sublist (p := fun e => e.isFor ip off)
    (l := t.buckets (t.hash ip off))).map fun e => (e.ip, e.off)
  exact hc.setBucket ((hc.wf _).sublist hsub) fun k hk => hc.hash _ k (hsub.subset hk)

theorem SharedTab.Chains.insert (hc : t.Chains)
    (hl : t.lookup e.ip e.off = none) : (t.insert e).Chains := by
  refine hc.setBucket (hc.wf.cons hl) fun k hk => ?_
  rw [List.map_cons, List.mem_cons] at hk
  rcases hk with rfl | hk
  · rfl
  · exact hc.hash _ k hk

-- == the stored table

theorem cInt_of_lt {n : Int} (h0 : 0 ≤ n) (h : n < 2 ^ 31) : cInt n = n :=
  Int.bmod_eq_of_le (by omega) (by omega)

theorem cInt_lt (n : Int) : cInt n < 2 ^ 31 := Int.bmod_lt (by decide)

theorem stored_keys (t : SharedTab) (h : Nat) :
    (t.stored.buckets h).map (fun e => (e.ip, e.off))
      = (t.buckets h).map fun e => (e.ip, e.off) := by
  simp only [SharedTab.stored, List.map_map]
  rfl

theorem SharedTab.Chains.stored (hc : t.Chains) : t.stored.Chains := by
  refine ⟨fun h => ?_, fun h k hk => ?_⟩
  · rw [stored_keys]
    exact hc.wf h
  · rw [stored_keys] at hk
    exact hc.hash h k hk

theorem lookup_stored (t : SharedTab) (ip : Option Nat) (off : Nat) :
    t.stored.lookup ip off = (t.lookup ip off).map fun e => { e with refcnt := cInt e.refcnt } := by
  show List.find? _ (List.map _ _) = _
  rw [List.find?_map]
  rfl

-- == refinement

/-- What an entry shows: its count, its page and its storage. -/
def SharedEntry.view (e : SharedEntry) : Int × Nat × Nat := (e.refcnt, e.pa, e.self)

def Held.view (e : Held) : Int × Nat × Nat := (e.count, e.pa, e.self)

/-- The table and the free list show the map. -/
structure Shows (s : SharedTab × Phys) (m : Counted) : Prop where
  chains : s.1.Chains
  view : ∀ ip off, (s.1.lookup ip off).map SharedEntry.view = (m.held (ip, off)).map Held.view
  pos : ∀ k e, m.held k = some e → 0 < e.count
  free : s.2.freelist = m.free

/-- Every count fits an `int`. -/
def Counted.Fits (m : Counted) : Prop := ∀ k e, m.held k = some e → e.count < 2 ^ 31

theorem Shows.absent (hs : Shows (t, ph) m) (h : t.lookup ip off = none) :
    m.held (ip, off) = none := by
  have hv := hs.view ip off
  rw [h] at hv
  exact Option.map_eq_none_iff.mp hv.symm

theorem Shows.present (hs : Shows (t, ph) m) (h : t.lookup ip off = some e) :
    ∃ a, m.held (ip, off) = some a ∧ e.refcnt = a.count ∧ e.pa = a.pa ∧ e.self = a.self := by
  have hv := hs.view ip off
  rw [h] at hv
  obtain ⟨a, ha, hview⟩ := Option.map_eq_some_iff.mp hv.symm
  simp only [Held.view, SharedEntry.view, Prod.mk.injEq] at hview
  exact ⟨a, ha, hview.1.symm, hview.2.1.symm, hview.2.2.symm⟩

/-- One key of the table and of the map set to the same; the count is
stored as it is because it fits. -/
theorem Shows.update (hs : Shows (t, ph) m) (hc : t'.Chains) (ip : Option Nat) (off : Nat)
    {a : Option Held} {free : List Nat}
    (hl : ∀ ip' off', t'.lookup ip' off' = if ip' = ip ∧ off' = off then o else t.lookup ip' off')
    (hv : o.map SharedEntry.view = a.map Held.view) (hpos : ∀ e, a = some e → 0 < e.count)
    (hfits : (m.set (ip, off) a free).Fits) (hfree : ph'.freelist = free) :
    Shows (t'.stored, ph') (m.set (ip, off) a free) := by
  have hview : ∀ ip' off', (t'.lookup ip' off').map SharedEntry.view
      = (Function.update m.held (ip, off) a (ip', off')).map Held.view := by
    intro ip' off'
    rw [hl, Function.update_apply]
    by_cases hk : ip' = ip ∧ off' = off
    · rw [if_pos hk, if_pos (Prod.ext hk.1 hk.2), hv]
    · rw [if_neg hk, if_neg fun heq => hk (Prod.mk.inj heq), hs.view]
  have hpos' : ∀ k e, Function.update m.held (ip, off) a k = some e → 0 < e.count := by
    intro k e he
    rw [Function.update_apply] at he
    split at he
    · exact hpos e he
    · exact hs.pos k e he
  refine ⟨hc.stored, fun ip' off' => ?_, hpos', hfree⟩
  rw [lookup_stored, Option.map_map]
  refine Eq.trans ?_ (hview ip' off')
  cases hx : t'.lookup ip' off' with
  | none => rfl
  | some e =>
    -- the count of the map is in the range of an int
    have hshow := hview ip' off'
    rw [hx] at hshow
    obtain ⟨b, hb, hbv⟩ := Option.map_eq_some_iff.mp hshow.symm
    have hcount : b.count = e.refcnt := congrArg Prod.fst hbv
    have hfit := hfits (ip', off') b hb
    have hp := hpos' (ip', off') b hb
    simp only [Option.map_some, Function.comp, SharedEntry.view]
    rw [cInt_of_lt (by omega) (by omega)]

/-- Nothing done. -/
theorem Shows.stored (hs : Shows (t, ph) m) (hfits : m.Fits) : Shows (t.stored, ph) m := by
  have hset := m.set_self (none, 0)
  rw [← hset] at hfits ⊢
  refine hs.update hs.chains none 0 (fun ip' off' => ?_) (hs.view none 0)
    (fun e he => hs.pos _ e he) hfits hs.free
  split
  · next hk => rw [hk.1, hk.2]
  · rfl

theorem get_shows (hs : Shows (t, ph) m) {pa : Nat} (hfits : (m.call (.get ip off pa)).Fits)
    (h : sharedGetOrCreate t ph ip off pa = (o, t', ph')) :
    Shows (t'.stored, ph') (m.call (.get ip off pa)) := by
  rcases sharedGetOrCreate_cases h with
    ⟨e, hl, _, rfl, rfl⟩ | ⟨hl, rfl, rfl, rfl⟩ | ⟨self, hl, ha, _, rfl⟩
  · obtain ⟨a, ha, hcount, hpa, hself⟩ := hs.present hl
    have hpos := hs.pos _ _ ha
    have hcall : m.call (.get ip off pa)
        = m.set (ip, off) (some { a with gets := a.gets + 1 }) m.free := by
      simp only [Counted.call, ha]
    have hup : ({ a with gets := a.gets + 1 } : Held).count = a.count + 1 := by
      simp only [Held.count]
      omega
    rw [hcall] at hfits ⊢
    have hc : (t.incref ip off).Chains := hs.chains.updFirst ip off _ fun _ => ⟨rfl, rfl⟩
    refine hs.update hc ip off (o := some { e with refcnt := e.refcnt + 1 }) (fun ip' off' => ?_) ?_
      (fun b hb => ?_) hfits hs.free
    · rw [lookup_incref]
      split
      · next hk => rw [hk.1, hk.2, hl]; rfl
      · rfl
    · simp only [Option.map_some, SharedEntry.view, Held.view, hup, hcount, hpa, hself]
    · cases hb
      omega
  · have ha := hs.absent hl
    have hcall : m.call (.get ip off pa) = m := by
      cases hf : m.free with
      | nil => simp only [Counted.call, ha, hf]
      | cons r rest =>
        -- the allocation would have succeeded
        have hfree : ph'.freelist = r :: rest := hs.free.trans hf
        simp [sharedGetOrCreate, hl, kalloc, hfree] at h
    rw [hcall] at hfits ⊢
    exact hs.stored hfits
  · have habs := hs.absent hl
    have hnil : m.free = self :: ph'.freelist := by
      rw [← hs.free]
      exact (kalloc_some ha).1
    have hcall : m.call (.get ip off pa)
        = m.set (ip, off) (some ⟨1, 0, pa, self⟩) ph'.freelist := by
      simp only [Counted.call, habs, hnil]
    rw [hcall] at hfits ⊢
    refine hs.update (hs.chains.insert (e := ⟨ip, off, pa, 1, self⟩) hl) ip off
      (fun ip' off' => lookup_insert ip' off') rfl (fun b hb => ?_) hfits rfl
    cases hb
    exact Int.one_pos

theorem decref_shows (hs : Shows (t, ph) m) (hfits : (m.call (.decref ip off)).Fits)
    (h : sharedDecref t ph ip off = .ok (t', ph')) :
    Shows (t'.stored, ph') (m.call (.decref ip off)) := by
  have hlook := sharedDecref_lookup hs.chains.wf h
  rcases sharedDecref_cases h with
    ⟨hl, rfl, rfl⟩ | ⟨e, hl, ⟨hne, rfl, rfl⟩ | ⟨hone, ⟨ph1, h1, h2⟩, rfl⟩⟩
  · have hcall : m.call (.decref ip off) = m := by
      simp only [Counted.call, hs.absent hl]
    rw [hcall] at hfits ⊢
    exact hs.stored hfits
  · obtain ⟨a, ha, hcount, hpa, hself⟩ := hs.present hl
    have hpos := hs.pos _ _ ha
    have hcall : m.call (.decref ip off)
        = m.set (ip, off) (some { a with decrefs := a.decrefs + 1 }) m.free := by
      simp only [Counted.call, ha]
      rw [if_neg (by omega)]
    have hdown : ({ a with decrefs := a.decrefs + 1 } : Held).count = a.count - 1 := by
      simp only [Held.count]
      omega
    rw [hcall] at hfits ⊢
    have hc := hs.chains.updFirst ip off
      (fun e => { e with refcnt := e.refcnt - 1 }) fun _ => ⟨rfl, rfl⟩
    refine hs.update hc ip off hlook ?_ (fun b hb => ?_) hfits hs.free
    · rw [hl, Option.bind_some, if_neg hne]
      simp only [Option.map_some, SharedEntry.view, Held.view, hdown, hcount, hpa, hself]
    · cases hb
      omega
  · obtain ⟨a, ha, hcount, hpa, hself⟩ := hs.present hl
    have hcall : m.call (.decref ip off) = m.set (ip, off) none (a.self :: a.pa :: m.free) := by
      simp only [Counted.call, ha]
      rw [if_pos (by omega)]
    rw [hcall] at hfits ⊢
    refine hs.update (hs.chains.erase ip off) ip off hlook ?_ (fun b hb => by cases hb) hfits ?_
    · simp only [hl, Option.bind_some, if_pos hone, Option.map_none]
    · obtain ⟨_, rfl⟩ := kfree_ok h1
      obtain ⟨_, rfl⟩ := kfree_ok h2
      rw [hpa, hself, hs.free]

/-- One call of the code is one call of the map. -/
theorem sharedCall_shows {c : SharedCall}
    (hs : Shows s m) (hfits : (m.call c).Fits) (h : sharedCall s c = .ok s') :
    Shows s' (m.call c) := by
  cases c with
  | get ip off pa =>
    cases h
    exact get_shows hs hfits rfl
  | decref ip off =>
    obtain ⟨⟨t, ph⟩, h1, h⟩ := bind_ok h
    cases h
    exact decref_shows hs hfits h1

/-- Calls of the code are calls of the map while the counts fit. -/
theorem sharedCalls_shows (hs : Shows s m)
    (hfits : ∀ done, done <+: cs → ∀ s', done.foldlM sharedCall s = .ok s' →
      (done.foldl Counted.call m).Fits) (h : cs.foldlM sharedCall s = .ok s') :
    Shows s' (cs.foldl Counted.call m) := by
  induction cs generalizing s m with
  | nil =>
    cases h
    exact hs
  | cons c cs ih =>
    obtain ⟨s1, h1, h⟩ := bind_ok h
    have hone : (m.call c).Fits := by
      refine hfits [c] (List.prefix_append [c] cs) s1 ?_
      rw [List.foldlM_cons, h1]
      rfl
    refine ih (sharedCall_shows hs hone h1) (fun done hd s2 h2 => ?_) h
    refine hfits (c :: done) (List.cons_prefix_cons.mpr ⟨rfl, hd⟩) s2 ?_
    rw [List.foldlM_cons, h1]
    exact h2

theorem Shows.init (addr : Option Nat → Nat) (ph : Phys) :
    Shows (initSharedTab addr, ph) ⟨fun _ => none, ph.freelist⟩ :=
  ⟨.init addr, fun _ _ => rfl, fun _ _ he => (by cases he), rfl⟩

/-- A count read from the table is an `int`. -/
theorem refcnt_lt (h : sharedCalls addr ph cs = .ok s) (hl : s.1.lookup ip off = some e) :
    e.refcnt < 2 ^ 31 := by
  have hstored : ∀ t : SharedTab, t.stored.lookup ip off = some e → e.refcnt < 2 ^ 31 := by
    intro t ht
    rw [lookup_stored] at ht
    obtain ⟨a, _, rfl⟩ := Option.map_eq_some_iff.mp ht
    exact cInt_lt _
  cases cs using List.reverseRecOn with
  | nil =>
    cases h
    cases hl
  | append_singleton cs c =>
    unfold sharedCalls at h
    rw [List.foldlM_append] at h
    obtain ⟨s1, _, h⟩ := bind_ok h
    obtain ⟨s2, h2, h⟩ := bind_ok h
    cases h
    cases c with
    | get ip off pa =>
      cases h2
      exact hstored _ hl
    | decref ip off =>
      obtain ⟨⟨t, ph⟩, _, h2⟩ := bind_ok h2
      cases h2
      exact hstored _ hl

theorem Shows.fits (hs : Shows s m) (h : sharedCalls addr ph cs = .ok s) : m.Fits := by
  intro k a ha
  have hv := hs.view k.1 k.2
  rw [ha] at hv
  obtain ⟨e, he, hview⟩ := Option.map_eq_some_iff.mp hv
  have hcount : e.refcnt = a.count := congrArg Prod.fst hview
  rw [← hcount]
  exact refcnt_lt h he

-- == the calls return

theorem stored_pages (t : SharedTab) (x : Nat) : t.stored.pages x = t.pages x := by
  refine Finset.sum_congr rfl fun h _ => ?_
  simp only [SharedTab.stored, List.map_map]
  rfl

/-- The pages of the table and of the free list are pages. -/
def Paged (s : SharedTab × Phys) : Prop :=
  ∀ x, 0 < s.1.pages x + s.2.freelist.count x → s.2.isPage x

theorem sharedCall_paged {c : SharedCall} (hs : Paged s)
    (hc : ∀ ip off pa, c = .get ip off pa → s.2.isPage pa) :
    ∃ s', sharedCall s c = .ok s' ∧ Paged s' ∧ s'.2.kend = s.2.kend := by
  obtain ⟨t, ph⟩ := s
  cases c with
  | get ip off pa =>
    have hpage := hc ip off pa rfl
    obtain ⟨o, t', ph', h⟩ : ∃ o t' ph',
        sharedGetOrCreate t ph ip off pa = (o, t', ph') := ⟨_, _, _, rfl⟩
    refine ⟨(t'.stored, ph'), by simp only [sharedCall, h], ?_⟩
    rcases sharedGetOrCreate_cases h with
      ⟨e, _, _, rfl, rfl⟩ | ⟨_, _, rfl, rfl⟩ | ⟨self, _, ha, _, rfl⟩
    · refine ⟨fun x hx => hs x ?_, rfl⟩
      rw [stored_pages, incref_pages] at hx
      exact hx
    · refine ⟨fun x hx => hs x ?_, rfl⟩
      rw [stored_pages] at hx
      exact hx
    refine ⟨fun x hx => ?_, (kalloc_keeps ha).kend⟩
    refine (Phys.isPage_congr (kalloc_keeps ha).kend x).mpr ?_
    have hins := insert_pages t ⟨ip, off, pa, 1, self⟩ x
    have hcount := kalloc_count ha x
    unfold SharedTab.insert SharedEntry.pages at hins
    dsimp only at hins hx
    rw [stored_pages, hins, points_some pa] at hx
    by_cases hxpa : pa = x
    · rw [← hxpa]
      exact hpage
    · rw [if_neg hxpa] at hx
      refine hs x ?_
      dsimp only
      omega
  | decref ip off =>
    obtain ⟨⟨t', ph'⟩, h⟩ := @sharedDecref_total t ph ip off
      fun x hx => hs x (Nat.add_pos_left hx _)
    refine ⟨(t'.stored, ph'), ?_, fun x hx => ?_, ?_⟩
    · simp only [sharedCall, h, ok_bind]
      rfl
    · refine (Phys.isPage_congr (sharedDecref_keeps _ h).kend x).mpr (hs x ?_)
      rw [stored_pages, sharedDecref_ledger h] at hx
      exact hx
    · exact (sharedDecref_keeps (t', ph') h).kend

theorem sharedCalls_total (hs : Paged s) (hc : ∀ ip off pa, .get ip off pa ∈ cs → s.2.isPage pa) :
    ∃ s', cs.foldlM sharedCall s = .ok s' := by
  induction cs generalizing s with
  | nil => exact ⟨s, rfl⟩
  | cons c cs ih =>
    obtain ⟨s1, h1, hs1, hk⟩ := sharedCall_paged hs
      fun ip off pa heq => hc ip off pa (heq ▸ List.mem_cons_self)
    obtain ⟨s', h'⟩ := ih hs1 fun ip off pa hmem =>
      (Phys.isPage_congr hk pa).mpr (hc ip off pa (List.mem_cons_of_mem _ hmem))
    refine ⟨s', ?_⟩
    rw [List.foldlM_cons, h1]
    exact h'

-- == the registry is a counted map

/-- Calls with pages to keep return, from any start with pages on the
free list. And the table is the counted map after every call exactly if
no key gets 2^31 references at a time. -/
theorem registry_counted_map (addr : Option Nat → Nat) (ph : Phys)
    (cs : List SharedCall) :
    ((∀ r ∈ ph.freelist, ph.isPage r) →
      (∀ ip off pa, .get ip off pa ∈ cs → ph.isPage pa) →
      ∃ s, sharedCalls addr ph cs = .ok s)
    ∧ ((∀ done, done <+: cs → ∀ s, sharedCalls addr ph done = .ok s →
          Shows s (Counted.run ph.freelist done))
      ↔ ∀ done, done <+: cs → ∀ s, sharedCalls addr ph done = .ok s →
          (Counted.run ph.freelist done).Fits) := by
  refine ⟨fun hfree hpa => sharedCalls_total (fun x hx => ?_) hpa,
    fun h done hd s hs => (h done hd s hs).fits hs,
    fun h done hd s hs => ?_⟩
  · have hnone : (initSharedTab addr).pages x = 0 :=
      Finset.sum_eq_zero fun _ _ => rfl
    rw [hnone, Nat.zero_add, List.count_pos_iff] at hx
    exact hfree x hx
  · exact sharedCalls_shows (Shows.init addr ph)
      (fun done' hd' s' hs' => h done' (hd'.trans hd) s' hs') hs

theorem Counted.call_gets {m : Counted} {n : Nat} (c : SharedCall)
    (h : ∀ k e, m.held k = some e → e.gets ≤ n) :
    ∀ k e, (m.call c).held k = some e → e.gets ≤ n + 1 := by
  have hset : ∀ (k : Option Nat × Nat) (a : Option Held) (free : List Nat),
      (∀ e, a = some e → e.gets ≤ n + 1) →
      ∀ k' e, (m.set k a free).held k' = some e → e.gets ≤ n + 1 := by
    intro k a free ha k' e he
    simp only [Counted.set, Function.update_apply] at he
    split at he
    · exact ha e he
    · exact Nat.le_succ_of_le (h k' e he)
  unfold Counted.call
  split
  · split
    · next e free hk =>
      refine hset _ _ _ ?_
      rintro _ ⟨⟩
      exact Nat.succ_le_succ (h _ _ hk)
    · exact fun k e he => Nat.le_succ_of_le (h k e he)
    · refine hset _ _ _ ?_
      rintro _ ⟨⟩
      exact Nat.le_add_left 1 n
  · split
    · exact fun k e he => Nat.le_succ_of_le (h k e he)
    · next e hk =>
      have hle : e.gets ≤ n + 1 := Nat.le_succ_of_le (h _ _ hk)
      split
      · exact hset _ _ _ fun e he => (Option.some_ne_none e he.symm).elim
      · refine hset _ _ _ ?_
        rintro _ ⟨⟩
        exact hle

/-- Fewer than 2^31 calls keep every count an `int`. -/
theorem Counted.run_fits (free : List Nat) (h : cs.length < 2 ^ 31) :
    (Counted.run free cs).Fits := by
  have hrun : ∀ (cs : List SharedCall) (m : Counted) (n : Nat),
      (∀ k e, m.held k = some e → e.gets ≤ n) →
      ∀ k e, (cs.foldl Counted.call m).held k = some e → e.gets ≤ n + cs.length := by
    intro cs
    induction cs with
    | nil => exact fun m n hm => hm
    | cons c cs ih =>
      intro m n hm k e he
      have := ih _ _ (Counted.call_gets c hm) k e he
      rw [List.length_cons]
      omega
  intro k e he
  have := hrun cs _ 0 (fun _ _ he => (Option.some_ne_none _ he.symm).elim) k e he
  unfold Held.count
  omega

/-- Two keys of one chain, the first got twice and dropped once. -/
theorem registry_counted_map_collision :
    ∃ s, sharedCalls bootGlob.shared.addr bootGlob.phys
        [.get (some 0) 0 0x87000000, .get (some 0) 64 0x87001000,
          .get (some 0) 0 0x87002000, .decref (some 0) 0] = .ok s
      ∧ Shows s (Counted.run bootGlob.phys.freelist
        [.get (some 0) 0 0x87000000, .get (some 0) 64 0x87001000,
          .get (some 0) 0 0x87002000, .decref (some 0) 0]) := by
  obtain ⟨hret, hshow⟩ := registry_counted_map bootGlob.shared.addr
    bootGlob.phys [.get (some 0) 0 0x87000000, .get (some 0) 64 0x87001000,
      .get (some 0) 0 0x87002000, .decref (some 0) 0]
  obtain ⟨s, hs⟩ := hret (by decide) fun ip off pa hmem => by
    have hpa : pa ∈ [0x87000000, 0x87001000, 0x87002000] := by
      simp only [List.mem_cons, SharedCall.get.injEq, reduceCtorEq,
        List.not_mem_nil, or_false] at hmem ⊢
      omega
    exact (by decide : ∀ pa ∈ [0x87000000, 0x87001000, 0x87002000],
      bootGlob.phys.isPage pa) pa hpa
  refine ⟨s, hs, hshow.mpr (fun done hd _ _ => ?_) _ List.prefix_rfl s hs⟩
  exact Counted.run_fits _ (hd.length_le.trans_lt (by decide))

/-- After `n + 1` gets of a key its stored count is `n + 1` as an
`int`. -/
theorem gets_count (addr : Option Nat → Nat) (ph : Phys) {r : Nat}
    {rest : List Nat} (hfree : ph.freelist = r :: rest) (ip : Option Nat) (off pa n : Nat) :
    ∃ s e, sharedCalls addr ph (List.replicate (n + 1) (.get ip off pa)) = .ok s
      ∧ s.1.lookup ip off = some e ∧ e.refcnt = cInt (n + 1) := by
  induction n with
  | zero =>
    have hl : (initSharedTab addr).lookup ip off = none := rfl
    refine ⟨_, ⟨ip, off, pa, cInt 1, r⟩, rfl, ?_, rfl⟩
    simp only [hl, kalloc, hfree]
    rw [lookup_stored, lookup_insert (e := ⟨ip, off, pa, 1, r⟩), if_pos ⟨rfl, rfl⟩]
    rfl
  | succ n ih =>
    obtain ⟨s, e, hs, hl, hcount⟩ := ih
    have hget : sharedCall s (.get ip off pa) = .ok ((s.1.incref ip off).stored, s.2) := by
      simp only [sharedCall, sharedGetOrCreate, hl]
    refine ⟨((s.1.incref ip off).stored, s.2),
      { e with refcnt := cInt (e.refcnt + 1) }, ?_, ?_, ?_⟩
    · unfold sharedCalls at hs ⊢
      rw [List.replicate_succ', List.foldlM_append, hs, ok_bind, List.foldlM_cons, hget]
      rfl
    · rw [lookup_stored, lookup_incref, if_pos ⟨rfl, rfl⟩, hl]
      rfl
    · dsimp only
      rw [hcount, cInt, cInt, cInt, Int.bmod_add_bmod, Int.natCast_succ]

/-- The 2^31st reference to a page makes its count negative. -/
theorem registry_count_overflows :
    ∃ s e, sharedCalls bootGlob.shared.addr bootGlob.phys
        (List.replicate (2 ^ 31) (.get (some 0) 0 0x87000000)) = .ok s
      ∧ s.1.lookup (some 0) 0 = some e ∧ e.refcnt = - 2 ^ 31
      ∧ ¬ Shows s (Counted.run bootGlob.phys.freelist
          (List.replicate (2 ^ 31) (.get (some 0) 0 0x87000000))) := by
  obtain ⟨s, e, hs, hl, hcount⟩ := gets_count bootGlob.shared.addr
    bootGlob.phys rfl (some 0) 0 0x87000000 (2 ^ 31 - 1)
  have hneg : e.refcnt = - 2 ^ 31 := hcount.trans (by decide)
  refine ⟨s, e, hs, hl, hneg, fun hshow => ?_⟩
  obtain ⟨a, ha, heq, _⟩ := hshow.present hl
  have hpos := hshow.pos _ _ ha
  omega

end Xv6Labs.Model
