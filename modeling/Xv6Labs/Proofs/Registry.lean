/-
The shared page registry as a map from keys to entries: `lookup` after each
operation is `lookup` before it, changed at one key, since no chain holds a
key twice (`SharedTab.Wf`). `SharedTab.pages` are its uses of pages.
-/
import Xv6Labs.Lib.Sum
import Xv6Labs.Model.Registry
import Xv6Labs.Proofs.Phys

namespace Xv6Labs.Model

open Lib Finset

variable {e : SharedEntry} {ip ip' : Option Nat} {h off off' : Nat}
  {f : SharedEntry → SharedEntry} {t t' : SharedTab} {ph ph' : Phys}
variable {pa x : Nat}

-- == chains

theorem isFor_iff : e.isFor ip off = true ↔ e.ip = ip ∧ e.off = off := by
  simp [SharedEntry.isFor]

/-- Finding a key in a chain whose first entry for `(ip, off)` changed. -/
theorem find_updFirst (hf : ∀ e, (f e).ip = e.ip ∧ (f e).off = e.off) (l : List SharedEntry) :
    (updFirst ip off f l).find? (fun e => e.isFor ip' off') =
      if ip' = ip ∧ off' = off
      then (l.find? fun e => e.isFor ip' off').map f
      else l.find? fun e => e.isFor ip' off' := by
  have hkey : ∀ e, (f e).isFor ip' off' = e.isFor ip' off' := by
    intro e
    simp [SharedEntry.isFor, hf e]
  induction l with
  | nil => simp [updFirst]
  | cons e es ih =>
    simp only [updFirst]
    by_cases he : e.isFor ip off = true
    · rw [if_pos he, List.find?_cons, hkey]
      by_cases hk : ip' = ip ∧ off' = off
      · obtain ⟨rfl, rfl⟩ := hk
        simp [he]
      have hne : e.isFor ip' off' = false := by
        rw [isFor_iff] at he
        rw [Bool.eq_false_iff, ne_eq, isFor_iff]
        rintro ⟨h1, h2⟩
        exact hk ⟨h1.symm.trans he.1, h2.symm.trans he.2⟩
      simp [hne, hk]
    · rw [if_neg he, List.find?_cons, List.find?_cons, ih]
      by_cases hk : ip' = ip ∧ off' = off
      · obtain ⟨rfl, rfl⟩ := hk
        simp [he]
      · simp only [if_neg hk]

/-- Finding another key after the first entry for `(ip, off)` is gone. -/
theorem find_eraseP_of_ne (h : ¬ (ip' = ip ∧ off' = off)) (l : List SharedEntry) :
    (l.eraseP fun e => e.isFor ip off).find? (fun e => e.isFor ip' off') =
      l.find? fun e => e.isFor ip' off' := by
  induction l with
  | nil => rfl
  | cons e es ih =>
    by_cases he : e.isFor ip off = true
    · have hne : e.isFor ip' off' = false := by
        rw [isFor_iff] at he
        rw [Bool.eq_false_iff, ne_eq, isFor_iff]
        rintro ⟨h1, h2⟩
        exact h ⟨h1.symm.trans he.1, h2.symm.trans he.2⟩
      rw [List.eraseP_cons_of_pos (by exact he), List.find?_cons, hne]
    · rw [List.eraseP_cons_of_neg (by exact he), List.find?_cons, List.find?_cons, ih]

-- == the registry

/-- No chain holds a key twice. -/
def SharedTab.Wf (t : SharedTab) : Prop := ∀ h, ((t.buckets h).map fun e => (e.ip, e.off)).Nodup

theorem setBucket_self (t : SharedTab) (h : Nat) (c : List SharedEntry) :
    (t.setBucket h c).buckets h = c := if_pos rfl

theorem setBucket_of_ne (t : SharedTab) {h' : Nat} (c : List SharedEntry)
    (hne : h' ≠ h) : (t.setBucket h c).buckets h' = t.buckets h' := if_neg hne

theorem setBucket_hash (t : SharedTab) (h : Nat) (c : List SharedEntry)
    (ip : Option Nat) (off : Nat) : (t.setBucket h c).hash ip off = t.hash ip off := rfl

/-- What a lookup finds when one chain is replaced. -/
theorem lookup_setBucket (t : SharedTab) (h : Nat) (c : List SharedEntry)
    (ip : Option Nat) (off : Nat) :
    (t.setBucket h c).lookup ip off =
      if t.hash ip off = h then c.find? fun e => e.isFor ip off
      else t.lookup ip off := by
  simp only [SharedTab.lookup, setBucket_hash]
  split
  · next heq => rw [heq, setBucket_self]
  · next hne => rw [setBucket_of_ne t c hne]

/-- A lookup after the entry of one key was changed in place. -/
theorem lookup_updFirst (hf : ∀ e, (f e).ip = e.ip ∧ (f e).off = e.off) :
    (t.setBucket (t.hash ip off) (updFirst ip off f (t.buckets (t.hash ip off)))).lookup ip' off' =
      if ip' = ip ∧ off' = off then (t.lookup ip' off').map f
      else t.lookup ip' off' := by
  rw [lookup_setBucket, find_updFirst hf]
  by_cases hk : ip' = ip ∧ off' = off
  · obtain ⟨rfl, rfl⟩ := hk
    simp only [and_self, if_true]
    rfl
  · simp only [if_neg hk]
    split
    · next heq => rw [← heq, SharedTab.lookup]
    · rfl

theorem lookup_incref (t : SharedTab) (ip ip' : Option Nat) (off off' : Nat) :
    (t.incref ip off).lookup ip' off' =
      if ip' = ip ∧ off' = off
      then (t.lookup ip' off').map fun e => { e with refcnt := e.refcnt + 1 }
      else t.lookup ip' off' :=
  lookup_updFirst fun _ => ⟨rfl, rfl⟩

theorem lookup_insert (ip : Option Nat) (off : Nat) :
    (t.setBucket (t.hash e.ip e.off) (e :: t.buckets (t.hash e.ip e.off))).lookup ip off =
      if ip = e.ip ∧ off = e.off then some e else t.lookup ip off := by
  rw [lookup_setBucket, List.find?_cons]
  by_cases hk : ip = e.ip ∧ off = e.off
  · obtain ⟨rfl, rfl⟩ := hk
    simp [isFor_iff.mpr]
  have hne : e.isFor ip off = false := by
    rw [Bool.eq_false_iff, ne_eq, isFor_iff]
    exact fun h => hk ⟨h.1.symm, h.2.symm⟩
  rw [hne]
  split
  · next heq => rw [← heq, SharedTab.lookup]
  · rfl

theorem lookup_erase (hw : t.Wf) (ip ip' : Option Nat) (off off' : Nat) :
    (t.setBucket (t.hash ip off) ((t.buckets (t.hash ip off)).eraseP
        fun e => e.isFor ip off)).lookup ip' off' =
      if ip' = ip ∧ off' = off then none else t.lookup ip' off' := by
  rw [lookup_setBucket]
  by_cases hk : ip' = ip ∧ off' = off
  · obtain ⟨rfl, rfl⟩ := hk
    simp only [and_self, if_true]
    -- the chain had the key once
    have hnodup := hw (t.hash ip' off')
    generalize t.buckets (t.hash ip' off') = l at hnodup ⊢
    induction l with
    | nil => rfl
    | cons e es ih =>
      rw [List.map_cons, List.nodup_cons] at hnodup
      by_cases he : e.isFor ip' off' = true
      · rw [List.eraseP_cons_of_pos (by exact he), List.find?_eq_none]
        intro a ha hfor
        rw [isFor_iff] at he hfor
        refine hnodup.1 (List.mem_map.mpr ⟨a, ha, ?_⟩)
        rw [hfor.1, hfor.2, he.1, he.2]
      · rw [List.eraseP_cons_of_neg (by exact he), List.find?_cons]
        simp only [Bool.not_eq_true] at he
        rw [he]
        exact ih hnodup.2
  · rw [find_eraseP_of_ne hk]
    split
    · next heq => rw [← heq, SharedTab.lookup]
    · rfl

theorem updFirst_keys (hf : ∀ e, (f e).ip = e.ip ∧ (f e).off = e.off) (l : List SharedEntry) :
    (updFirst ip off f l).map (fun e => (e.ip, e.off)) = l.map fun e => (e.ip, e.off) := by
  induction l with
  | nil => rfl
  | cons e es ih =>
    simp only [updFirst]
    split
    · simp [hf e]
    · rw [List.map_cons, List.map_cons, ih]

theorem SharedTab.Wf.setBucket (hw : t.Wf) {c : List SharedEntry}
    (hc : (c.map fun e => (e.ip, e.off)).Nodup) : (t.setBucket h c).Wf := by
  intro h'
  by_cases heq : h' = h
  · rw [heq, setBucket_self]
    exact hc
  · rw [setBucket_of_ne t c heq]
    exact hw h'

theorem SharedTab.Wf.updFirst (hw : t.Wf) (hf : ∀ e, (f e).ip = e.ip ∧ (f e).off = e.off) :
    (t.setBucket (t.hash ip off) (Model.updFirst ip off f (t.buckets (t.hash ip off)))).Wf :=
  hw.setBucket (by rw [updFirst_keys hf]; exact hw _)

theorem SharedTab.Wf.incref (hw : t.Wf) (ip : Option Nat) (off : Nat) : (t.incref ip off).Wf :=
  hw.updFirst fun _ => ⟨rfl, rfl⟩

-- == the ledger

/-- Uses of page `x` by one entry: its data and its storage. -/
def SharedEntry.pages (e : SharedEntry) (x : Nat) : Nat :=
  points (some e.pa) x + points (some e.self) x

/-- Uses of page `x` by the registry. -/
def SharedTab.pages (t : SharedTab) (x : Nat) : Nat :=
  ∑ h ∈ range shash, ((t.buckets h).map fun e => e.pages x).sum

theorem hash_lt (t : SharedTab) (ip : Option Nat) (off : Nat) :
    t.hash ip off < shash := Nat.mod_lt _ (by decide)

theorem pages_setBucket (t : SharedTab) (c : List SharedEntry) (hlt : h < shash) (x : Nat) :
    (t.setBucket h c).pages x + ((t.buckets h).map fun e => e.pages x).sum
      = t.pages x + (c.map fun e => e.pages x).sum := by
  have hx := sum_exchange
    (f := fun i => (((t.setBucket h c).buckets i).map fun e => e.pages x).sum) hlt
    (fun i _ hi => by rw [setBucket_of_ne t c hi])
  simp only [setBucket_self] at hx
  exact hx

theorem updFirst_pages (hf : ∀ e, (f e).pages x = e.pages x) (l : List SharedEntry) :
    ((updFirst ip off f l).map fun e => e.pages x).sum = (l.map fun e => e.pages x).sum := by
  induction l with
  | nil => rfl
  | cons e es ih =>
    simp only [updFirst]
    split
    · simp [hf e]
    · rw [List.map_cons, List.map_cons, List.sum_cons, List.sum_cons, ih]

/-- An entry that is found and erased takes its pages along. -/
theorem eraseP_pages {l : List SharedEntry}
    (h : l.find? (fun e => e.isFor ip off) = some e) :
    ((l.eraseP fun e => e.isFor ip off).map fun e => e.pages x).sum
      + e.pages x = (l.map fun e => e.pages x).sum := by
  induction l with
  | nil => cases h
  | cons a as ih =>
    by_cases ha : a.isFor ip off = true
    · rw [List.find?_cons, ha] at h
      cases h
      rw [List.eraseP_cons_of_pos (by exact ha), List.map_cons, List.sum_cons, Nat.add_comm]
    simp only [Bool.not_eq_true] at ha
    rw [List.find?_cons, ha] at h
    rw [List.eraseP_cons_of_neg (by simp [ha]), List.map_cons,
      List.map_cons, List.sum_cons, List.sum_cons, ← ih h]
    omega

theorem incref_pages (t : SharedTab) (ip : Option Nat) (off x : Nat) :
    (t.incref ip off).pages x = t.pages x := by
  have hp := pages_setBucket t (updFirst ip off (fun e => { e with refcnt := e.refcnt + 1 })
    (t.buckets (t.hash ip off))) (hash_lt t ip off) x
  rw [updFirst_pages (f := fun e => { e with refcnt := e.refcnt + 1 }) fun _ => rfl] at hp
  exact Nat.add_right_cancel hp

theorem pages_pos_of_lookup (h : t.lookup ip off = some e) :
    0 < t.pages e.pa ∧ 0 < t.pages e.self := by
  have hrow : ∀ x, e.pages x ≤ t.pages x := by
    intro x
    have hsum := row_le_sum (f := fun h => ((t.buckets h).map fun e => e.pages x).sum)
      (hash_lt t ip off)
    have herase := eraseP_pages (x := x) h
    unfold SharedTab.pages
    omega
  have h1 := hrow e.pa
  have h2 := hrow e.self
  unfold SharedEntry.pages at h1 h2
  rw [points_some, if_pos rfl] at h1
  rw [points_some (t := e.self), if_pos rfl] at h2
  exact ⟨by omega, by omega⟩

-- == the counts

/-- The reference count of a key, 0 without an entry. -/
def SharedTab.refs (t : SharedTab) (ip : Option Nat) (off : Nat) : Int :=
  (t.lookup ip off).elim 0 SharedEntry.refcnt

/-- One if the key is `(ip, off)`. -/
def keyHits (o : Option (Option Nat × Nat)) (ip : Option Nat) (off : Nat) : Nat :=
  if o = some (ip, off) then 1 else 0

@[simp] theorem keyHits_none (ip : Option Nat) (off : Nat) : keyHits none ip off = 0 := rfl

theorem keyHits_some (ip ip' : Option Nat) (off off' : Nat) :
    keyHits (some (ip, off)) ip' off' = if ip' = ip ∧ off' = off then 1 else 0 := by
  simp only [keyHits, Option.some.injEq, Prod.mk.injEq, eq_comm]

/-- No key twice, and no entry without a reference. -/
structure SharedTab.Ok (t : SharedTab) : Prop where
  wf : t.Wf
  pos : ∀ ip off e, t.lookup ip off = some e → 0 < e.refcnt

/-- A key with a count has an entry, and the entry has the count. -/
theorem lookup_of_refs (h : 0 < t.refs ip off) :
    ∃ e, t.lookup ip off = some e ∧ e.refcnt = t.refs ip off := by
  unfold SharedTab.refs at h ⊢
  cases hl : t.lookup ip off with
  | none =>
    rw [hl] at h
    exact absurd h (Int.lt_irrefl 0)
  | some e => exact ⟨e, rfl, rfl⟩

theorem incref_refs (hl : t.lookup ip off = some e) (ip' : Option Nat) (off' : Nat) :
    (t.incref ip off).refs ip' off' = t.refs ip' off' + keyHits (some (ip, off)) ip' off' := by
  unfold SharedTab.refs
  rw [lookup_incref, keyHits_some]
  split
  · next hk =>
    obtain ⟨rfl, rfl⟩ := hk
    rw [hl]
    rfl
  · exact (Int.add_zero _).symm

theorem SharedTab.Ok.incref (h : t.Ok) (ip : Option Nat) (off : Nat) : (t.incref ip off).Ok := by
  refine ⟨h.wf.incref ip off, fun ip' off' e' he' => ?_⟩
  rw [lookup_incref] at he'
  split at he'
  · obtain ⟨e, he, rfl⟩ := Option.map_eq_some_iff.mp he'
    have := h.pos ip' off' e he
    dsimp only
    omega
  · exact h.pos ip' off' e' he'

-- == shared_decref

/-- Entries stay with their page or go with it to the free list; nothing
is added to the registry and nothing leaves the free list. -/
structure Drops (t : SharedTab) (ph : Phys) (t' : SharedTab) (ph' : Phys) : Prop where
  entries : ∀ ip off e, t.lookup ip off = some e →
    (∃ e', t'.lookup ip off = some e' ∧ e'.pa = e.pa)
      ∨ t'.lookup ip off = none ∧ e.pa ∈ ph'.freelist
  absent : ∀ ip off, t.lookup ip off = none → t'.lookup ip off = none
  free : ∀ x, x ∈ ph.freelist → x ∈ ph'.freelist

theorem Drops.of_free (t : SharedTab)
    (h : ∀ x, x ∈ ph.freelist → x ∈ ph'.freelist) : Drops t ph t ph' :=
  ⟨fun _ _ e he => .inl ⟨e, he, rfl⟩, fun _ _ h => h, h⟩

theorem Drops.refl (t : SharedTab) (ph : Phys) : Drops t ph t ph := .of_free t fun _ h => h

theorem Drops.trans {t'' : SharedTab} {ph'' : Phys} (h : Drops t ph t' ph')
    (h' : Drops t' ph' t'' ph'') : Drops t ph t'' ph'' := by
  refine ⟨fun ip off e he => ?_, fun ip off hn => ?_, fun x hx => ?_⟩
  · rcases h.entries ip off e he with ⟨e', he', hpa⟩ | ⟨hn, hfree⟩
    · rw [← hpa]
      exact h'.entries ip off e' he'
    · exact .inr ⟨h'.absent ip off hn, h'.free _ hfree⟩
  · exact h'.absent ip off (h.absent ip off hn)
  · exact h'.free x (h.free x hx)

theorem kfree_mem (h : kfree ph pa = .ok ph') :
    pa ∈ ph'.freelist ∧ ∀ x, x ∈ ph.freelist → x ∈ ph'.freelist := by
  obtain ⟨_, rfl⟩ := kfree_ok h
  exact ⟨List.mem_cons_self, fun x hx => List.mem_cons_of_mem _ hx⟩

/-- shared_decref, by what it found. -/
theorem sharedDecref_cases (h : sharedDecref t ph ip off = .ok (t', ph')) :
    (t.lookup ip off = none ∧ t' = t ∧ ph' = ph)
    ∨ ∃ e, t.lookup ip off = some e
      ∧ ((e.refcnt ≠ 1 ∧ ph' = ph ∧ t' = t.setBucket (t.hash ip off)
            (updFirst ip off (fun e => { e with refcnt := e.refcnt - 1 })
              (t.buckets (t.hash ip off))))
        ∨ (e.refcnt = 1 ∧ (∃ ph1, kfree ph e.pa = .ok ph1 ∧ kfree ph1 e.self = .ok ph')
            ∧ t' = t.setBucket (t.hash ip off)
                ((t.buckets (t.hash ip off)).eraseP fun e => e.isFor ip off))) := by
  simp only [sharedDecref] at h
  split at h
  · next hl =>
    cases h
    exact .inl ⟨hl, rfl, rfl⟩
  · next e hl =>
    refine .inr ⟨e, hl, ?_⟩
    split at h
    · next hone =>
      obtain ⟨ph1, h1, h⟩ := bind_ok h
      obtain ⟨ph2, h2, h⟩ := bind_ok h
      cases h
      exact .inr ⟨by omega, ⟨ph1, h1, h2⟩, rfl⟩
    · cases h
      exact .inl ⟨by omega, rfl, rfl⟩

theorem sharedDecref_wf (hw : t.Wf) (h : sharedDecref t ph ip off = .ok (t', ph')) : t'.Wf := by
  rcases sharedDecref_cases h with
    ⟨_, rfl, _⟩ | ⟨e, _, ⟨_, _, rfl⟩ | ⟨_, _, rfl⟩⟩
  · exact hw
  · exact hw.updFirst fun _ => ⟨rfl, rfl⟩
  · refine hw.setBucket ?_
    exact List.Nodup.sublist (List.eraseP_sublist.map _) (hw _)

/-- The key loses one reference, and its entry with the last one. -/
theorem sharedDecref_lookup (hw : t.Wf)
    (h : sharedDecref t ph ip off = .ok (t', ph')) (ip' : Option Nat) (off' : Nat) :
    t'.lookup ip' off' =
      if ip' = ip ∧ off' = off then
        (t.lookup ip off).bind fun e =>
          if e.refcnt = 1 then none else some { e with refcnt := e.refcnt - 1 }
      else t.lookup ip' off' := by
  rcases sharedDecref_cases h with
    ⟨hl, rfl, _⟩ | ⟨e, hl, ⟨hne, _, rfl⟩ | ⟨hone, _, rfl⟩⟩
  · rw [hl]
    split
    · next hk => rw [hk.1, hk.2, hl]; rfl
    · rfl
  · rw [lookup_updFirst (f := fun e => { e with refcnt := e.refcnt - 1 }) (fun _ => ⟨rfl, rfl⟩)]
    split
    · next hk => rw [hk.1, hk.2, hl]; simp [hne]
    · rfl
  · rw [lookup_erase hw, hl]
    simp [hone]

theorem sharedDecref_ledger (h : sharedDecref t ph ip off = .ok (t', ph')) (x : Nat) :
    t'.pages x + ph'.freelist.count x = t.pages x + ph.freelist.count x := by
  rcases sharedDecref_cases h with
    ⟨_, rfl, rfl⟩ | ⟨e, hl, ⟨_, rfl, rfl⟩ | ⟨_, ⟨ph1, h1, h2⟩, rfl⟩⟩
  · rfl
  · have hp := pages_setBucket t (updFirst ip off (fun e => { e with refcnt := e.refcnt - 1 })
      (t.buckets (t.hash ip off))) (hash_lt t ip off) x
    rw [updFirst_pages (f := fun e => { e with refcnt := e.refcnt - 1 }) fun _ => rfl] at hp
    omega
  · have hp := pages_setBucket t ((t.buckets (t.hash ip off)).eraseP
      fun e => e.isFor ip off) (hash_lt t ip off) x
    have he := eraseP_pages (x := x) hl
    have hc1 := kfree_count h1 x
    have hc2 := kfree_count h2 x
    have hown : e.pages x = points (some e.pa) x + points (some e.self) x := rfl
    omega

theorem sharedDecref_ok (hok : t.Ok) (h : sharedDecref t ph ip off = .ok (t', ph')) : t'.Ok := by
  refine ⟨sharedDecref_wf hok.wf h, fun ip' off' e' he' => ?_⟩
  rw [sharedDecref_lookup hok.wf h] at he'
  split at he'
  · obtain ⟨e, he, he'⟩ := Option.bind_eq_some_iff.mp he'
    have hpos := hok.pos ip off e he
    split at he'
    · cases he'
    · cases he'
      dsimp only
      omega
  · exact hok.pos ip' off' e' he'

theorem sharedDecref_refs (hok : t.Ok) (hpos : 0 < t.refs ip off)
    (h : sharedDecref t ph ip off = .ok (t', ph')) (ip' : Option Nat) (off' : Nat) :
    t'.refs ip' off' + keyHits (some (ip, off)) ip' off' = t.refs ip' off' := by
  obtain ⟨e, he, hcnt⟩ := lookup_of_refs hpos
  unfold SharedTab.refs
  rw [sharedDecref_lookup hok.wf h, keyHits_some]
  split
  · next hk =>
    obtain ⟨rfl, rfl⟩ := hk
    rw [he, Option.bind_some]
    split
    · next hone =>
      rw [Option.elim_some, hone]
      rfl
    · rw [Option.elim_some, Option.elim_some]
      dsimp only
      omega
  · exact Int.add_zero _

theorem sharedDecref_drops (hw : t.Wf)
    (h : sharedDecref t ph ip off = .ok (t', ph')) : Drops t ph t' ph' := by
  have hfree : ∀ x, x ∈ ph.freelist → x ∈ ph'.freelist := by
    rcases sharedDecref_cases h with
      ⟨_, _, rfl⟩ | ⟨e, _, ⟨_, rfl, _⟩ | ⟨_, ⟨ph1, h1, h2⟩, _⟩⟩
    · exact fun _ hx => hx
    · exact fun _ hx => hx
    · exact fun x hx => (kfree_mem h2).2 x ((kfree_mem h1).2 x hx)
  refine ⟨fun ip' off' e he => ?_, fun ip' off' hn => ?_, hfree⟩
  · rw [sharedDecref_lookup hw h]
    split
    · next hk =>
      obtain ⟨rfl, rfl⟩ := hk
      rw [he, Option.bind_some]
      split
      · next hone =>
        -- the last reference: the page was freed
        refine .inr ⟨rfl, ?_⟩
        rcases sharedDecref_cases h with
          ⟨hn, _, _⟩ | ⟨e', he', ⟨hne, _, _⟩ | ⟨_, ⟨ph1, h1, h2⟩, _⟩⟩
        · rw [hn] at he
          cases he
        · rw [he] at he'
          cases he'
          exact absurd hone hne
        · rw [he] at he'
          cases he'
          exact (kfree_mem h2).2 _ (kfree_mem h1).1
      · exact .inl ⟨_, rfl, rfl⟩
    · exact .inl ⟨e, he, rfl⟩
  · rw [sharedDecref_lookup hw h]
    split
    · next hk =>
      obtain ⟨rfl, rfl⟩ := hk
      rw [hn]
      rfl
    · exact hn

theorem sharedDecref_total (ip : Option Nat) (off : Nat) (hv : ∀ x, 0 < t.pages x → ph.isPage x) :
    ∃ s, sharedDecref t ph ip off = .ok s := by
  simp only [sharedDecref]
  split
  · exact ⟨_, rfl⟩
  · next e hl =>
    obtain ⟨hpa, hself⟩ := pages_pos_of_lookup hl
    split
    · obtain ⟨ph1, h1⟩ := kfree_total (hv _ hpa)
      obtain ⟨ph2, h2⟩ := kfree_total
        ((Phys.isPage_congr (kfree_keeps _ h1).kend e.self).mpr (hv _ hself))
      simp only [h1, h2, ok_bind]
      exact ⟨_, rfl⟩
    · exact ⟨_, rfl⟩

-- == shared_get_or_create

/-- shared_get_or_create, by what it found. -/
theorem sharedGetOrCreate_cases {o : Option SharedEntry}
    (h : sharedGetOrCreate t ph ip off pa = (o, t', ph')) :
    (∃ e, t.lookup ip off = some e
      ∧ o = some { e with refcnt := e.refcnt + 1 } ∧ t' = t.incref ip off ∧ ph' = ph)
    ∨ (t.lookup ip off = none ∧ o = none ∧ t' = t ∧ ph' = ph)
    ∨ ∃ self, t.lookup ip off = none ∧ kalloc ph = (some self, ph')
      ∧ o = some ⟨ip, off, pa, 1, self⟩
      ∧ t' = t.setBucket (t.hash ip off) (⟨ip, off, pa, 1, self⟩ :: t.buckets (t.hash ip off)) := by
  simp only [sharedGetOrCreate] at h
  split at h
  · next e hl =>
    cases h
    exact .inl ⟨e, hl, rfl, rfl, rfl⟩
  · next hl =>
    split at h
    · next halloc =>
      cases h
      exact .inr (.inl ⟨hl, rfl, rfl, (kalloc_none halloc).1⟩)
    · next self ph1 halloc =>
      cases h
      exact .inr (.inr ⟨self, hl, halloc, rfl, rfl⟩)

/-- The registry with one more entry. -/
def SharedTab.insert (t : SharedTab) (e : SharedEntry) : SharedTab :=
  t.setBucket (t.hash e.ip e.off) (e :: t.buckets (t.hash e.ip e.off))

/-- A key that is not found is new to its chain. -/
theorem SharedTab.Wf.cons (h : t.Wf) (hl : t.lookup e.ip e.off = none) :
    ((e :: t.buckets (t.hash e.ip e.off)).map fun e => (e.ip, e.off)).Nodup := by
  rw [List.map_cons, List.nodup_cons]
  refine ⟨fun hmem => ?_, h _⟩
  obtain ⟨a, ha, heq⟩ := List.mem_map.mp hmem
  have hno := List.find?_eq_none.mp hl a ha
  rw [isFor_iff] at hno
  simp only [Prod.mk.injEq] at heq
  exact hno heq

theorem insert_ok (h : t.Ok) (hl : t.lookup e.ip e.off = none)
    (hpos : 0 < e.refcnt) : (t.insert e).Ok := by
  refine ⟨h.wf.setBucket (h.wf.cons hl), fun ip off e' he' => ?_⟩
  · unfold SharedTab.insert at he'
    rw [lookup_insert] at he'
    split at he'
    · cases he'
      exact hpos
    · exact h.pos ip off e' he'

theorem insert_refs (hl : t.lookup e.ip e.off = none) (ip : Option Nat) (off : Nat) :
    (t.insert e).refs ip off = t.refs ip off + e.refcnt * keyHits (some (e.ip, e.off)) ip off := by
  unfold SharedTab.refs SharedTab.insert
  rw [lookup_insert, keyHits_some]
  split
  · next hk =>
    obtain ⟨rfl, rfl⟩ := hk
    rw [hl, Option.elim_none, Option.elim_some]
    omega
  · omega

theorem insert_pages (t : SharedTab) (e : SharedEntry) (x : Nat) :
    (t.insert e).pages x = t.pages x + e.pages x := by
  have hp := pages_setBucket t (e :: t.buckets (t.hash e.ip e.off)) (hash_lt t e.ip e.off) x
  rw [List.map_cons, List.sum_cons] at hp
  unfold SharedTab.insert
  omega

end Xv6Labs.Model
