/-
What a page fault that is handled has done.

vmfault returns a nonzero address in three situations (`vmfault_handled`):
the page of a mapping was resident, one was supplied and mapped with the
mapping's flags, or a zeroed page was mapped for the heap. A fault that
returns 0 has given back what it took (`Restored`).
-/
import Xv6Labs.Proofs.Entries
import Xv6Labs.Proofs.Registry
import Xv6Labs.Proofs.Steps

namespace Xv6Labs.Model

open Lib

variable {p p' : Proc} {g g' : Glob} {ip : Option Nat} {off r va : Nat}
  {read : Bool} {pt pt' : PageTable} {v : Vma}
variable {pa : Nat} {o : Option Nat} {ph ph' : Phys} {perm : Perm}

-- == the page filled

/-- Byte `j` of a zeroed page after readi of `off` into it. -/
def Dinode.pageByte (d : Dinode) (off j : Nat) : UInt8 :=
  if j < readLen d.size (u32 off) pgSize then d.data (u32 off + j) else 0

theorem readLen_le (size off n : Nat) : readLen size off n ≤ n := by
  unfold readLen
  split
  · omega
  · split <;> omega

theorem ilock_memory {ip : Nat} (h : ilock g ip = .ok g') :
    g'.phys = g.phys ∧ g'.shared = g.shared := by
  simp only [ilock] at h
  split at h
  · cases h
  split at h
  · cases h
    exact ⟨rfl, rfl⟩
  · split at h <;> cases h
    exact ⟨rfl, rfl⟩

theorem ilock_dinode {ip : Nat} (h : ilock g ip = .ok g') (i : Nat) : g'.dinode i = g.dinode i := by
  have hq := ilock_quiet _ h
  rw [Glob.dinode, Glob.dinode, hq.disk, hq.inum]

/-- A page off the free list, with the bytes of the file in it. -/
theorem fillPage_spec (h : fillPage g ip off = .ok (o, g')) :
    g'.shared = g.shared ∧ g.phys.Takes g'.phys
    ∧ (∀ x, g'.phys.freelist.count x + points o x = g.phys.freelist.count x)
    ∧ ∀ mem, o = some mem → mem ∈ g.phys.freelist ∧ ∃ i, ip = some i
      ∧ ∀ j, j < pgSize → g'.phys.mem (mem + j) = (g.dinode i).pageByte off j := by
  simp only [fillPage] at h
  split at h
  · next ph halloc =>
    cases h
    obtain ⟨rfl, _⟩ := kalloc_none halloc
    exact ⟨rfl, .refl _, fun _ => rfl, fun _ h => by cases h⟩
  · next mem ph halloc =>
    have hmem : mem ∈ g.phys.freelist := (kalloc_some halloc).1 ▸ List.mem_cons_self
    split at h
    · cases h
    · next i =>
      obtain ⟨g1, h1, h⟩ := bind_ok h
      cases h
      obtain ⟨hphys, hshared⟩ := ilock_memory h1
      have hd : g1.dinode i = g.dinode i := ilock_dinode h1 i
      dsimp only at hphys hshared
      simp only [readi, hd]
      have hlen := readLen_le (g.dinode i).size (u32 off) pgSize
      refine ⟨hshared, ?_, fun x => ?_, ?_⟩
      · -- readi writes inside the page that was just taken
        have htake := kalloc_zero_takes halloc
        rw [← hphys] at htake
        refine { htake with mem := fun a ha => ?_ }
        rw [← htake.mem a ha]
        have hoff := ha mem hmem
        simp only [Glob.setMem, memput, OnPage] at hoff ⊢
        exact if_neg (by omega)
      · have hc := kalloc_count halloc x
        simp only [Glob.setMem, hphys, Phys.zero]
        omega
      intro m hm
      cases hm
      refine ⟨hmem, i, rfl, fun j hj => ?_⟩
      simp only [Glob.setMem, memput, Dinode.pageByte, hphys, Phys.zero, memset]
      by_cases hlt : j < readLen (g.dinode i).size (u32 off) pgSize
      · rw [if_pos ⟨by omega, by omega⟩, if_pos hlt, Nat.add_sub_cancel_left]
      · rw [if_neg (by omega), if_neg hlt, if_pos ⟨by omega, by omega⟩]

theorem privatePage_spec (h : privatePage g v va = .ok (o, g')) :
    g'.shared = g.shared ∧ g.phys.Takes g'.phys
    ∧ ∀ x, g'.phys.freelist.count x + points o x = g.phys.freelist.count x := by
  simp only [privatePage] at h
  split at h
  · obtain ⟨hsh, htake, hcount, _⟩ := fillPage_spec h
    exact ⟨hsh, htake, hcount⟩
  split at h
  · next ph halloc =>
    cases h
    obtain ⟨rfl, _⟩ := kalloc_none halloc
    exact ⟨rfl, .refl _, fun _ => rfl⟩
  · next mem ph halloc =>
    cases h
    exact ⟨rfl, kalloc_zero_takes halloc, fun x => (kalloc_count halloc x).symm⟩

theorem fillPage_none (h : fillPage g ip off = .ok (none, g')) : g' = g := by
  simp only [fillPage] at h
  split at h
  · next halloc =>
    cases h
    rw [(kalloc_none halloc).1]
  · split at h
    · cases h
    · obtain ⟨_, _, h⟩ := bind_ok h
      cases h

theorem privatePage_none (h : privatePage g v va = .ok (none, g')) : g' = g := by
  simp only [privatePage] at h
  split at h
  · exact fillPage_none h
  split at h
  · next halloc =>
    cases h
    rw [(kalloc_none halloc).1]
  · cases h

-- == the registry undone

section

variable {t t' : SharedTab} {ph ph' : Phys} {ip : Option Nat} {off : Nat}
variable {e : SharedEntry}

theorem setBucket_setBucket (t : SharedTab) (h : Nat) (c c' : List SharedEntry) :
    (t.setBucket h c).setBucket h c' = t.setBucket h c' := by
  unfold SharedTab.setBucket
  congr 1
  funext i
  by_cases hi : i = h
  · rw [if_pos hi, if_pos hi]
  · rw [if_neg hi, if_neg hi]
    exact if_neg hi

theorem setBucket_same (t : SharedTab) (h : Nat) : t.setBucket h (t.buckets h) = t := by
  have hb : (fun i => if i = h then t.buckets h else t.buckets i) = t.buckets := by
    funext i
    split
    · next hi => rw [hi]
    · rfl
  unfold SharedTab.setBucket
  rw [hb]

/-- One reference more, and one less. -/
theorem updFirst_undo (l : List SharedEntry) :
    updFirst ip off (fun e => { e with refcnt := e.refcnt - 1 })
      (updFirst ip off (fun e => { e with refcnt := e.refcnt + 1 }) l) = l := by
  induction l with
  | nil => rfl
  | cons e es ih =>
    rw [updFirst]
    by_cases he : e.isFor ip off = true
    · have he' : ({ e with refcnt := e.refcnt + 1 } : SharedEntry).isFor ip off = true := he
      rw [if_pos he, updFirst, if_pos he']
      simp
    · rw [if_neg he, updFirst, if_neg he, ih]

theorem decref_incref (hl : t.lookup ip off = some e) (hpos : 0 < e.refcnt)
    (h : sharedDecref (t.incref ip off) ph ip off = .ok (t', ph')) : t' = t ∧ ph' = ph := by
  have hfound := lookup_incref t ip ip off off
  rw [if_pos ⟨rfl, rfl⟩, hl] at hfound
  rcases sharedDecref_cases h with
    ⟨hno, _⟩ | ⟨e', he', ⟨_, rfl, rfl⟩ | ⟨hone, _⟩⟩
  · rw [hfound] at hno
    cases hno
  · refine ⟨?_, rfl⟩
    have hhash : (t.incref ip off).hash ip off = t.hash ip off := rfl
    rw [hhash, SharedTab.incref, setBucket_self, updFirst_undo, setBucket_setBucket, setBucket_same]
  · rw [hfound] at he'
    cases he'
    dsimp only at hone
    omega

/-- Dropping the only reference to an entry that a miss inserted. -/
theorem decref_insert (hone : e.refcnt = 1)
    (h : sharedDecref (t.insert e) ph e.ip e.off = .ok (t', ph')) :
    t' = t ∧ ∃ ph1, kfree ph e.pa = .ok ph1 ∧ kfree ph1 e.self = .ok ph' := by
  have hfound : (t.insert e).lookup e.ip e.off = some e := by
    unfold SharedTab.insert
    rw [lookup_insert, if_pos ⟨rfl, rfl⟩]
  rcases sharedDecref_cases h with
    ⟨hno, _⟩ | ⟨e', he', ⟨hne, _⟩ | ⟨_, hfree, rfl⟩⟩
  · rw [hfound] at hno
    cases hno
  · rw [hfound] at he'
    cases he'
    exact absurd hone hne
  rw [hfound] at he'
  cases he'
  refine ⟨?_, hfree⟩
  have hhash : (t.insert e).hash e.ip e.off = t.hash e.ip e.off := rfl
  have hself : e.isFor e.ip e.off = true := isFor_iff.mpr ⟨rfl, rfl⟩
  rw [hhash, SharedTab.insert, setBucket_self,
    List.eraseP_cons_of_pos (by exact hself), setBucket_setBucket, setBucket_same]

end

theorem decref_glob (h : g.sharedDecref ip off = .ok g') :
    ∃ t ph, sharedDecref g.shared g.phys ip off = .ok (t, ph)
      ∧ g' = { g with shared := t, phys := ph } := by
  obtain ⟨⟨t, ph⟩, hd, h⟩ := bind_ok h
  cases h
  exact ⟨t, ph, hd, rfl⟩

/-- Registering a page under a key that has no entry. -/
theorem faultInsert_cases {mem : Nat} {o : Option SharedEntry} (hl : g.shared.lookup ip off = none)
    (h : faultInsert g ip off mem = .ok (o, g')) :
    (o = none ∧ ∃ ph, kfree g.phys mem = .ok ph ∧ g' = { g with phys := ph })
    ∨ ∃ self ph, kalloc g.phys = (some self, ph) ∧ o = some ⟨ip, off, mem, 1, self⟩
      ∧ g' = { g with shared := g.shared.insert ⟨ip, off, mem, 1, self⟩, phys := ph } := by
  simp only [faultInsert] at h
  split at h
  · next e t ph hget =>
    cases h
    rcases sharedGetOrCreate_cases hget with
      ⟨e', he', _⟩ | ⟨_, ho, _⟩ | ⟨self, _, halloc, ho, rfl⟩
    · rw [hl] at he'
      cases he'
    · cases ho
    · exact .inr ⟨self, ph, halloc, ho, rfl⟩
  · next t ph hget =>
    obtain ⟨ph', hfree, h⟩ := bind_ok h
    cases h
    rcases sharedGetOrCreate_cases hget with
      ⟨e', he', _⟩ | ⟨_, _, rfl, rfl⟩ | ⟨self, _, _, ho, _⟩
    · rw [hl] at he'
      cases he'
    · exact .inl ⟨rfl, ph', hfree, rfl⟩
    · cases ho

-- == the cases

/-- The addresses vmfault hands to lazy_mmap. -/
def Proc.InMmap (p : Proc) (va : Nat) : Prop := mmapBase ≤ va ∧ va ≤ p.curVmaStart

instance (p : Proc) (va : Nat) : Decidable (p.InMmap va) := inferInstanceAs (Decidable (_ ∧ _))

theorem vmfault_inMmap (h : p.InMmap va) : vmfault p g va read = lazyMmap p g va read := if_pos h

/-- The flags of a heap page. -/
def heapPerm : Perm := { r := true, w := true, x := false, u := true }

/-- How lazy_mmap came by the page it maps at `va`. -/
inductive Supplied (g : Glob) (v : Vma) (va : Nat) : Nat → Glob → Prop
  | hit {e : SharedEntry} (hs : v.isShared = true)
      (hl : g.shared.lookup (g.vmaIp v) (v.fileOff va) = some e) :
      Supplied g v va e.pa
        { g with shared := g.shared.incref (g.vmaIp v) (v.fileOff va) }
  | miss {mem self : Nat} {g₁ : Glob} {ph : Phys} (hs : v.isShared = true)
      (hl : g.shared.lookup (g.vmaIp v) (v.fileOff va) = none)
      (hfill : fillPage g (g.vmaIp v) (v.fileOff va) = .ok (some mem, g₁))
      (hself : kalloc g₁.phys = (some self, ph)) :
      Supplied g v va mem
        { g₁ with
          shared := g₁.shared.insert ⟨g.vmaIp v, v.fileOff va, mem, 1, self⟩,
          phys := ph }
  | own {mem : Nat} {g₁ : Glob} (hs : v.isShared = false)
      (hpage : privatePage g v va = .ok (some mem, g₁)) :
      Supplied g v va mem g₁

/-- A fault at `va` that returned a page. -/
inductive Handled (p : Proc) (g : Glob) (va : Nat) (read : Bool) : Nat → Proc → Glob → Prop
  | resident {i : Nat} {e : Pte} (hin : p.InMmap va)
      (hat : vmaAt p va = some i)
      (he : p.pagetable.entry (va / pgSize) = some e) :
      Handled p g va read e.pa p g
  | mapped {i r : Nat} {g₁ : Glob} {pt : PageTable} {ph : Phys}
      (hin : p.InMmap va) (hat : vmaAt p va = some i)
      (hnone : p.pagetable.entry (va / pgSize) = none)
      (hallow : (p.vma i).allows read = true)
      (hsup : Supplied g (p.vma i) (pgRoundDown va) r g₁)
      (hmap : mappages p.pagetable g₁.phys (pgRoundDown va) pgSize r
        (p.vma i).perm = .ok (true, pt, ph)) :
      Handled p g va read r { p with pagetable := pt } { g₁ with phys := ph }
  | heap {r : Nat} {ph₀ ph : Phys} {pt : PageTable} (hout : ¬ p.InMmap va)
      (hsz : va < p.sz) (hnone : p.pagetable.entry (va / pgSize) = none)
      (halloc : kalloc g.phys = (some r, ph₀))
      (hmap : mappages p.pagetable (ph₀.zero r) (pgRoundDown va) pgSize r
        heapPerm = .ok (true, pt, ph)) :
      Handled p g va read r { p with pagetable := pt } { g with phys := ph }

/-- What lazy_mmap does where nothing is mapped: it maps the page that it
was supplied with, or has none, or gives back what it took. -/
inductive Lazy (pt : PageTable) (g : Glob) (v : Vma) (va : Nat) : Nat → PageTable → Glob → Prop
  | mapped {r : Nat} {g₁ : Glob} {pt' : PageTable} {ph : Phys}
      (hsup : Supplied g v va r g₁)
      (hmap : mappages pt g₁.phys va pgSize r v.perm = .ok (true, pt', ph)) :
      Lazy pt g v va r pt' { g₁ with phys := ph }
  | empty : Lazy pt g v va 0 pt g
  | unregistered {mem : Nat} {g₁ : Glob} {ph : Phys}
      (hfill : fillPage g (g.vmaIp v) (v.fileOff va) = .ok (some mem, g₁))
      (hfree : kfree g₁.phys mem = .ok ph) :
      Lazy pt g v va 0 pt { g₁ with phys := ph }
  | dropped {mem : Nat} {g₁ g' : Glob} {pt' : PageTable} {ph : Phys}
      (hs : v.isShared = true) (hsup : Supplied g v va mem g₁)
      (hmap : mappages pt g₁.phys va pgSize mem v.perm = .ok (false, pt', ph))
      (hd : ({ g₁ with phys := ph } : Glob).sharedDecref (g.vmaIp v) (v.fileOff va) = .ok g') :
      Lazy pt g v va 0 pt' g'
  | freed {mem : Nat} {g₁ : Glob} {pt' : PageTable} {ph ph' : Phys}
      (hpage : privatePage g v va = .ok (some mem, g₁))
      (hmap : mappages pt g₁.phys va pgSize mem v.perm
        = .ok (false, pt', ph)) (hfree : kfree ph mem = .ok ph') :
      Lazy pt g v va 0 pt' { g₁ with phys := ph' }

/-- What lazy_mmap did. -/
inductive LazyFault (p : Proc) (g : Glob) (va : Nat) (read : Bool) : Nat → Proc → Glob → Prop
  | refused : LazyFault p g va read 0 p g
  | resident {i : Nat} {e : Pte} (hat : vmaAt p va = some i)
      (hva : va < maxVa) (he : p.pagetable.entry (va / pgSize) = some e) :
      LazyFault p g va read e.pa p g
  | fault {i r : Nat} {g' : Glob} {pt : PageTable} (hat : vmaAt p va = some i)
      (hva : va < maxVa) (hnone : p.pagetable.entry (va / pgSize) = none)
      (hallow : (p.vma i).allows read = true)
      (hlazy : Lazy p.pagetable g (p.vma i) (pgRoundDown va) r pt g') :
      LazyFault p g va read r { p with pagetable := pt } g'

/-- What vmfault did. -/
inductive Fault (p : Proc) (g : Glob) (va : Nat) (read : Bool) : Nat → Proc → Glob → Prop
  | mmap {r : Nat} {p' : Proc} {g' : Glob} (hin : p.InMmap va)
      (h : LazyFault p g va read r p' g') : Fault p g va read r p' g'
  | refused : Fault p g va read 0 p g
  | heap {mem : Nat} {ok : Bool} {pt : PageTable} {ph₀ ph : Phys} {g' : Glob}
      (hout : ¬ p.InMmap va) (hva : va < maxVa) (hsz : va < p.sz)
      (hnone : p.pagetable.entry (va / pgSize) = none)
      (halloc : kalloc g.phys = (some mem, ph₀))
      (hmap : mappages p.pagetable (ph₀.zero mem) (pgRoundDown va) pgSize mem
        heapPerm = .ok (ok, pt, ph))
      (hg : if ok then g' = { g with phys := ph } else
        ∃ ph', kfree ph mem = .ok ph' ∧ g' = { g with phys := ph' }) :
      Fault p g va read (if ok then mem else 0) { p with pagetable := pt } g'

-- == reading them off

theorem roundDown_div (va : Nat) : pgRoundDown va / pgSize = va / pgSize :=
  Nat.mul_div_cancel _ (by decide)

theorem lt_maxVa_of_roundDown (h : pgRoundDown va < maxVa) : va < maxVa := by
  unfold pgRoundDown pgSize maxVa at *
  omega

/-- The entry that decides a fault at `va`. -/
theorem walkValid_roundDown_ok {o : Option Pte} (h : walkValid pt (pgRoundDown va) = .ok o) :
    va < maxVa ∧ pt.entry (va / pgSize) = o := by
  have hlt := walkValid_lt h
  rw [walkValid_entry hlt, roundDown_div] at h
  cases h
  exact ⟨lt_maxVa_of_roundDown hlt, rfl⟩

theorem lt_two_pow_of_maxVa (h : va < maxVa) : va < 2 ^ 64 := by
  unfold maxVa at h
  omega

/-- mappages that did not map left the entries alone. -/
theorem mappages_failed (hva : va < maxVa)
    (h : mappages pt ph va pgSize pa perm = .ok (false, pt', ph')) :
    ∀ m, pt'.entry m = pt.entry m := by
  obtain ⟨_, _, _, ⟨_, he⟩ | ⟨hb, _⟩⟩ := mappages_entry (lt_two_pow_of_maxVa hva) h
  · exact he
  · cases hb

/-- The end of a shared fault. -/
theorem faultMap_lazy {g1 : Glob} (hs : v.isShared = true)
    (hsup : Supplied g v va pa g1) (hnone : walkValid pt va = .ok none)
    (h : faultMap pt g1 v va (g.vmaIp v) (v.fileOff va) pa
      = .ok (r, pt', g')) : Lazy pt g v va r pt' g' := by
  simp only [faultMap, hnone, ok_bind] at h
  obtain ⟨⟨ok, pt1, ph⟩, hmap, h⟩ := bind_ok h
  cases ok with
  | true =>
    cases h
    exact .mapped hsup hmap
  | false =>
    obtain ⟨g2, hd, h⟩ := bind_ok h
    cases h
    exact .dropped hs hsup hmap hd

theorem lazyShared_lazy (hs : v.isShared = true) (hnone : walkValid pt va = .ok none)
    (h : lazyShared pt g v va = .ok (r, pt', g')) : Lazy pt g v va r pt' g' := by
  simp only [lazyShared, faultLookup] at h
  cases hl : g.shared.lookup (g.vmaIp v) (v.fileOff va) with
  | some e =>
    rw [hl] at h
    exact faultMap_lazy hs (.hit hs hl) hnone h
  | none =>
    rw [hl] at h
    obtain ⟨⟨o, g1⟩, hfill, h⟩ := bind_ok h
    cases o with
    | none =>
      cases h
      rw [fillPage_none hfill]
      exact .empty
    | some mem =>
      obtain ⟨⟨o, g2⟩, hins, h⟩ := bind_ok h
      have hl1 := hl
      rw [← (fillPage_spec hfill).1] at hl1
      rcases faultInsert_cases hl1 hins with
        ⟨rfl, ph, hfree, rfl⟩ | ⟨self, ph, halloc, rfl, rfl⟩
      · cases h
        exact .unregistered hfill hfree
      · exact faultMap_lazy hs (.miss hs hl hfill halloc) hnone h

theorem lazyPrivate_lazy (hs : v.isShared = false) (hnone : walkValid pt va = .ok none)
    (h : lazyPrivate pt g v va = .ok (r, pt', g')) : Lazy pt g v va r pt' g' := by
  obtain ⟨⟨o, g1⟩, hpage, h⟩ := bind_ok h
  cases o with
  | none =>
    cases h
    rw [privatePage_none hpage]
    exact .empty
  | some mem =>
    simp only [hnone, ok_bind] at h
    obtain ⟨⟨ok, pt1, ph⟩, hmap, h⟩ := bind_ok h
    cases ok with
    | true =>
      cases h
      exact .mapped (.own hs hpage) hmap
    | false =>
      obtain ⟨ph2, hfree, h⟩ := bind_ok h
      cases h
      exact .freed hpage hmap hfree

theorem lazyMmap_fault (h : lazyMmap p g va read = .ok (r, p', g')) :
    LazyFault p g va read r p' g' := by
  simp only [lazyMmap] at h
  split at h
  · cases h
    exact .refused
  · next i hat =>
    obtain ⟨o, hwalk, h⟩ := bind_ok h
    obtain ⟨hva, he⟩ := walkValid_roundDown_ok hwalk
    cases o with
    | some e =>
      cases h
      exact .resident hat hva he
    | none =>
      dsimp only at h
      split at h
      · next hallow =>
        obtain ⟨⟨r1, pt, g1⟩, h1, h⟩ := bind_ok h
        cases h
        refine .fault hat hva he hallow ?_
        split at h1
        · next hs => exact lazyShared_lazy hs hwalk h1
        · next hs =>
          exact lazyPrivate_lazy (Bool.not_eq_true _ ▸ hs) hwalk h1
      · cases h
        exact .refused

/-- An address that is in no mapping. -/
theorem lazyMmap_unmapped (h : vmaAt p va = none) : lazyMmap p g va read = .ok (0, p, g) := by
  simp only [lazyMmap, h]

theorem vmfault_fault (h : vmfault p g va read = .ok (r, p', g')) : Fault p g va read r p' g' := by
  simp only [vmfault] at h
  split at h
  · next hin => exact .mmap hin (lazyMmap_fault h)
  · next hout =>
    split at h
    · cases h
      exact .refused
    · next hsz =>
      obtain ⟨b, hm, h⟩ := bind_ok h
      obtain ⟨o, hwalk, hb⟩ := bind_ok hm
      cases hb
      obtain ⟨hva, he⟩ := walkValid_roundDown_ok hwalk
      cases o with
      | some e =>
        cases h
        exact .refused
      | none =>
        simp only [Option.isSome_none, Bool.false_eq_true, if_false] at h
        split at h
        · next halloc =>
          cases h
          rw [(kalloc_none halloc).1]
          exact .refused
        · next mem ph0 halloc =>
          obtain ⟨⟨ok, pt, ph⟩, hmap, h⟩ := bind_ok h
          have hheap : ∀ {g'}, (if ok then g' = { g with phys := ph } else
              ∃ ph', kfree ph mem = .ok ph' ∧ g' = { g with phys := ph' }) →
              Fault p g va read (if ok then mem else 0)
                { p with pagetable := pt } g' :=
            fun hg => .heap hout hva (Nat.not_le.mp hsz) he halloc hmap hg
          cases ok with
          | true =>
            cases h
            exact hheap rfl
          | false =>
            obtain ⟨ph1, hfree, h⟩ := bind_ok h
            cases h
            exact hheap ⟨ph1, hfree, rfl⟩

-- == what is given back

/-- The entries and the registry are as before, and pages that are no
longer free are tables. -/
structure Restored (pt : PageTable) (g : Glob) (pt' : PageTable) (g' : Glob) : Prop where
  wf : pt'.Wf
  leaf : pt'.leaf = pt.leaf
  shared : g'.shared = g.shared
  pages : ∀ x, pt'.tables x + g'.phys.freelist.count x = pt.tables x + g.phys.freelist.count x

theorem Restored.refl (hw : pt.Wf) : Restored pt g pt g := ⟨hw, rfl, rfl, fun _ => rfl⟩

/-- A fault that returned 0 left every entry of the page table, and gave
back what it took. -/
structure Undone (pt : PageTable) (g : Glob) (r : Nat) (pt' : PageTable) (g' : Glob) : Prop where
  zero : r = 0
  entry : ∀ m, pt'.entry m = pt.entry m
  back : pt.Wf → g.shared.Ok → Restored pt g pt' g'

theorem Undone.refl : Undone pt g 0 pt g := ⟨rfl, fun _ => rfl, fun hw _ => .refl hw⟩

theorem mappages_grows (hw : pt.Wf) (hva : va < maxVa)
    (h : mappages pt ph va pgSize pa perm = .ok (false, pt', ph')) : Grows pt ph pt' ph' := by
  obtain ⟨_, _, _, hg, _, ⟨_, rfl⟩ | ⟨hno, _⟩⟩ := mappages_one_spec hw (lt_two_pow_of_maxVa hva) h
  · exact hg
  · cases hno

/-- lazy_mmap maps the page, or everything is given back. -/
theorem Lazy.undone (h : Lazy pt g v va r pt' g') (hva : va < maxVa) :
    (∃ g1 ph, Supplied g v va r g1 ∧ g' = { g1 with phys := ph }
      ∧ mappages pt g1.phys va pgSize r v.perm = .ok (true, pt', ph))
    ∨ Undone pt g r pt' g' := by
  cases h with
  | mapped hsup hmap => exact .inl ⟨_, _, hsup, rfl, hmap⟩
  | empty => exact .inr .refl
  | unregistered hfill hfree =>
    obtain ⟨hsh, _, hcount, _⟩ := fillPage_spec hfill
    refine .inr ⟨rfl, fun _ => rfl, fun hw _ => ⟨hw, rfl, hsh, fun x => ?_⟩⟩
    have h1 := hcount x
    have h2 := kfree_count hfree x
    dsimp only at h1 h2 ⊢
    omega
  | dropped hs hsup hmap hd =>
    refine .inr ⟨rfl, mappages_failed hva hmap, fun hw hok => ?_⟩
    have hg := mappages_grows hw hva hmap
    obtain ⟨t, ph2, hd', rfl⟩ := decref_glob hd
    cases hsup with
    | hit _ hl =>
      obtain ⟨rfl, rfl⟩ := decref_incref hl (hok.pos _ _ _ hl) hd'
      exact ⟨hg.wf, hg.leaf, rfl, hg.ledger⟩
    | miss _ hl hfill halloc =>
      -- no table: the entry goes, and both pages with it
      obtain ⟨rfl, ph3, hk1, hk2⟩ := decref_insert rfl hd'
      obtain ⟨hsh, _, hcount, _⟩ := fillPage_spec hfill
      refine ⟨hg.wf, hg.leaf, hsh, fun x => ?_⟩
      have h1 := hcount x
      have h2 := kalloc_count halloc x
      have h3 := hg.ledger x
      have h4 := kfree_count hk1 x
      have h5 := kfree_count hk2 x
      dsimp only at h1 h2 h3 h4 h5 ⊢
      omega
    | own hown =>
      rw [hs] at hown
      cases hown
  | freed hpage hmap hfree =>
    refine .inr ⟨rfl, mappages_failed hva hmap, fun hw _ => ?_⟩
    have hg := mappages_grows hw hva hmap
    obtain ⟨hsh, _, hcount⟩ := privatePage_spec hpage
    refine ⟨hg.wf, hg.leaf, hsh, fun x => ?_⟩
    have h1 := hcount x
    have h2 := hg.ledger x
    have h3 := kfree_count hfree x
    dsimp only at h1 h2 h3 ⊢
    omega

/-- What a fault did: it was handled in one of the three ways, or it
returned 0 and everything is given back. -/
theorem vmfault_cases (h : vmfault p g va read = .ok (r, p', g')) :
    (va < maxVa ∧ Handled p g va read r p' g') ∨ Undone p.pagetable g r p'.pagetable g' := by
  have hround : va < maxVa → pgRoundDown va < maxVa := (pgRoundDown_le va).trans_lt
  cases vmfault_fault h with
  | mmap hin h =>
    cases h with
    | refused => exact .inr .refl
    | resident hat hva he => exact .inl ⟨hva, .resident hin hat he⟩
    | fault hat hva hnone hallow hlazy =>
      rcases hlazy.undone (hround hva) with
        ⟨g1, ph, hsup, rfl, hmap⟩ | hback
      · exact .inl ⟨hva, .mapped hin hat hnone hallow hsup hmap⟩
      · exact .inr hback
  | refused => exact .inr .refl
  | @heap mem ok _ _ _ _ hout hva hsz hnone halloc hmap hg =>
    cases ok with
    | true =>
      cases hg
      exact .inl ⟨hva, .heap hout hsz hnone halloc hmap⟩
    | false =>
      obtain ⟨ph', hfree, rfl⟩ := hg
      refine .inr ⟨rfl, mappages_failed (hround hva) hmap, fun hw _ => ?_⟩
      have hgr := mappages_grows hw (hround hva) hmap
      refine ⟨hgr.wf, hgr.leaf, rfl, fun x => ?_⟩
      have h1 := kalloc_count halloc x
      have h2 := hgr.ledger x
      have h3 := kfree_count hfree x
      dsimp only [Phys.zero] at h1 h2 h3 ⊢
      omega

theorem vmfault_handled (h : vmfault p g va read = .ok (r, p', g'))
    (hr : r ≠ 0) : va < maxVa ∧ Handled p g va read r p' g' := by
  rcases vmfault_cases h with hh | hback
  · exact hh
  · exact absurd hback.zero hr

/-- The page table after a handled fault: as it was, or with one entry
more, for the page of `va`. -/
theorem Handled.entries (h : Handled p g va read r p' g') (hva : va < maxVa) :
    (∃ e i, p.pagetable.entry (va / pgSize) = some e ∧ r = e.pa ∧ p' = p
      ∧ g' = g ∧ p.InMmap va ∧ vmaAt p va = some i)
    ∨ ∃ perm, p.pagetable.entry (va / pgSize) = none
      ∧ (∀ m, p'.pagetable.entry m = if m = va / pgSize then some ⟨r, perm⟩
          else p.pagetable.entry m)
      ∧ ((p.InMmap va ∧ ∃ i, vmaAt p va = some i
          ∧ (p.vma i).allows read = true ∧ perm = (p.vma i).perm)
        ∨ (¬ p.InMmap va ∧ va < p.sz ∧ perm = heapPerm)) := by
  have hlt : pgRoundDown va < 2 ^ 64 := lt_two_pow_of_maxVa ((pgRoundDown_le va).trans_lt hva)
  have hnew : ∀ {pt pt' : PageTable} {ph ph' : Phys} {r : Nat} {perm : Perm},
      mappages pt ph (pgRoundDown va) pgSize r perm = .ok (true, pt', ph') →
      ∀ m, pt'.entry m = if m = va / pgSize then some ⟨r, perm⟩ else pt.entry m := by
    intro pt pt' ph ph' r perm hmap m
    obtain ⟨_, _, _, ⟨hf, _⟩ | ⟨_, _, he⟩⟩ := mappages_entry hlt hmap
    · cases hf
    · rw [he, roundDown_div]
  cases h with
  | resident hin hat he => exact .inl ⟨_, _, he, rfl, rfl, rfl, hin, hat⟩
  | mapped hin hat hnone hallow hsup hmap =>
    exact .inr ⟨_, hnone, hnew hmap, .inl ⟨hin, _, hat, hallow, rfl⟩⟩
  | heap hout hsz hnone halloc hmap =>
    exact .inr ⟨_, hnone, hnew hmap, .inr ⟨hout, hsz, rfl⟩⟩

-- == progress

theorem userPte_entry (hva : va < maxVa) :
    userPte p va read = (p.pagetable.entry (va / pgSize)).filter fun e => e.grants read := by
  rw [userPte, if_neg (Nat.not_le.mpr hva), walkValid_entry hva]
  cases p.pagetable.entry (va / pgSize) with
  | none => rfl
  | some e => rw [Option.filter_some]

theorem userPte_some {e : Pte} (h : userPte p va read = some e) :
    va < maxVa ∧ p.pagetable.entry (va / pgSize) = some e ∧ e.grants read = true := by
  have hva : va < maxVa := by
    by_contra hge
    rw [userPte, if_pos (Nat.not_lt.mp hge)] at h
    cases h
  rw [userPte_entry hva] at h
  exact ⟨hva, Option.filter_eq_some_iff.mp h⟩

/-- What the flags must be before a fault: a resident page has the flag
of the access, and a page that is not resident lies in the heap or in a
mapping that can be read. -/
def FaultFits (p : Proc) (va : Nat) (read : Bool) : Prop :=
  match p.pagetable.entry (va / pgSize) with
  | some e => e.grants read = true
  | none => p.InMmap va → ∀ i, vmaAt p va = some i → hasBit (p.vma i).prot protRead = true

/-- After a fault that vmfault handled, the instruction gets through
exactly when the flags were right before: lazy_mmap returns a resident
page without looking at its flags, and maps the pages of a write-only
mapping with flags the hardware refuses. -/
theorem handled_fault_progresses_iff {p p' : Proc} {g g' : Glob} {va r : Nat}
    {read : Bool} (h : vmfault p g va read = .ok (r, p', g')) (hr : r ≠ 0) :
    (userPte p' va read).isSome = true ↔ FaultFits p va read := by
  obtain ⟨hva, hh⟩ := vmfault_handled h hr
  rw [userPte_entry hva, Option.isSome_filter]
  unfold FaultFits
  rcases hh.entries hva with
    ⟨e, i, he, _, rfl, _⟩ | ⟨perm, hnone, hnew, hcase⟩
  · rw [he]
    rfl
  rw [hnone, hnew, if_pos rfl, Option.any_some]
  rcases hcase with ⟨hin, i, hat, hallow, rfl⟩ | ⟨hout, _, rfl⟩
  · -- the flags are the mapping's
    have hgrant : (⟨r, (p.vma i).perm⟩ : Pte).grants read
        = hasBit (p.vma i).prot protRead := by
      cases read with
      | true => simp [Pte.grants, Vma.perm]
      | false =>
        have hw : hasBit (p.vma i).prot protWrite = true := hallow
        simp [Pte.grants, Vma.perm, hw]
    rw [hgrant]
    refine ⟨fun hread _ j hj => ?_, fun hfit => hfit hin i hat⟩
    rw [hat] at hj
    cases hj
    exact hread
  · exact ⟨fun _ hin => absurd hin hout, fun _ => by simp [Pte.grants, heapPerm]⟩

set_option maxRecDepth 10000

/-- A store to an untouched page of a read-write mapping. -/
theorem handled_fault_progresses_boot : ∃ k r p' g',
    runAs bootKernel 1 [.mmap 0 4096 3 1 0 0] = .ok k
      ∧ vmfault (k.proc 1) k.glob 0x40000000 false = .ok (r, p', g') ∧ r ≠ 0
      ∧ (userPte p' 0x40000000 false).isSome = true := by
  have hrun : ∃ k r p' g', runAs bootKernel 1 [.mmap 0 4096 3 1 0 0] = .ok k
      ∧ vmfault (k.proc 1) k.glob 0x40000000 false = .ok (r, p', g') ∧ r ≠ 0
      ∧ (k.proc 1).pagetable.entry (0x40000000 / pgSize) = none
      ∧ vmaAt (k.proc 1) 0x40000000 = some 0 ∧ ((k.proc 1).vma 0).prot = 3 :=
    ⟨_, _, _, _, rfl, rfl, by decide, rfl, rfl, rfl⟩
  obtain ⟨k, r, p', g', hk, hf, hr, he, hat, hprot⟩ := hrun
  refine ⟨k, r, p', g', hk, hf, hr,
    (handled_fault_progresses_iff hf hr).mpr ?_⟩
  unfold FaultFits
  rw [he]
  intro _ i hi
  rw [hat] at hi
  cases hi
  rw [hprot]
  decide

/-- A private read-only mapping, read once and then written: vmfault
returns the resident page, which stays read-only, so the store faults
forever. -/
theorem store_fault_repeats : ∃ k, Runs (fun _ _ _ => True) bootKernel k
    ∧ ∃ r p' g', vmfault (k.proc 1) k.glob 0x40000000 false = .ok (r, p', g')
      ∧ r ≠ 0 ∧ userPte p' 0x40000000 false = none :=
  have hr := (Runs.step .refl 1 (.mmap 0 4096 1 2 0 0) (by decide) rfl trivial
    rfl).step 1 (.fault 0x40000000 true) (by decide) rfl trivial rfl
  ⟨_, hr, _, _, _, rfl, by decide, rfl⟩

end Xv6Labs.Model
