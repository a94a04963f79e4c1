/-
The registry counts the shared PTEs, over whole runs.

sys_munmap and kexit both loop one page too far. When the next mapping
starts right there, the registry loses a reference of a key that nobody
unmapped; `Tidy` are the steps that do not meet this. `Tallied` adds up the
ledgers of all processes: the count of a key is the number of its PTEs, and
no physical page is used twice.
-/
import Mathlib.Algebra.BigOperators.Group.Finset.Piecewise
import Xv6Labs.Proofs.Books
import Xv6Labs.Proofs.ExecSpace

namespace Xv6Labs.Model

open Lib Finset

variable {p p' : Proc} {k k' : Kernel} {i : Nat}

variable {g g' : Glob} {op : Op} {va : Nat}

-- == the kernel's ledger

/-- Uses of a page by a slot of the process table. -/
def Proc.held (p : Proc) (x : Nat) : Nat := if p.state = .unused then 0 else p.uses x

/-- Uses of a page by the whole kernel. -/
def Kernel.uses (k : Kernel) (x : Nat) : Nat := k.glob.uses x + ∑ i ∈ range nproc, (k.proc i).held x

/-- Valid PTEs, over all page tables, that map the key through a shared
mapping. -/
def Kernel.sharedPtes (k : Kernel) (ip : Option Nat) (off : Nat) : Nat :=
  ∑ i ∈ range nproc, (k.proc i).sharedPtes k.glob ip off

theorem held_le (p : Proc) (x : Nat) : p.held x ≤ p.uses x := by
  unfold Proc.held
  split
  · exact Nat.zero_le _
  · exact Nat.le_refl _

theorem held_of_used (h : p.state ≠ .unused) (x : Nat) : p.held x = p.uses x := if_neg h

/-- The processes differ in nothing that is counted. -/
structure SameBooks (p p' : Proc) : Prop where
  state : p'.state = p.state
  vma : p'.vma = p.vma
  sz : p'.sz = p.sz
  pagetable : p'.pagetable = p.pagetable
  trapframe : p'.trapframe = p.trapframe

theorem SameBooks.refl (p : Proc) : SameBooks p p := ⟨rfl, rfl, rfl, rfl, rfl⟩

theorem SameBooks.held (h : SameBooks p p') (x : Nat) : p'.held x = p.held x := by
  unfold Proc.held Proc.uses
  rw [h.state, h.pagetable, h.trapframe, ownPages_congr h.vma (by rw [h.pagetable])]

theorem SameBooks.sharedPtes (h : SameBooks p p') (g : Glob) : p'.sharedPtes g = p.sharedPtes g :=
  sharedPtes_congr h.vma (by rw [h.pagetable]) rfl

theorem SameBooks.seated (h : SameBooks p p') (hs : p.Seated) : p'.Seated := by
  refine ⟨h.pagetable ▸ hs.table, fun n hn => ?_, h.sz ▸ hs.small⟩
  unfold Proc.HeapPage
  rw [h.sz, vmaAt_congr h.vma]
  exact hs.placed n (h.pagetable ▸ hn)

theorem SameBooks.isLive (h : SameBooks p p') : p'.isLive = p.isLive := by
  unfold Proc.isLive
  rw [h.state]

theorem reparent_books (k : Kernel) (i j : Nat) : SameBooks (k.proc j) ((reparent k i).proc j) := by
  obtain ⟨parent, heq⟩ := reparent_proc k i j
  rw [heq]
  exact ⟨rfl, rfl, rfl, rfl, rfl⟩

/-- The registry, the page tables and the free list agree. -/
structure Tallied (k : Kernel) : Prop where
  laid : LaidOut k
  files : ∃ d, Accounted d k
  seat : ∀ i, (k.proc i).isLive = true → (k.proc i).Seated
  free : ∀ i, (k.proc i).state = .unused → (k.proc i).pagetable.root = 0
  pipes : NoPipes k.glob
  shared : k.glob.shared.Ok
  refs : ∀ ip off, k.glob.shared.refs ip off = k.sharedPtes ip off
  once : ∀ x, k.uses x ≤ 1
  zero : k.uses 0 = 0

theorem Tallied.fits (h : Tallied k) (hi : i < nproc)
    (hl : (k.proc i).isLive = true) : Fits (k.proc i) k.glob := by
  refine ⟨(h.seat i hl).table, h.shared, fun ip off => ?_⟩
  have hrow := row_le_sum (f := fun i =>
    (k.proc i).sharedPtes k.glob ip off) hi
  have href := h.refs ip off
  unfold Kernel.sharedPtes at href
  omega

/-- The kernel with other bytes in memory. -/
def Kernel.withMem (k : Kernel) (mem : Nat → UInt8) : Kernel :=
  { k with glob := k.glob.setMem mem }

theorem Tallied.withMem (h : Tallied k) (mem : Nat → UInt8) : Tallied (k.withMem mem) := by
  obtain ⟨d, hacc⟩ := h.files
  exact { h with files := ⟨d, hacc.ref, hacc.idle⟩ }

theorem Tallied.layout (h : Tallied k) (hl : (k.proc i).isLive = true) : Layout (k.proc i) :=
  h.laid i (used_of_live hl)

/-- The pages of one live process and of the rest of the kernel are used
by the kernel as a whole. -/
theorem Kernel.uses_row (k : Kernel) (hi : i < nproc) (hl : (k.proc i).isLive = true) (x : Nat) :
    (k.proc i).uses x + k.glob.uses x ≤ k.uses x := by
  have hrow := row_le_sum (f := fun j => (k.proc j).held x) hi
  rw [held_of_used (used_of_live hl)] at hrow
  unfold Kernel.uses
  omega

theorem Tallied.zero_free (h : Tallied k) : 0 ∉ k.glob.phys.freelist := by
  intro hmem
  have hpos := List.count_pos_iff.mpr hmem
  have hz := h.zero
  unfold Kernel.uses Glob.uses at hz
  omega

/-- What a tidy step does to the registry and to the pages: entries go
only with their pages, no page is used that was not, and the PTEs of
shared mappings are old ones or to registered pages. -/
structure Stepped (k k' : Kernel) : Prop where
  settles : Settles k.glob k'.glob
  uses : ∀ x, k'.uses x ≤ k.uses x
  registered : ∀ j, j < nproc → Registered (k.proc j) k.glob (k'.proc j) k'.glob

theorem Stepped.refl (k : Kernel) : Stepped k k :=
  ⟨.of_eq rfl, fun _ => Nat.le_refl _, fun _ _ =>
    .of_old (fun _ _ he => he) fun _ _ => rfl⟩

theorem Kernel.put_others (k : Kernel) (s : Proc × Glob) (j : Nat)
    (hj : j ≠ i) : SameBooks (k.proc j) ((k.put i s).proc j) := by
  rw [Kernel.put_of_ne k _ hj]
  exact .refl _

/-- A PTE is old or the registry's, after two steps as after one, if the
registry did not change. -/
theorem Stepped.trans_same {k'' : Kernel} (h : Stepped k k')
    (h' : Stepped k' k'') (hs : k'.glob.shared = k.glob.shared)
    (hs' : k''.glob.shared = k'.glob.shared) : Stepped k k'' := by
  refine ⟨.of_eq (hs'.trans hs), fun x => (h'.uses x).trans (h.uses x), ?_⟩
  intro j hj n e ip off he hk
  rcases h'.registered j hj n e ip off he hk with ⟨he1, hk1⟩ | hnew
  · rcases h.registered j hj n e ip off he1 hk1 with hold | hnew
    · exact .inl hold
    · rw [hs']
      exact .inr hnew
  · exact .inr hnew

/-- No table and no trapframe is at address 0. -/
theorem frames_ne (hz : k.uses 0 = 0) (hi : i < nproc) (hu : (k.proc i).state ≠ .unused) :
    (k.proc i).trapframe ≠ 0 ∧ (k.proc i).pagetable.root ≠ 0 := by
  have hrow := row_le_sum (f := fun j => (k.proc j).held 0) hi
  rw [held_of_used hu] at hrow
  unfold Kernel.uses at hz
  unfold Proc.uses at hrow
  constructor
  · intro h0
    rw [h0, points_some, if_pos rfl] at hrow
    omega
  · intro h0
    have := tables_pos_root (k.proc i).pagetable
    rw [h0] at this
    omega

/-- The books of the kernel after a call that changed slot `i`, and the
parents of other processes. -/
theorem Tallied.update (h : Tallied k) (hi : i < nproc) (hlaid : LaidOut k')
    (hfiles : ∃ d, Accounted d k') (hothers : ∀ j, j ≠ i → SameBooks (k.proc j) (k'.proc j))
    (hseat : (k'.proc i).isLive = true → (k'.proc i).Seated)
    (hfree : (k'.proc i).state = .unused → (k'.proc i).pagetable.root = 0)
    (hpipes : NoPipes k'.glob) (hok : k'.glob.shared.Ok)
    (hip : ∀ f, (k.glob.ftable f).ref ≠ 0 → (k'.glob.ftable f).ip = (k.glob.ftable f).ip)
    (hrefs : ∀ ip off, k'.glob.shared.refs ip off + (k.proc i).sharedPtes k.glob ip off
      = k.glob.shared.refs ip off + (k'.proc i).sharedPtes k'.glob ip off)
    (huses : ∀ x, (k'.proc i).held x + k'.glob.uses x
      ≤ (k.proc i).held x + k.glob.uses x) (hset : Settles k.glob k'.glob)
    (hreg : Registered (k.proc i) k.glob (k'.proc i) k'.glob) : Tallied k' ∧ Stepped k k' := by
  obtain ⟨d, hacc⟩ := h.files
  have hmono : ∀ x, k'.uses x ≤ k.uses x := by
    intro x
    have hx := sum_exchange hi (fun j _ hj => (hothers j hj).held x)
    have := huses x
    unfold Kernel.uses
    omega
  have hips : ∀ j, j < nproc → ∀ s f, s < nvma →
      ((k.proc j).vma s).valid = true → ((k.proc j).vma s).file = some f →
      (k'.glob.ftable f).ip = (k.glob.ftable f).ip := by
    intro j hj s f hs hv hf
    have := hacc.mapped hj hs hv hf
    exact hip f (by omega)
  have hzero := hmono 0
  rw [h.zero] at hzero
  refine ⟨⟨hlaid, hfiles, fun j hj => ?_, fun j hj => ?_, hpipes, hok,
    fun ip off => ?_, fun x => (hmono x).trans (h.once x),
    Nat.le_zero.mp hzero⟩, hset, hmono, fun j hj => ?_⟩
  · by_cases hji : j = i
    · subst hji
      exact hseat hj
    · rw [(hothers j hji).isLive] at hj
      exact (hothers j hji).seated (h.seat j hj)
  · by_cases hji : j = i
    · subst hji
      exact hfree hj
    · rw [(hothers j hji).state] at hj
      rw [(hothers j hji).pagetable]
      exact h.free j hj
  · -- the PTEs of the others stand for the keys they stood for
    have hx := sum_exchange (f := fun j => (k'.proc j).sharedPtes k'.glob ip off) hi
      (fun j hj hji => by
        rw [(hothers j hji).sharedPtes, sharedPtes_ips (hips j hj)])
    have h1 := hrefs ip off
    have h2 := h.refs ip off
    unfold Kernel.sharedPtes at h2 ⊢
    omega
  · by_cases hji : j = i
    · subst hji
      exact hreg
    have hsame := hothers j hji
    refine .of_old (fun n e he => ?_) fun n _ => ?_
    · rw [← hsame.pagetable]
      exact he
    · rw [sharedKey_congr hsame.vma (rfl : k'.glob.ftable = k'.glob.ftable),
        sharedKey_ips (hips j hj)]

/-- A call that keeps the books of its process keeps those of the
kernel. -/
theorem Tallied.put (h : Tallied k) (hi : i < nproc)
    (hl : (k.proc i).isLive = true) (hlaid : LaidOut (k.put i (p, g)))
    (hfiles : ∃ d, Accounted d (k.put i (p, g))) (hp : p.state ≠ .unused)
    (hb : Booked (k.proc i) k.glob p g ∧ p.Seated) :
    Tallied (k.put i (p, g)) ∧ Stepped k (k.put i (p, g)) := by
  refine h.update hi hlaid hfiles (fun j hj => ?_) ?_ ?_ hb.1.pipes
    hb.1.moves.shared hb.1.ip ?_ ?_ hb.1.settles ?_
  · rw [Kernel.put_of_ne k _ hj]
    exact .refl _
  · rw [Kernel.put_self]
    exact fun _ => hb.2
  · rw [Kernel.put_self]
    exact fun hst => absurd hst hp
  · rw [Kernel.put_self]
    exact hb.1.moves.refs
  · intro x
    have hx := hb.1.moves.uses x
    rw [Kernel.put_self, held_of_used hp, held_of_used (used_of_live hl)]
    exact hx.le
  · rw [Kernel.put_self]
    exact hb.1.registered

/-- Work on files that leaves the process its mappings and its pages. -/
theorem FilesKept.booked (h : FilesKept (fun f => (g.ftable f).ref ≠ 0) g g') (hp : OnlyOfile p p')
    (hseat : p.Seated) (hf : Fits p g)
    (hopen : ∀ s f, s < nvma → (p.vma s).valid = true →
      (p.vma s).file = some f → (g.ftable f).ref ≠ 0) :
    Booked p g p' g' ∧ p'.Seated := by
  obtain ⟨ofile, rfl⟩ := hp
  have hm := h.moves hf hopen
  refine ⟨⟨hm.trans (.of_same (hf.moves hm) rfl rfl rfl), .of_eq h.shared,
    h.pipes, h.ip, .of_old (fun _ _ he => he) fun n _ => ?_⟩,
    hseat.table, hseat.placed, hseat.small⟩
  rw [sharedKey_congr (show ({ p with ofile } : Proc).vma = p.vma from rfl)
    (show g'.ftable = g'.ftable from rfl),
    sharedKey_ips fun s f hs hv hfile => h.ip f (hopen s f hs hv hfile)]

-- == a process without mappings

/-- No slot of the process is in use. -/
def Proc.NoMaps (p : Proc) : Prop := ∀ s, s < nvma → (p.vma s).valid = false

/-- Without mappings the process owns all pages of its table. -/
theorem Proc.Plain.uses (h : p.Plain) (x : Nat) :
    p.uses x = p.pagetable.tables x + p.pagetable.pages x + points (some p.trapframe) x := by
  unfold Proc.uses
  rw [(columns_of_no_maps h.maps).2.1]

theorem Proc.Plain.seated (h : p.Plain) (hsz : p.sz ≤ mmapBase) : p.Seated :=
  ⟨h.table, fun n hn => (h.below n hn).imp_right .inl, hsz⟩

theorem Proc.Seated.plain (h : p.Seated) (hm : p.NoMaps) : p.Plain := by
  have htf : mmapBase ≤ Model.trapframe := by decide
  refine ⟨hm, h.table, fun n hn => ?_, h.small.trans htf⟩
  rcases h.placed n hn with hheap | htop | hvma
  · exact .inl hheap
  · exact .inr htop
  · obtain ⟨s, hs⟩ := Option.isSome_iff_exists.mp hvma
    obtain ⟨hlt, hv, _⟩ := vmaAt_some hs
    rw [hm s hlt] at hv
    cases hv

/-- Such a process shares nothing, so a call that exchanges pages with the
free list keeps the books. -/
theorem Exchanges.booked (h : Exchanges p g p' g') (hp : p.Plain) (hf : Fits p g) (hg : NoPipes g)
    (hsz : p'.sz ≤ mmapBase) : Booked p g p' g' ∧ p'.Seated := by
  obtain ⟨hnone, _, hptes⟩ := columns_of_no_maps h.plain.maps
  refine ⟨⟨⟨h.plain.table, h.shared ▸ hf.shared, fun ip off => ?_,
    fun x => ?_⟩, .of_eq h.shared, h.noPipes hg, fun f _ => by rw [h.ftable],
    fun n e ip off _ hk => ?_⟩, h.plain.seated hsz⟩
  · rw [h.shared, hptes, (columns_of_no_maps hp.maps).2.2]
  · have hx := h.ledger x
    unfold Glob.uses
    rw [h.plain.uses, hp.uses, h.frame, h.shared]
    omega
  · rw [Proc.sharedKey, hnone] at hk
    cases hk

-- == one step

/-- The step leaves the process smaller than where mappings start. -/
def EndsSmall (k : Kernel) (i : Nat) (op : Op) : Prop :=
  ∀ k', step k i op = .ok k' → (k'.proc i).sz ≤ mmapBase

/-- The condition on a step: lengths and addresses are whole pages, and
the page after a range that is unmapped, by sys_munmap or at exit, holds
nothing shared. sys_sbrk and kexec are for a process without mappings,
and so is a kwait that reaps a child and wants its status. Pipes are left
out: their pages are in none of the ledgers. -/
def Tidy (k : Kernel) (i : Nat) : Op → Prop
  | .mmap _ len _ _ _ _ => 0 < len.toInt ∧ len.toInt % pgSize = 0
  | .munmap addr len => MunmapTidy (k.proc i) addr.toNat len.toInt
  | .exit _ => (k.proc i).ExitClear
  | .sbrk n eager => (k.proc i).NoMaps ∧ EndsSmall k i (.sbrk n eager)
  | .exec path argv => (k.proc i).NoMaps ∧ EndsSmall k i (.exec path argv)
    ∧ ∀ s ∈ argv, s.length < pgSize
  | .wait addr => ∀ j, zombieChild k i = some j →
    (addr = 0 ∨ (k.proc i).NoMaps) ∧ (k.proc j).pagetable.Wf
  | .pipe _ => False
  | _ => True

theorem Tidy.keepsLayout (h : Tidy k i op) : KeepsLayout k i op := by
  cases op with
  | mmap => exact .inl h.1.le
  | munmap => exact h.cuts
  | _ => trivial

/-- The books after a fork: the child's pages came from the free list, and
none of them is in a shared mapping. -/
theorem kfork_tallied {o : Option Nat} (h : Tallied k)
    (hl : (k.proc i).isLive = true) (hlaid : LaidOut k')
    (hfiles : ∃ d, Accounted d k') (hf : kfork k i = .ok (o, k')) : Tallied k' ∧ Stepped k k' := by
  cases o with
  | some j =>
    obtain ⟨hseat, hptes, huses, hsh, hpipes, hip⟩ := kfork_booked hlaid (h.seat i hl) h.pipes hf
    obtain ⟨hj, hst, _, _, _, _, _, _, s, _, _, _, hrest, hk'⟩ := kfork_some hf
    obtain ⟨d, hacc⟩ := h.files
    -- the slot was free, so it counted nothing
    have hnone : ∀ ip off, (k.proc j).sharedPtes k.glob ip off = 0 :=
      (columns_of_no_maps (hacc.idle j (not_live_of_state (.inl hst))).vma).2.2 k.glob
    obtain ⟨ofile, hs⟩ := forkRest_frame (fun _ => rfl) hrest
    have hused : (k'.proc j).state ≠ .unused := by
      rw [hk', Kernel.put_self, hs]
      intro hst'
      cases hst'
    refine h.update hj hlaid hfiles (fun a ha => ?_) (fun _ => hseat)
      (fun hst' => absurd hst' hused) hpipes (hsh ▸ h.shared)
      (fun f _ => hip f) (fun ip off => ?_) (fun x => ?_) (.of_eq hsh)
      fun n e ip off he hk => ?_
    · rw [hk', Kernel.put_of_ne _ _ ha]
      exact .refl _
    · rw [hsh, hnone, hptes]
    · rw [held_of_used hused]
      have := huses x
      omega
    -- the child has no PTE in a shared mapping
    have hkey : (k'.proc j).keyAt k'.glob n = some (ip, off) := by
      rw [Proc.keyAt, he]
      exact hk
    have hlt : n < 2 ^ 26 := hseat.table.leaf_lt (by rw [he]; rfl)
    have := sharedPtes_pos hlt hkey
    rw [hptes ip off] at this
    omega
  | none =>
    have hcount := kfork_none_free (h.seat i hl).table (h.seat i hl).small h.free h.zero_free hf
    rcases kfork_none hf with rfl | ⟨j, hj, hst, tf, pt, ph, hk'⟩
    · exact ⟨h, .refl _⟩
    obtain ⟨d, hacc⟩ := h.files
    have hidle := hacc.idle j (not_live_of_state (.inl hst))
    have hglob : k'.glob = { k.glob with phys := ph } := by
      rw [hk', Kernel.put_glob]
    have hproc : k'.proc j = ((k.proc j).allocated k.nextpid tf pt).freed := by
      rw [hk', Kernel.put_self]
    refine h.update hj hlaid hfiles (fun a ha => ?_) ?_ ?_ ?_ ?_ ?_ ?_ ?_
      (.of_eq (by rw [hglob])) fun n e ip off _ hk => ?_
    · rw [hk', Kernel.put_of_ne _ _ ha]
      exact .refl _
    · rw [hproc]
      intro hlive
      cases hlive
    · rw [hproc]
      exact fun _ => rfl
    · rw [hglob]
      exact h.pipes
    · rw [hglob]
      exact h.shared
    · intro f _
      rw [hglob]
    · intro ip off
      rw [(columns_of_no_maps hidle.vma).2.2, hproc, (columns_of_no_maps fun _ _ => rfl).2.2, hglob]
    · intro x
      have hc := hcount x
      have h1 : (k'.proc j).held x = 0 := by
        rw [hproc]
        exact if_pos rfl
      rw [hglob] at hc ⊢
      unfold Glob.uses
      dsimp only at hc ⊢
      omega
    · rw [hproc, Proc.sharedKey] at hk
      cases hk

/-- The books after an exit: the pages of the mappings went back, those
below the size stay with the zombie. -/
theorem kexit_tallied {status : Int} (h : Tallied k) (hi : i < nproc)
    (hl : (k.proc i).isLive = true) (hc : (k.proc i).ExitClear)
    (hlaid : LaidOut k') (hfiles : ∃ d, Accounted d k')
    (hs : kexit k i status = .ok k') : Tallied k' ∧ Stepped k k' := by
  obtain ⟨_, ⟨p, g⟩, hself, hk'⟩ := kexit_ok hs
  obtain ⟨parent, heq⟩ := reparent_proc k i i
  have hsame := reparent_books k i i
  have hf := h.fits hi hl
  have hm := Moves.of_same hf hsame.pagetable hsame.trapframe hsame.vma
  have hlay : Layout ((reparent k i).proc i) := by
    rw [heq]
    exact (h.layout hl).congr rfl rfl
  have hclear : ((reparent k i).proc i).ExitClear := by
    rw [heq]
    exact hc
  have hb := exitSelf_booked hlay (hf.moves hm) h.pipes hclear hself
  have hm' := hm.trans hb.moves
  have hp : k'.proc i = p := by rw [hk', Kernel.put_self]
  have hg : k'.glob = g := by rw [hk', Kernel.put_glob]
  have hst : p.state = .zombie := by
    obtain ⟨pt, rfl⟩ := exitSelf_frame hself
    rfl
  refine h.update hi hlaid hfiles (fun j hj => ?_) ?_ ?_ (hg ▸ hb.pipes)
    (hg ▸ hb.moves.shared) (hg ▸ hb.ip) ?_ ?_ (hg ▸ hb.settles) ?_
  · rw [hk', Kernel.put_of_ne _ _ hj]
    exact reparent_books k i j
  · rw [hp]
    intro hlive
    rw [not_live_of_state (.inr hst)] at hlive
    cases hlive
  · rw [hp, hst]
    intro hun
    cases hun
  · rw [hp, hg]
    exact hm'.refs
  · intro x
    have hx := hm'.uses x
    have := held_le p x
    rw [hp, hg, held_of_used (used_of_live hl)]
    omega
  · rw [hp, hg]
    intro n e ip off he hk
    have hreg := hb.registered n e ip off he hk
    rw [hsame.pagetable, sharedKey_congr hsame.vma (rfl : k.glob.ftable = k.glob.ftable)] at hreg
    exact hreg

/-- The books after a call that touched the page table of its process
alone. -/
theorem Tallied.put_table (h : Tallied k) (hi : i < nproc) (hl : (k.proc i).isLive = true)
    (hf : OnlyTable (k.proc i) p ∧ Quiet k.glob g) (hb : Booked (k.proc i) k.glob p g ∧ p.Seated) :
    Tallied (k.put i (p, g)) ∧ Stepped k (k.put i (p, g)) := by
  obtain ⟨d, hacc⟩ := h.files
  have hlive := hf.1.isLive.trans hl
  exact h.put hi hl (h.laid.put_table (used_of_live hl) hf.1)
    ⟨d, hacc.put hi hl hlive (.of_frame hf)⟩ (used_of_live hlive) hb

theorem vmfault_tallied {r : Nat} {read : Bool} (h : Tallied k)
    (hi : i < nproc) (hl : (k.proc i).isLive = true)
    (hm : vmfault (k.proc i) k.glob va read = .ok (r, p, g)) :
    Tallied (k.put i (p, g)) ∧ Stepped k (k.put i (p, g)) :=
  h.put_table hi hl (vmfault_frame _ hm)
    (vmfault_booked (h.layout hl) (h.seat i hl) (h.fits hi hl) h.pipes hm)

/-- A store is a fault, or nothing, and then a byte of memory. -/
theorem userStore_fault {b : UInt8} {ok : Bool} (h : userStore p g va b = .ok (ok, p', g')) :
    ∃ g1, (p' = p ∧ g1 = g ∨ ∃ r, vmfault p g va false = .ok (r, p', g1))
      ∧ (g' = g1 ∨ ∃ mem, g' = g1.setMem mem) := by
  obtain ⟨⟨o, p1, g1⟩, hacc, h⟩ := bind_ok h
  have hmid : p1 = p ∧ g1 = g ∨ ∃ r, vmfault p g va false = .ok (r, p1, g1) := by
    simp only [userAccess] at hacc
    split at hacc
    · cases hacc
      exact .inl ⟨rfl, rfl⟩
    obtain ⟨⟨r, p2, g2⟩, hf, hacc⟩ := bind_ok hacc
    refine .inr ⟨r, ?_⟩
    split at hacc
    · cases hacc
      exact hf
    · split at hacc <;> cases hacc <;> exact hf
  cases o with
  | none =>
    cases h
    exact ⟨_, hmid, .inl rfl⟩
  | some a =>
    cases h
    exact ⟨_, hmid, .inr ⟨_, rfl⟩⟩

/-- The books after a wait: a child that is reaped gives its pages to the
free list, after its status is copied out. -/
theorem kwait_tallied {addr : Nat} {o : Option (Nat ⊕ Unit)} (h : Tallied k)
    (hi : i < nproc) (hl : (k.proc i).isLive = true)
    (hc : ∀ j, zombieChild k i = some j → (addr = 0 ∨ (k.proc i).NoMaps) ∧ (k.proc j).pagetable.Wf)
    (hlaid : LaidOut k') (hfiles : ∃ d, Accounted d k')
    (hw : kwait k i addr = .ok (o, k')) : Tallied k' ∧ Stepped k k' := by
  rcases kwait_cases hw with rfl | ⟨j, p, g, hj, hout, hk'⟩
  · exact ⟨h, .refl _⟩
  obtain ⟨hcaller, htable⟩ := hc j hj
  obtain ⟨hjn, hji, hdead⟩ := zombieChild_dead hl hj
  obtain ⟨d, hacc⟩ := h.files
  have hseat := h.seat i hl
  -- the caller, before the child is freed
  have hput : (Tallied (k.put i (p, g)) ∧ Stepped k (k.put i (p, g)))
      ∧ g.shared = k.glob.shared := by
    rcases hout with ⟨rfl, rfl⟩ | ⟨hne, ok, src, hcopy⟩
    · rw [k.put_same i]
      exact ⟨⟨h, .refl _⟩, rfl⟩
    have hplain := hseat.plain (hcaller.resolve_left hne)
    have he := copyout_exchanges hplain hseat.small hcopy
    have hf := copyout_frame _ hcopy
    refine ⟨h.put_table hi hl hf (he.booked hplain (h.fits hi hl) h.pipes ?_), he.shared⟩
    obtain ⟨⟨pt, hp⟩, _⟩ := hf
    dsimp only at hp
    rw [hp]
    exact hseat.small
  obtain ⟨⟨h1, hst⟩, hshared⟩ := hput
  rcases hk' with rfl | ⟨q, ph, hfree, rfl⟩
  · exact ⟨h1, hst⟩
  have hat : (k.put i (p, g)).proc j = k.proc j := Kernel.put_of_ne k _ hji
  have hused : (k.proc j).state ≠ .unused := by
    rw [(zombieChild_some hj).2.2]
    intro hun
    cases hun
  have hmaps := (hacc.idle j hdead).vma
  obtain ⟨_, hown, hptes⟩ := columns_of_no_maps hmaps
  obtain ⟨hnone, _, hptes'⟩ := columns_of_no_maps (p := (k.proc j).freed) hmaps
  obtain ⟨htf, hroot⟩ := frames_ne h1.zero hjn (by rw [hat]; exact hused)
  rw [hat] at htf hroot
  have hled := freeproc_ledger htable htf hroot hfree
  have hslot : ((k.put i (p, g)).put j (q, { g with phys := ph })).proc j
      = (k.proc j).freed := by rw [Kernel.put_self, freeproc_freed hfree]
  obtain ⟨h2, hst'⟩ := h1.update hjn hlaid hfiles (Kernel.put_others _ _)
    (fun hlive => by rw [hslot] at hlive; cases hlive)
    (fun _ => by rw [hslot]; rfl) h1.pipes h1.shared (fun _ _ => rfl)
    (fun ip off => by rw [hslot, hat, hptes, hptes']; rfl)
    (fun x => by
      have hx := hled x
      have hgone : (k.proc j).freed.held x = 0 := if_pos rfl
      rw [hslot, hat, hgone, held_of_used hused]
      unfold Proc.uses Glob.uses
      rw [hown, Kernel.put_glob, Kernel.put_glob]
      dsimp only
      omega)
    (.of_eq rfl) (fun n e ip off _ hk => by
      rw [hslot, Proc.sharedKey, hnone] at hk
      cases hk)
  exact ⟨h2, hst.trans_same hst' hshared rfl⟩

/-- One tidy step keeps the books. -/
theorem step_tallied (h : Tallied k) (hi : i < nproc)
    (hl : (k.proc i).isLive = true) (hc : Tidy k i op)
    (hs : step k i op = .ok k') : Tallied k' ∧ Stepped k k' := by
  have hlaid := step_layout h.laid hl hc.keepsLayout hs
  obtain ⟨d, hacc⟩ := h.files
  have hfiles : ∃ d, Accounted d k' := ⟨_, step_accounted hacc hi hl hs⟩
  have hlay := h.layout hl
  have hseat := h.seat i hl
  have hf := h.fits hi hl
  have hused := used_of_live hl
  have hopen : ∀ s f, s < nvma → ((k.proc i).vma s).valid = true →
      ((k.proc i).vma s).file = some f → (k.glob.ftable f).ref ≠ 0 := by
    intro s f hs' hv hfile
    have := hacc.mapped hi hs' hv hfile
    omega
  have hkept : ∀ p g, LaidOut (k.put i (p, g)) →
      (∃ d, Accounted d (k.put i (p, g))) → OnlyOfile (k.proc i) p
        ∧ FilesKept (fun f => (k.glob.ftable f).ref ≠ 0) k.glob g →
      Tallied (k.put i (p, g)) ∧ Stepped k (k.put i (p, g)) := by
    rintro p g h1 h2 ⟨ho, hk⟩
    refine h.put hi hl h1 h2 ?_ (hk.booked ho hseat hf hopen)
    obtain ⟨ofile, rfl⟩ := ho
    exact hused
  have hswap : ∀ p g, LaidOut (k.put i (p, g)) →
      (∃ d, Accounted d (k.put i (p, g))) → (k.proc i).Plain → Exchanges (k.proc i) k.glob p g →
      ((k.put i (p, g)).proc i).sz ≤ mmapBase →
      Tallied (k.put i (p, g)) ∧ Stepped k (k.put i (p, g)) := by
    intro p g h1 h2 hplain he hsz
    rw [Kernel.put_self] at hsz
    exact h.put hi hl h1 h2 (he.state ▸ hused) (he.booked hplain hf h.pipes hsz)
  cases step_did hs with
  | mmap hm =>
    refine h.put hi hl hlaid hfiles ?_ (sysMmap_booked hlay hseat hf h.pipes hc.1 (int32_lt _) hm)
    rcases sysMmap_cases hm with
      ⟨rfl, _⟩ | ⟨_, _, _, _, _, _, _, _, _, _, rfl⟩ <;> exact hused
  | munmap hm =>
    refine h.put hi hl hlaid hfiles ?_ (sysMunmap_booked hlay hseat hf h.pipes hc hm)
    rcases sysMunmap_cases hm with
      ⟨rfl, _⟩ | ⟨_, _, _, _, _, _, _, hloop, _, rfl⟩
    · exact hused
    · obtain ⟨⟨pt, hp⟩, _⟩ := munmapPages_frame hloop
      subst hp
      exact hused
  | fault hm => exact vmfault_tallied h hi hl hm
  | fork hm => exact kfork_tallied h hl hlaid hfiles hm
  | exit hm => exact kexit_tallied h hi hl hc hlaid hfiles hm
  | openFile hm => exact hkept _ _ hlaid hfiles (sysOpen_kept h.pipes hm)
  | close hm => exact hkept _ _ hlaid hfiles (sysClose_kept h.pipes hm)
  | dup hm => exact hkept _ _ hlaid hfiles (sysDup_kept h.pipes hm)
  | unlink hm =>
    obtain ⟨rfl, _, hfs⟩ := sysUnlink_covers (fun _ => Int.le_refl _) hm
    exact hkept _ _ hlaid hfiles ⟨.refl _, hfs.kept h.pipes⟩
  | @store _ _ _ p g hm =>
    obtain ⟨g1, hacc, hmem⟩ := userStore_fault hm
    have hmid : Tallied (k.put i (p, g1)) ∧ Stepped k (k.put i (p, g1)) := by
      rcases hacc with ⟨rfl, rfl⟩ | ⟨r, hfault⟩
      · rw [k.put_same i]
        exact ⟨h, .refl _⟩
      · exact vmfault_tallied h hi hl hfault
    rcases hmem with rfl | ⟨mem, rfl⟩
    · exact hmid
    · exact ⟨hmid.1.withMem mem, { hmid.2 with }⟩
  | sbrk hm =>
    have hp := hseat.plain hc.1
    exact hswap _ _ hlaid hfiles hp (sysSbrk_exchanges hp hseat.small (int32_lt _) hm) (hc.2 _ hs)
  | exec hm =>
    have hp := hseat.plain hc.1
    exact hswap _ _ hlaid hfiles hp
      (kexec_exchanges hp (List.count_eq_zero.mpr h.zero_free) hc.2.2 hm) (hc.2.1 _ hs)
  | wait hm =>
    refine kwait_tallied h hi hl (fun j hj => ?_) hlaid hfiles hm
    obtain ⟨haddr, htable⟩ := hc j hj
    exact ⟨haddr.imp_left fun h0 => by rw [h0]; rfl, htable⟩
  | pipe => exact hc.elim

-- == over runs

/-- A start: no mapping, nothing in the registry, no pipe, and no page
used twice. -/
structure FreshBooks (k : Kernel) : Prop where
  maps : FreshMaps k
  files : ∃ d, Accounted d k
  seat : ∀ i, (k.proc i).isLive = true → (k.proc i).Seated
  free : ∀ i, (k.proc i).state = .unused → (k.proc i).pagetable.root = 0
  pipes : NoPipes k.glob
  empty : ∀ h, k.glob.shared.buckets h = []
  once : ∀ x, k.uses x ≤ 1
  zero : k.uses 0 = 0

theorem FreshBooks.lookup (h : FreshBooks k) (ip : Option Nat) (off : Nat) :
    k.glob.shared.lookup ip off = none := by
  unfold SharedTab.lookup
  rw [h.empty]
  rfl

theorem FreshBooks.tallied (h : FreshBooks k) : Tallied k := by
  obtain ⟨d, hacc⟩ := h.files
  refine ⟨fun i hi => layout_fresh (h.maps i hi).1 (h.maps i hi).2, ⟨d, hacc⟩,
    h.seat, h.free, h.pipes, ⟨fun b => ?_, fun ip off e he => ?_⟩,
    fun ip off => ?_, h.once, h.zero⟩
  · rw [h.empty]
    exact List.nodup_nil
  · rw [h.lookup] at he
    cases he
  have hnone : ∀ i, ∀ s, s < nvma → ((k.proc i).vma s).valid = false := by
    intro i
    by_cases hl : (k.proc i).isLive = true
    · exact (h.maps i (used_of_live hl)).2
    · rw [Bool.not_eq_true] at hl
      exact (hacc.idle i hl).vma
  have hz : k.sharedPtes ip off = 0 := sum_zero fun i _ =>
    (columns_of_no_maps (hnone i)).2.2 k.glob ip off
  rw [hz]
  unfold SharedTab.refs
  rw [h.lookup]
  rfl

/-- The registry says what the page tables say: an entry counts the PTEs
of its key, a key has an entry when it has a PTE, and the page of an
entry is not free. -/
structure RegistryAccounts (k : Kernel) : Prop where
  refcnt : ∀ ip off e, k.glob.shared.lookup ip off = some e → e.refcnt = k.sharedPtes ip off
  entry : ∀ ip off, (k.glob.shared.lookup ip off).isSome = true ↔ 0 < k.sharedPtes ip off
  busy : ∀ ip off e, k.glob.shared.lookup ip off = some e → e.pa ∉ k.glob.phys.freelist

theorem Tallied.accounts (h : Tallied k) : RegistryAccounts k := by
  have hcnt : ∀ ip off e, k.glob.shared.lookup ip off = some e →
      e.refcnt = k.sharedPtes ip off := by
    intro ip off e he
    rw [← h.refs ip off]
    unfold SharedTab.refs
    rw [he]
    rfl
  refine ⟨hcnt, fun ip off => ⟨fun hs => ?_, fun hpos => ?_⟩, fun ip off e he hfree => ?_⟩
  · obtain ⟨e, he⟩ := Option.isSome_iff_exists.mp hs
    have h1 := hcnt ip off e he
    have h2 := h.shared.pos ip off e he
    omega
  · have href := h.refs ip off
    obtain ⟨e, he, _⟩ := lookup_of_refs (show 0 < k.glob.shared.refs ip off by omega)
    rw [he]
    rfl
  · -- free and in the registry would be two uses
    have h1 := (pages_pos_of_lookup he).1
    have h2 := List.count_pos_iff.mpr hfree
    have h3 := h.once e.pa
    unfold Kernel.uses Glob.uses at h3
    omega

theorem tallied_of_runs {k0 : Kernel} (h0 : FreshBooks k0) (hr : Runs Tidy k0 k) : Tallied k :=
  hr.inv Tallied h0.tallied fun _ _ _ _ hi hl hc h hs => (step_tallied h hi hl hc hs).1

-- == a start

theorem bootTable_tables (base x : Nat) :
    (bootTable base).tables x = points (some base) x
      + (points (some (base + 0x1000)) x + points (some (base + 0x2000)) x) := by
  have hrow : ∀ i, i < 512 → points ((bootTable base).mid i) x
      + ∑ j ∈ range 512, points ((bootTable base).low (i * 512 + j)) x
      = if i = 255 then points (some (base + 0x1000)) x
          + points (some (base + 0x2000)) x else 0 := by
    intro i _
    have hlow : ∀ j, j < 512 → points ((bootTable base).low (i * 512 + j)) x
        = if j = 511 then (if i = 255 then points (some (base + 0x2000)) x else 0) else 0 := by
      intro j hj
      simp only [bootTable]
      split <;> split <;> first | (split <;> first | rfl | omega) | rfl | omega
    rw [sum_same hlow, Finset.sum_ite_eq' (range 512) 511, if_pos (mem_range.mpr (by decide))]
    simp only [bootTable]
    split <;> rfl
  unfold PageTable.tables
  rw [sum_same hrow, Finset.sum_ite_eq' (range 512) 255, if_pos (mem_range.mpr (by decide))]
  rfl

theorem bootTable_fresh (base : Nat) : FreshTable (bootTable base) (base + 0x3000) := by
  refine ⟨⟨fun n hn => ?_, fun k hk => ?_, fun i hi => ?_⟩, fun n hn => ?_, ⟨_, rfl, rfl⟩⟩
  · obtain ⟨e, he⟩ := Option.isSome_iff_exists.mp hn
    rcases bootTable_leaf he with rfl | rfl <;> rfl
  · simp only [bootTable] at hk ⊢
    split at hk
    · next hk' =>
      rw [hk']
      rfl
    · cases hk
  · simp only [bootTable] at hi
    split at hi
    · omega
    · cases hi
  · obtain ⟨e, he⟩ := Option.isSome_iff_exists.mp hn
    exact bootTable_leaf he

/-- The pages of a process after boot: three tables and the trapframe. -/
theorem bootProc_uses (base : Nat) (hpt : p.pagetable = bootTable base)
    (htf : p.trapframe = base + 0x3000) (hv : ∀ s, s < nvma → (p.vma s).valid = false) (x : Nat) :
    p.uses x = [base, base + 0x1000, base + 0x2000, base + 0x3000].count x := by
  unfold Proc.uses
  rw [(columns_of_no_maps hv).2.1, hpt, htf, (bootTable_fresh base).pages, bootTable_tables]
  simp only [List.count_cons, List.count_nil, points_some, beq_iff_eq]
  omega

/-- All pages in use after boot. -/
def bootPages : List Nat :=
  bootGlob.phys.freelist
    ++ ([0x87000000, 0x87001000, 0x87002000, 0x87003000]
      ++ [0x87010000, 0x87011000, 0x87012000, 0x87013000])

theorem boot_uses (x : Nat) : bootKernel.uses x = bootPages.count x := by
  have hreg : bootGlob.shared.pages x = 0 := sum_zero fun _ _ => rfl
  have hsum : ∑ i ∈ range nproc, (bootKernel.proc i).held x
      = (bootKernel.proc 0).held x + (bootKernel.proc 1).held x := by
    rw [Finset.sum_range_succ', Finset.sum_range_succ', sum_zero fun i _ => ?_]
    · rw [Nat.zero_add, Nat.add_comm]
    · exact if_pos rfl
  have h0 := bootProc_uses (p := bootKernel.proc 0) 0x87000000 rfl rfl (fun _ _ => rfl) x
  have h1 := bootProc_uses (p := bootKernel.proc 1) 0x87010000 rfl rfl (fun _ _ => rfl) x
  unfold Kernel.uses Glob.uses bootPages
  rw [hsum, held_of_used (by decide), held_of_used (by decide), h0, h1,
    List.count_append, List.count_append]
  show bootGlob.phys.freelist.count x + bootGlob.shared.pages x + _ = _
  rw [hreg, Nat.add_zero]

theorem boot_books : FreshBooks bootKernel := by
  refine ⟨boot_fresh, ⟨_, boot_accounted⟩, fun i hi => ?_, fun i hi => ?_,
    fun f => ?_, fun _ => rfl, fun x => ?_, ?_⟩
  · match i with
    | 0 =>
      exact ⟨(bootTable_fresh 0x87000000).wf, fun n hn =>
        .inr (.inl ((bootTable_fresh 0x87000000).top n hn)), by decide⟩
    | 1 =>
      exact ⟨(bootTable_fresh 0x87010000).wf, fun n hn =>
        .inr (.inl ((bootTable_fresh 0x87010000).top n hn)), by decide⟩
    | i + 2 => cases hi
  · match i with
    | 0 => cases hi
    | 1 => cases hi
    | i + 2 => rfl
  · show (bootGlob.ftable f).type ≠ .pipe
    simp only [bootGlob]
    split <;> intro h <;> cases h
  · rw [boot_uses]
    exact List.nodup_iff_count_le_one.mp (by decide +kernel) x
  · rw [boot_uses]
    exact List.count_eq_zero.mpr (by decide +kernel)

-- == the result

/-- In a tidy run the registry counts the shared PTEs, and each step
returns the page of an entry to the free list exactly when the number of
its PTEs is zero after the step. -/
theorem registry_accounts_of_runs {k₀ k : Kernel} (h0 : FreshBooks k₀)
    (hr : Runs Tidy k₀ k) :
    RegistryAccounts k ∧ ∀ k', StepIf Tidy k k' → ∀ ip off e,
      k.glob.shared.lookup ip off = some e →
        (e.pa ∈ k'.glob.phys.freelist ↔ k'.sharedPtes ip off = 0) := by
  have hk := tallied_of_runs h0 hr
  refine ⟨hk.accounts, fun k' hstep ip off e he => ?_⟩
  obtain ⟨i, op, hi, hl, hc, hs⟩ := hstep
  obtain ⟨hk', hset⟩ := step_tallied hk hi hl hc hs
  have hacc := hk'.accounts
  rcases hset.settles ip off e he with ⟨e', he', hpa⟩ | ⟨hnone, hfree⟩
  · have hbusy := hacc.busy ip off e' he'
    rw [hpa] at hbusy
    have hpos := (hacc.entry ip off).mp (by rw [he']; rfl)
    exact ⟨fun hf => absurd hf hbusy, fun hz => by omega⟩
  refine ⟨fun _ => ?_, fun _ => hfree⟩
  by_contra hne
  have hsome := (hacc.entry ip off).mpr (Nat.pos_of_ne_zero hne)
  rw [hnone] at hsome
  cases hsome

set_option maxRecDepth 10000

/-- Two processes map a page of a file; one of them unmaps it, and the
other's reference is left. -/
theorem registry_accounts_of_runs_boot :
    ∃ k e, Runs Tidy bootKernel k
      ∧ k.glob.shared.lookup (some 0) 0 = some e ∧ e.refcnt = 1
      ∧ RegistryAccounts k :=
  have hr := ((((Runs.step .refl 1 (.mmap 0 8192 3 1 0 0) (by decide) rfl
    ⟨by decide, by decide⟩ rfl).step 1 (.fault 0x40000000 true) (by decide)
    rfl trivial rfl).step 1 .fork (by decide) rfl trivial rfl).step 2
    (.fault 0x40000000 true) (by decide) rfl trivial rfl).step 1
    (.munmap 0x40000000 8192) (by decide) rfl
    ⟨by decide, by decide, by decide, by decide,
      fun _ hi _ => Option.some.inj hi ▸ fun h => (nomatch h)⟩ rfl
  ⟨_, _, hr, rfl, rfl, (registry_accounts_of_runs boot_books hr).1⟩

/-- The calls on whole pages. -/
def WholePages : Kernel → Nat → Op → Prop
  | _, _, .mmap _ len _ _ _ _ => 0 < len.toInt ∧ len.toInt % pgSize = 0
  | _, _, .munmap addr len =>
    addr.toNat % pgSize = 0 ∧ 0 < len.toInt ∧ len.toInt % pgSize = 0
  | _, _, .fault _ _ | _, _, .fork | _, _, .exit _ => True
  | _, _, _ => False

/-- A page of a file is mapped, and behind it two pages of the same file,
which are touched. Unmapping the first mapping also decrements the key of
its end, the second page of the file: that entry goes while the PTE of
the second mapping stays. -/
theorem munmap_drops_live_entry :
    ∃ k, Runs WholePages bootKernel k ∧ ¬ RegistryAccounts k := by
  have hrun : ∃ k, Runs WholePages bootKernel k
      ∧ k.glob.shared.lookup (some 0) 4096 = none
      ∧ (k.proc 1).keyAt k.glob 0x40002 = some (some 0, 4096) :=
    have hr := ((((Runs.step .refl 1 (.mmap 0 4096 3 1 0 0) (by decide) rfl
      ⟨by decide, by decide⟩ rfl).step 1 (.mmap 0 8192 3 1 0 0) (by decide)
      rfl ⟨by decide, by decide⟩ rfl).step 1 (.fault 0x40001000 true)
      (by decide) rfl trivial rfl).step 1 (.fault 0x40002000 true)
      (by decide) rfl trivial rfl).step 1 (.munmap 0x40000000 4096)
      (by decide) rfl ⟨by decide, by decide, by decide⟩ rfl
    ⟨_, hr, rfl, rfl⟩
  obtain ⟨k, hr, hnone, hkey⟩ := hrun
  refine ⟨k, hr, fun h => ?_⟩
  have hpos := sharedPtes_pos (by decide) hkey
  have hrow := row_le_sum (n := nproc) (k := 1)
    (f := fun i => (k.proc i).sharedPtes k.glob (some 0) 4096) (by decide)
  have hsome := (h.entry (some 0) 4096).mpr (hpos.trans_le hrow)
  rw [hnone] at hsome
  cases hsome

end Xv6Labs.Model
