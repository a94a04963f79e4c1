/-
The books of one call.

Whatever a call is made of, file work, page faults, unmapping loops or
changes of the mapping slots, the result is the same `Booked`: the ledgers
are in step, and registry entries went only together with their pages.
-/
import Xv6Labs.Proofs.FilesKept
import Xv6Labs.Proofs.ForkSpace
import Xv6Labs.Proofs.Seats

namespace Xv6Labs.Model

open Lib Finset

variable {g g' : Glob} {p p' : Proc} {addr r : Nat} {len : Int}

variable {i j n va : Nat} {read : Bool} {k k' : Kernel}

-- == what is booked

/-- Every entry is still there with its page, or its page is free. -/
def Settles (g g' : Glob) : Prop :=
  ∀ ip off e, g.shared.lookup ip off = some e →
    (∃ e', g'.shared.lookup ip off = some e' ∧ e'.pa = e.pa)
      ∨ g'.shared.lookup ip off = none ∧ e.pa ∈ g'.phys.freelist

/-- Every PTE of a shared mapping was there before, for the same key, or
is to the page of its registry entry. -/
def Registered (p : Proc) (g : Glob) (p' : Proc) (g' : Glob) : Prop :=
  ∀ n e ip off, p'.pagetable.leaf n = some e →
    p'.sharedKey g' n = some (ip, off) →
    (p.pagetable.leaf n = some e ∧ p.sharedKey g n = some (ip, off))
      ∨ ∃ s, g'.shared.lookup ip off = some s ∧ s.pa = e.pa

/-- A call that keeps the books. -/
structure Booked (p : Proc) (g : Glob) (p' : Proc) (g' : Glob) : Prop where
  moves : Moves p g p' g'
  settles : Settles g g'
  pipes : NoPipes g'
  ip : ∀ f, (g.ftable f).ref ≠ 0 → (g'.ftable f).ip = (g.ftable f).ip
  registered : Registered p g p' g'

theorem Settles.of_eq (h : g'.shared = g.shared) : Settles g g' :=
  fun _ _ e he => .inl ⟨e, h ▸ he, rfl⟩

theorem Kept.settles (h : Kept g.shared g'.shared) : Settles g g' :=
  fun ip off e he => .inl (h ip off e he)

theorem sharedKey_ips
    (h : ∀ s f, s < nvma → (p.vma s).valid = true → (p.vma s).file = some f →
      (g'.ftable f).ip = (g.ftable f).ip) :
    p.sharedKey g' = p.sharedKey g := by
  funext n
  unfold Proc.sharedKey Proc.sharedAt
  cases hat : vmaAt p (n * pgSize) with
  | none => rfl
  | some s =>
    obtain ⟨hs, hv, _, _⟩ := vmaAt_some hat
    rw [Option.bind_some]
    split
    · cases hf : (p.vma s).file with
      | none => rfl
      | some f =>
        simp only [Option.map_some]
        rw [h s f hs hv hf]
    · rfl

theorem sharedPtes_ips
    (h : ∀ s f, s < nvma → (p.vma s).valid = true → (p.vma s).file = some f →
      (g'.ftable f).ip = (g.ftable f).ip) :
    p.sharedPtes g' = p.sharedPtes g := by
  unfold Proc.sharedPtes Proc.keyAt
  rw [sharedKey_ips h]

/-- Nothing was mapped, and what is mapped stands for the key it stood
for. -/
theorem Registered.of_old (hleaf : ∀ n e, p'.pagetable.leaf n = some e →
      p.pagetable.leaf n = some e)
    (hkey : ∀ n, (p'.pagetable.leaf n).isSome = true →
      p'.sharedKey g' n = p.sharedKey g n) : Registered p g p' g' := by
  intro n e ip off he hk
  refine .inl ⟨hleaf n e he, ?_⟩
  rw [← hkey n (by rw [he]; rfl)]
  exact hk

theorem FilesKept.moves {S : Nat → Prop} (h : FilesKept S g g') (hf : Fits p g)
    (hS : ∀ s f, s < nvma → (p.vma s).valid = true → (p.vma s).file = some f →
      S f) : Moves p g p g' := by
  refine ⟨hf.table, h.shared ▸ hf.shared, fun ip off => ?_, fun x => ?_⟩
  · rw [h.shared, sharedPtes_ips fun s f hs hv hfile => h.ip f (hS s f hs hv hfile)]
  · unfold Glob.uses
    rw [h.phys, h.shared]

theorem Moves.of_sharedAt (hf : Fits p g) (hpt : p'.pagetable = p.pagetable)
    (htf : p'.trapframe = p.trapframe)
    (h : ∀ n, (p.pagetable.leaf n).isSome = true →
      p'.sharedAt n = p.sharedAt n) : Moves p g p' g := by
  obtain ⟨hown, hptes⟩ := columns_of_sharedAt hpt h
  refine ⟨hpt ▸ hf.table, hf.shared, fun ip off => ?_, fun x => ?_⟩
  · rw [hptes]
  · unfold Proc.uses
    rw [hown, hpt, htf]

theorem Moves.of_same (hf : Fits p g) (hpt : p'.pagetable = p.pagetable)
    (htf : p'.trapframe = p.trapframe) (hv : p'.vma = p.vma) : Moves p g p' g :=
  .of_sharedAt hf hpt htf fun n _ => by rw [sharedAt_congr hv]

-- == vmfault

theorem Proc.Placed.fault (hp : p.Placed) (hv : p'.vma = p.vma) (hsz : p'.sz = p.sz)
    (hleaf : ∀ m, m ≠ n → p'.pagetable.leaf m = p.pagetable.leaf m)
    (hn : p'.pagetable.leaf n = p.pagetable.leaf n
      ∨ (vmaAt p (n * pgSize)).isSome ∨ p.HeapPage n) : p'.Placed := by
  intro m hm
  unfold Proc.HeapPage
  rw [hsz, vmaAt_congr hv]
  by_cases hmn : m = n
  · subst hmn
    rcases hn with heq | hvma | hheap
    · rw [heq] at hm
      exact hp m hm
    · exact .inr (.inr hvma)
    · exact .inl hheap
  · rw [hleaf m hmn] at hm
    exact hp m hm

/-- The page a fault maps in a shared mapping is the registry's. -/
theorem vmfault_registered (hl : Layout p) (hw : p.pagetable.Wf) (hw' : p'.pagetable.Wf)
    (h : vmfault p g va read = .ok (r, p', g')) : Registered p g p' g' := by
  intro n e ip off he hk
  obtain ⟨⟨pt, hp'⟩, hq⟩ := vmfault_frame _ h
  dsimp only at hp'
  have hkey : p'.sharedKey g' = p.sharedKey g := sharedKey_congr (by rw [hp']) hq.ftable
  rw [hkey] at hk
  rw [← hw'.entry_eq] at he
  rw [← hw.entry_eq]
  rcases vmfault_cases h with ⟨hva, hh⟩ | ⟨_, hsame, _⟩
  · rcases hh.entries hva with ⟨_, _, _, _, rfl, _⟩ | ⟨perm, hnone, hnew, _⟩
    · exact .inl ⟨he, hk⟩
    by_cases hn : n = va / pgSize
    · -- the page that was mapped: the key tells how it was supplied
      subst hn
      rw [hnew, if_pos rfl] at he
      cases he
      refine .inr ?_
      have hpage := vmaAt_page hl va
      cases hh with
      | resident _ _ he' =>
        rw [hnone] at he'
        cases he'
      | mapped hin hat _ _ hsup _ =>
        rw [hat] at hpage
        cases hsup with
        | hit hs hl' =>
          rw [sharedKey_of_shared g hpage hs] at hk
          cases hk
          exact incref_kept g.shared _ _ _ _ _ hl'
        | miss hs hl' hfill hself =>
          rw [sharedKey_of_shared g hpage hs] at hk
          cases hk
          exact ⟨_, (lookup_insert _ _).trans (if_pos ⟨rfl, rfl⟩), rfl⟩
        | own hs _ =>
          rw [Proc.sharedKey, sharedAt_none_of_private hpage hs] at hk
          cases hk
      | heap hout _ _ _ _ =>
        cases hat : vmaAt p va with
        | none =>
          rw [hat] at hpage
          rw [Proc.sharedKey, sharedAt_none_of_vmaAt hpage] at hk
          cases hk
        | some i =>
          obtain ⟨hi, hv, hlo, hhi⟩ := vmaAt_some hat
          have hok := hl.ok i hi hv
          have hbase := hok.base
          have hcur := hok.le_cur
          exact absurd ⟨by omega, by omega⟩ hout
    · rw [hnew, if_neg hn] at he
      exact .inl ⟨he, hk⟩
  · rw [hsame] at he
    exact .inl ⟨he, hk⟩

theorem vmfault_booked (hl : Layout p) (hseat : p.Seated) (hf : Fits p g) (hp : NoPipes g)
    (h : vmfault p g va read = .ok (r, p', g')) : Booked p g p' g' ∧ p'.Seated := by
  obtain ⟨hs, hplace⟩ := vmfault_served hl hseat.small hf h
  have hreg := vmfault_registered hl hf.table hs.moves.table h
  obtain ⟨⟨pt, rfl⟩, hq⟩ := vmfault_frame _ h
  refine ⟨⟨hs.moves, hs.kept.settles, fun f => ?_, fun f _ => ?_, hreg⟩, ?_⟩
  · rw [hq.ftable]
    exact hp f
  · rw [hq.ftable]
  · exact ⟨hs.moves.table, hseat.placed.fault rfl rfl hs.leaf hplace, hseat.small⟩

-- == sys_mmap

theorem sysMmap_booked {offset : Nat} {fd : Int} {prot flags : UInt32}
    (hl : Layout p) (hseat : p.Seated) (hf : Fits p g) (hp : NoPipes g)
    (hpos : 0 < len) (hlen : len < 2 ^ 31)
    (h : sysMmap p g addr len prot flags fd offset = .ok (r, p', g')) :
    Booked p g p' g' ∧ p'.Seated := by
  have hl' := sysMmap_layout hl hlen (.inl hpos.le) h
  rcases sysMmap_cases h with
    ⟨rfl, rfl, _⟩ | ⟨f, j, _, _, _, _, _, hfree, hdup, _, rfl⟩
  · exact ⟨⟨.refl hf, .of_eq rfl, hp, fun _ _ => rfl,
      .of_old (fun _ _ he => he) fun _ _ => rfl⟩, hseat⟩
  have hk : FilesKept (fun _ => True) g g' := filedupOpt_kept hp hdup
  have hfiles := hk.moves hf fun _ _ _ _ _ => trivial
  have hsame := fun n => newVma_sharedAt (n := n) hl hl'
    (freeSlot_some hfree).2 hseat.small hseat.placed
  refine ⟨⟨hfiles.trans (.of_sharedAt (hf.moves hfiles) rfl rfl
    fun n hn => (hsame n hn).2), .of_eq hk.shared, hk.pipes,
    fun f _ => hk.ip f trivial,
    .of_old (fun _ _ he => he) fun n hn => ?_⟩, hseat.table, fun n hn => ?_, hseat.small⟩
  · rw [sharedKey_ips fun _ f _ _ _ => hk.ip f trivial]
    unfold Proc.sharedKey
    rw [(hsame n hn).2]
  rcases hseat.placed n hn with hheap | htop | hvma
  · exact .inl hheap
  · exact .inr (.inl htop)
  · rw [(hsame n hn).1]
    exact .inr (.inr hvma)

-- == sys_munmap

/-- The condition on a sys_munmap: a page-aligned range, and if it goes
to the end of the mapping it is in, nothing shared is at stake on the
page after. -/
structure MunmapTidy (p : Proc) (addr : Nat) (len : Int) : Prop where
  addr_mod : addr % pgSize = 0
  len_mod : len % pgSize = 0
  len_pos : 0 < len
  no_wrap : addr + len < 2 ^ 64
  clear : ∀ i, vmaHolding p addr (u64 (addr + len)) = some i →
    u64 (addr + len) = (p.vma i).stop → p.EndClear (p.vma i)

theorem MunmapTidy.range (h : MunmapTidy p addr len) :
    addr < u64 (addr + len) ∧ u64 (addr + len) % pgSize = 0 := by
  have h1 := h.addr_mod
  have h2 := h.len_mod
  have h3 := h.len_pos
  have h4 := h.no_wrap
  have hu : u64 (addr + len) = addr + len.toNat := u64_of_lt (by omega) (by omega)
  unfold pgSize at *
  omega

theorem MunmapTidy.cuts (h : MunmapTidy p addr len) : MunmapCuts p addr len :=
  fun _ _ => ⟨fun _ _ => h.range, fun _ _ => ⟨h.range.1, h.addr_mod⟩⟩

theorem sysMunmap_booked (hl : Layout p) (hseat : p.Seated) (hf : Fits p g)
    (hp : NoPipes g) (ht : MunmapTidy p addr len) (h : sysMunmap p g addr len = .ok (r, p', g')) :
    Booked p g p' g' ∧ p'.Seated := by
  have hl' := sysMunmap_layout hl ht.cuts h
  rcases sysMunmap_cases h with
    ⟨rfl, rfl, _⟩ | ⟨i, p1, g1, g2, _, hhold, hwb, hloop, hclose, rfl⟩
  · exact ⟨⟨.refl hf, .of_eq rfl, hp, fun _ _ => rfl,
      .of_old (fun _ _ he => he) fun _ _ => rfl⟩, hseat⟩
  obtain ⟨hi, hv, hlo, hhi⟩ := vmaHolding_some hhold
  obtain ⟨⟨pt, hp1⟩, _⟩ := munmapPages_frame hloop
  subst hp1
  -- write back, unmap, close, shrink: each keeps the books
  have hk1 : FilesKept (fun _ => True) g g1 := writeBack_kept hp hwb
  have hm1 := hk1.moves hf fun _ _ _ _ _ => trivial
  obtain ⟨hun, hgone⟩ := munmapPages_unmapped hl (hf.moves hm1) hi hv hlo
    hhi ht.addr_mod (ht.clear i hhold) hloop
  have hp2 : NoPipes g2 := fun f => by
    rw [hun.files]
    exact hk1.pipes f
  have hk2 : FilesKept (fun _ => True) g2 g' := closeWhole_kept hp2 hclose
  have hm2 := hm1.trans hun.moves
  have hm3 := hm2.trans (hk2.moves (hf.moves hm2) fun _ _ _ _ _ => trivial)
  have hsame : ∀ n, (pt.leaf n).isSome = true →
      vmaAt (({ p with pagetable := pt } : Proc).setVma i
          (shrink (p.vma i) addr (u64 (addr + len)))) (n * pgSize)
        = vmaAt { p with pagetable := pt } (n * pgSize)
      ∧ (({ p with pagetable := pt } : Proc).setVma i
          (shrink (p.vma i) addr (u64 (addr + len)))).sharedAt n
        = ({ p with pagetable := pt } : Proc).sharedAt n := by
    intro n hn
    refine shrink_sharedAt hi hv hl' ht.range.1.le ?_
    by_contra hin
    have hnone := hgone n (by omega) (by omega)
    rw [hnone] at hn
    cases hn
  have hold : ∀ n e, pt.leaf n = some e → p.pagetable.leaf n = some e := by
    intro n e he
    rcases hun.leaf n with heq | hnone
    · rw [← heq]
      exact he
    · dsimp only at hnone
      rw [hnone] at he
      cases he
  refine ⟨⟨hm3.trans (.of_sharedAt (hf.moves hm3) rfl rfl
    fun n hn => (hsame n hn).2), ?_, hk2.pipes, fun f _ => ?_,
    .of_old (fun n e he => ?_) fun n hn => ?_⟩, hm2.table, fun n hn => ?_, hseat.small⟩
  · intro ip off e he
    have hdrop := hun.drops.entries ip off e (hk1.shared ▸ he)
    rw [← hk2.shared, ← hk2.phys] at hdrop
    exact hdrop
  · rw [hk2.ip f trivial, hun.files, hk1.ip f trivial]
  · exact hold n e he
  · rw [sharedKey_ips fun _ f _ _ _ => (hk2.ip f trivial).trans
      ((congrArg (fun t => (t f).ip) hun.files).trans (hk1.ip f trivial))]
    unfold Proc.sharedKey
    rw [(hsame n hn).2]
    rfl
  · obtain ⟨e, he⟩ := Option.isSome_iff_exists.mp hn
    have hold : (p.pagetable.leaf n).isSome = true := by
      rw [hold n e he]
      rfl
    rcases hseat.placed n hold with hheap | htop | hvma
    · exact .inl hheap
    · exact .inr (.inl htop)
    · rw [(hsame n hn).1]
      exact .inr (.inr hvma)

-- == kexit

/-- kexit's loops, with the flags they clear: the mappings go when no
shared page is left in them. -/
theorem exitVmas_moves (hl : Layout p) (hf : Fits p g) (hclear : p.ExitClear)
    (h : forUpto exitVma nvma (p, g) = .ok (p', g')) :
    Moves p g p' g' ∧ Drops g.shared g.phys g'.shared g'.phys ∧ g'.ftable = g.ftable := by
  obtain ⟨hun, hgone⟩ := exitVmas_unmapped hl hf hclear h
  obtain ⟨⟨pt, hp'⟩, _⟩ := exitVmas_frame h
  dsimp only at hp'
  obtain ⟨hown, hptes⟩ := dropMaps_columns hgone
    (show p'.pagetable = p'.pagetable from rfl) fun s hs => by
    rw [hp']
    simp only [Proc.dropMaps, if_pos hs]
  have htf : p'.trapframe = p.trapframe := by rw [hp']; rfl
  refine ⟨⟨hun.moves.table, hun.moves.shared, fun ip off => ?_, fun x => ?_⟩, hun.drops, hun.files⟩
  · rw [hptes]
    exact hun.moves.refs ip off
  · have hx := hun.moves.uses x
    unfold Proc.uses at hx ⊢
    rw [hown, htf]
    exact hx

/-- What a process leaves behind when it exits is counted too. -/
theorem exitSelf_booked {status : Int} (hl : Layout p) (hf : Fits p g)
    (hp : NoPipes g) (hclear : p.ExitClear)
    (h : exitSelf p g status = .ok (p', g')) : Booked p g p' g' := by
  obtain ⟨g1, c, p2, h1, _, h2, rfl⟩ := exitSelf_ok h
  have hk1 : FilesKept (fun _ => True) g g1 := exitFds_kept hp h1
  have hk := hk1.trans (iput_kept c hk1.pipes)
  have hm1 := hk.moves hf fun _ _ _ _ _ => trivial
  have hm2 : Moves p g { p.dropFds nofile with cwd := none } (iput g1 c) :=
    hm1.trans (.of_same (hf.moves hm1) rfl rfl rfl)
  have hf2 := hf.moves hm2
  have hl2 : Layout { p.dropFds nofile with cwd := none } := hl.congr rfl rfl
  obtain ⟨hm3, hdrops, hfiles⟩ := exitVmas_moves hl2 hf2 hclear h2
  have hf3 := hf2.moves hm3
  refine ⟨(hm2.trans hm3).trans (.of_same hf3 rfl rfl rfl), ?_,
    fun f => ?_, fun f _ => ?_, fun n e ip off _ hkey => ?_⟩
  · intro ip off e he
    exact hdrops.entries ip off e (hk.shared ▸ he)
  · rw [hfiles]
    exact hk.pipes f
  · rw [hfiles]
    exact hk.ip f trivial
  -- no mapping is left
  obtain ⟨⟨pt, hp2⟩, _⟩ := exitVmas_frame h2
  dsimp only at hp2
  have hno : ∀ s, s < nvma → (p2.vma s).valid = false := by
    intro s hs
    rw [hp2]
    simp only [Proc.dropMaps, if_pos hs]
  have hat := (columns_of_no_maps hno).1 n
  have hnone : (p2.sharedAt n).map (fun s => ((g'.ftable s.1).ip, s.2)) = some (ip, off) := hkey
  rw [hat] at hnone
  cases hnone

-- == kfork

/-- Without a page in a shared mapping, the process's pages are its
own. -/
theorem columns_of_none (h : ∀ n, (p.pagetable.leaf n).isSome = true → p.sharedAt n = none) :
    (∀ x, p.ownPages x = p.pagetable.pages x) ∧ ∀ g ip off, p.sharedPtes g ip off = 0 := by
  have hno : ∀ s, s < nvma → ((p.dropMaps nvma).vma s).valid = false := by
    intro s hs
    simp only [Proc.dropMaps, if_pos hs]
  obtain ⟨hat, hown, hptes⟩ := columns_of_no_maps hno
  obtain ⟨hown', hptes'⟩ := columns_of_sharedAt
    (show p.pagetable = (p.dropMaps nvma).pagetable from rfl)
    fun n hn => by rw [hat n, h n hn]
  refine ⟨fun x => ?_, fun g ip off => ?_⟩
  · rw [hown']
    exact hown x
  · rw [hptes']
    exact hptes g ip off

/-- What is mapped in a new child is a copied page or one of the two on
top. -/
theorem kfork_where (hseat : (k.proc i).Seated) (h : kfork k i = .ok (some j, k'))
    (hn : ((k'.proc j).pagetable.leaf n).isSome = true) :
    (k'.proc j).HeapPage n ∨ (n = trampPage ∨ n = tfPage) := by
  obtain ⟨_, _, tf, _, pt0, ph0, pt, ph, ⟨np, g⟩, _, hpt, hcopy, hrest, rfl⟩ := kfork_some h
  obtain ⟨ofile, rfl⟩ := forkRest_frame (fun _ => rfl) hrest
  obtain ⟨hfresh, _, _, _⟩ := procPagetable_some hpt
  obtain ⟨_, _, hcopied, _⟩ := uvmcopy_spec hseat.table hfresh.wf hseat.small
    (fun n hn => hfresh.low n hn) hcopy
  have hcopied := hcopied rfl
  rw [Kernel.put_self] at hn ⊢
  rcases Nat.lt_or_ge n (pagesBelow 0 (k.proc i).sz) with hlt | hge
  · refine .inl ?_
    have hsmall := hseat.small
    show n < pgRoundUp (k.proc i).sz / pgSize
    unfold mmapBase at hsmall
    rw [pgRoundUp_eq (by omega)]
    unfold pagesBelow at hlt
    unfold pgSize at *
    omega
  · refine .inr (hfresh.top n ?_)
    rw [← hcopied.above n hge]
    exact hn

/-- A successful fork, seen from the child: it took its pages from the
free list and counts no shared page yet. -/
theorem kfork_booked (hl : LaidOut k') (hseat : (k.proc i).Seated) (hp : NoPipes k.glob)
    (h : kfork k i = .ok (some j, k')) :
    (k'.proc j).Seated ∧ (∀ ip off, (k'.proc j).sharedPtes k'.glob ip off = 0)
      ∧ (∀ x, (k'.proc j).uses x + k'.glob.uses x = k.glob.uses x)
      ∧ k'.glob.shared = k.glob.shared ∧ NoPipes k'.glob
      ∧ ∀ f, (k'.glob.ftable f).ip = (k.glob.ftable f).ip := by
  obtain ⟨_, _, tf, ph1, pt0, ph0, pt, ph, ⟨np, g⟩, halloc, hpt, hcopy, hrest, rfl⟩ := kfork_some h
  obtain ⟨ofile, hnp⟩ := forkRest_frame (fun _ => rfl) hrest
  have hk : FilesKept (fun _ => True) { k.glob with phys := ph } g :=
    forkRest_kept (fun f => hp f) hrest
  obtain ⟨hfresh, _, _, hc0⟩ := procPagetable_some hpt
  obtain ⟨hw, _, hcopied, _⟩ := uvmcopy_spec hseat.table hfresh.wf hseat.small
    (fun n hn => hfresh.low n hn) hcopy
  have hcopied := hcopied rfl
  rw [Kernel.put_self, Kernel.put_glob]
  have hlc : Layout np := by
    have := hl j
    rw [Kernel.put_self] at this
    refine this ?_
    rw [hnp]
    intro hst
    cases hst
  have htable : np.pagetable = pt := by rw [hnp]; rfl
  have hsz : np.sz = (k.proc i).sz := by rw [hnp]
  have htf : np.trapframe = tf := by rw [hnp]; rfl
  have hwhere : ∀ n, (np.pagetable.leaf n).isSome = true →
      np.HeapPage n ∨ (n = trampPage ∨ n = tfPage) := by
    intro n hn
    have hmapped := kfork_where hseat h (n := n)
    rw [Kernel.put_self] at hmapped
    exact hmapped hn
  have hout : ∀ n, (np.pagetable.leaf n).isSome = true → np.sharedAt n = none := by
    intro n hn
    refine sharedAt_none_of_vmaAt (vmaAt_out hlc ?_)
    rcases hwhere n hn with hheap | htop
    · exact .inl (heapPage_lt (hsz ▸ hseat.small) hheap)
    · exact .inr (topPage_ge htop)
  obtain ⟨hown, hptes⟩ := columns_of_none hout
  refine ⟨⟨htable ▸ hw, fun n hn => ?_, hsz ▸ hseat.small⟩, hptes g,
    fun x => ?_, hk.shared, hk.pipes, fun f => hk.ip f trivial⟩
  · exact (hwhere n hn).imp_right .inl
  have h1 := hcopied.ledger x
  have h2 := hc0 x
  have h3 := kalloc_count halloc x
  have h4 := hfresh.pages x
  unfold Proc.uses Glob.uses
  rw [hown, htable, htf, hk.shared, hk.phys]
  dsimp only
  omega

end Xv6Labs.Model
