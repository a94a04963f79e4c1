/-
Physical pages over the life of processes.

As long as the processes have no mappings and stay below the mmap area,
every page that had an owner at the start has exactly one between any two
calls (`PagesConserved`): the calls exchange pages with the free list, and
the ledger `Kernel.uses` stays the same (`step_orderly`).
-/
import Xv6Labs.Proofs.Sharing

namespace Xv6Labs.Model

variable {k k0 : Kernel}

open Lib Finset

-- == the invariant

/-- A kernel whose processes have no mappings, and whose pages are used
once. -/
structure Orderly (k : Kernel) : Prop where
  plain : ∀ i, (k.proc i).state ≠ .unused → (k.proc i).Plain
  free : ∀ i, (k.proc i).state = .unused → (k.proc i).pagetable.root = 0
  pipes : NoPipes k.glob
  once : ∀ x, k.uses x ≤ 1
  zero : k.uses 0 = 0

/-- The steps of the life cycle: sizes are below the mmap area, and the
arguments of exec are what sys_exec fetches, less than a page each. -/
def LifeCycle (k : Kernel) (_i : Nat) (op : Op) : Prop :=
  (∀ j, j < nproc → (k.proc j).state ≠ .unused → (k.proc j).sz ≤ mmapBase)
    ∧ match op with
      | .exec _ argv => ∀ s ∈ argv, s.length < pgSize
      | .fork | .sbrk _ _ | .fault _ _ | .exit _ | .wait _ => True
      | _ => False

/-- What a step of the life cycle does to the ledger: nothing, and the
pages of a slot that it freed are on the free list. -/
structure Keeps (k k' : Kernel) : Prop where
  uses : ∀ x, k'.uses x = k.uses x
  shared : k'.glob.shared = k.glob.shared
  reaped : ∀ j, (k.proc j).state ≠ .unused → (k'.proc j).state = .unused →
    ∀ x, (k.proc j).held x ≤ k'.glob.phys.freelist.count x

section

variable {k k' : Kernel} {i : Nat}
variable {p p' : Proc} {g : Glob} {status : Int}

theorem SameBooks.plain (h : SameBooks p p') (hp : p.Plain) : p'.Plain :=
  ⟨h.vma ▸ hp.maps, h.pagetable ▸ hp.table, by
    rw [h.pagetable, h.sz]
    exact hp.below, h.sz ▸ hp.size⟩

theorem Orderly.zero_free (h : Orderly k) : k.glob.phys.freelist.count 0 = 0 := by
  have hz := h.zero
  unfold Kernel.uses Glob.uses at hz
  omega

/-- The invariant after a call that changed slot `i`, and the parents of
other processes. -/
theorem Orderly.update (h : Orderly k) (hi : i < nproc)
    (hothers : ∀ j, j ≠ i → SameBooks (k.proc j) (k'.proc j))
    (hplain : (k'.proc i).state ≠ .unused → (k'.proc i).Plain)
    (hfree : (k'.proc i).state = .unused → (k'.proc i).pagetable.root = 0)
    (hpipes : NoPipes k'.glob) (hshared : k'.glob.shared = k.glob.shared)
    (huses : ∀ x, (k'.proc i).held x + k'.glob.phys.freelist.count x
      = (k.proc i).held x + k.glob.phys.freelist.count x) :
    Orderly k' ∧ Keeps k k' := by
  have hsame : ∀ x, k'.uses x = k.uses x := by
    intro x
    have hx := sum_exchange hi (fun j _ hj => (hothers j hj).held x)
    have := huses x
    unfold Kernel.uses Glob.uses
    rw [hshared]
    omega
  refine ⟨⟨fun j hj => ?_, fun j hj => ?_, hpipes,
    fun x => (hsame x).trans_le (h.once x), (hsame 0).trans h.zero⟩, hsame,
    hshared, fun j hj hj' x => ?_⟩
  · by_cases hji : j = i
    · subst hji
      exact hplain hj
    · rw [(hothers j hji).state] at hj
      exact (hothers j hji).plain (h.plain j hj)
  · by_cases hji : j = i
    · subst hji
      exact hfree hj
    · rw [(hothers j hji).state] at hj
      rw [(hothers j hji).pagetable]
      exact h.free j hj
  · by_cases hji : j = i
    · subst hji
      have hgone : (k'.proc j).held x = 0 := if_pos hj'
      have := huses x
      omega
    · rw [(hothers j hji).state] at hj'
      exact absurd hj' hj

theorem Orderly.put (h : Orderly k) (hi : i < nproc)
    (hu : (k.proc i).state ≠ .unused) (he : Exchanges (k.proc i) k.glob p g) :
    Orderly (k.put i (p, g)) ∧ Keeps k (k.put i (p, g)) := by
  have hu' : p.state ≠ .unused := by
    rw [he.state]
    exact hu
  refine h.update hi (k.put_others _) ?_ ?_ (he.noPipes h.pipes) he.shared fun x => ?_
  · rw [Kernel.put_self]
    exact fun _ => he.plain
  · rw [Kernel.put_self]
    exact fun hst => absurd hst hu'
  have hx := he.ledger x
  rw [Kernel.put_self, held_of_used hu, held_of_used hu', he.plain.uses,
    (h.plain i hu).uses, he.frame, Kernel.put_glob]
  dsimp only
  omega

-- == fork

/-- Without valid slots there is nothing for fork to copy. -/
theorem copied_none {np : Proc} (hp : ∀ s, s < nvma → (p.vma s).valid = false)
    (hnew : ∀ j, (np.vma j).valid = false) (j : Nat) :
    ((copied p np nvma).vma j).valid = false := by
  have hnil : validSlots p nvma = [] := by
    refine List.eq_nil_iff_forall_not_mem.mpr fun s hs => ?_
    obtain ⟨hlt, hv⟩ := mem_validSlots.mp hs
    rw [hp s hlt] at hv
    cases hv
  rw [copied_valid hnew, hnil]
  rfl

/-- A fork gives its pages to the child, or all of them back. -/
theorem kfork_orderly {o : Option Nat} (h : Orderly k)
    (hu : (k.proc i).state ≠ .unused) (hsz : (k.proc i).sz ≤ mmapBase)
    (hf : kfork k i = .ok (o, k')) : Orderly k' ∧ Keeps k k' := by
  have hp := h.plain i hu
  cases o with
  | some j =>
    obtain ⟨hj, hst, tf, ph1, pt0, ph0, pt, ph, ⟨np, g⟩, halloc, hpt, hcopy,
      hrest, hk'⟩ := kfork_some hf
    obtain ⟨ofile, hnp⟩ := forkRest_frame (fun _ => rfl) hrest
    have hk : FilesKept (fun _ => True) { k.glob with phys := ph } g :=
      forkRest_kept (fun f => h.pipes f) hrest
    obtain ⟨hfresh, _, _, hc0⟩ := procPagetable_some hpt
    obtain ⟨hw, _, hcopied, _⟩ := uvmcopy_spec hp.table hfresh.wf hsz
      (fun n hn => hfresh.low n hn) hcopy
    have hself : k'.proc j = np := by rw [hk', Kernel.put_self]
    have hglob : k'.glob = g := by rw [hk', Kernel.put_glob]
    have hst' : np.state ≠ .unused := by
      rw [hnp]
      intro hst'
      cases hst'
    have hplain : np.Plain := by
      refine ⟨fun s _ => ?_, ?_, fun n hn => ?_, ?_⟩
      · rw [hnp]
        exact copied_none hp.maps (fun _ => rfl) s
      · rw [hnp]
        exact hw
      · rw [← hself] at hn ⊢
        exact kfork_where (hp.seated hsz) hf hn
      · rw [hnp]
        exact hp.size
    refine h.update hj (fun a ha => ?_) (fun _ => hself ▸ hplain)
      (fun hst => ?_) (hglob ▸ hk.pipes) (by rw [hglob]; exact hk.shared)
      fun x => ?_
    · rw [hk']
      exact k.tick.put_others _ a ha
    · rw [hself] at hst
      exact absurd hst hst'
    have h1 := (hcopied rfl).ledger x
    have h2 := hc0 x
    have h3 := kalloc_count halloc x
    have h4 := hfresh.pages x
    have hnone : (k.proc j).held x = 0 := if_pos hst
    have hown : np.uses x = pt.tables x + pt.pages x + points (some tf) x := by
      rw [hplain.uses, hnp]
      rfl
    rw [hself, hglob, held_of_used hst', hk.phys]
    dsimp only
    omega
  | none =>
    have hcount := kfork_none_free hp.table hsz h.free (List.count_eq_zero.mp h.zero_free) hf
    rcases kfork_none hf with rfl | ⟨j, hj, hst, tf, pt, ph, hk'⟩
    · exact ⟨h, fun _ => rfl, rfl, fun a ha ha' => absurd ha' ha⟩
    have hself : k'.proc j = ((k.proc j).allocated k.nextpid tf pt).freed := by
      rw [hk', Kernel.put_self]
    have hglob : k'.glob = { k.glob with phys := ph } := by
      rw [hk', Kernel.put_glob]
    refine h.update hj (fun a ha => ?_) (fun hst' => ?_)
      (fun _ => by rw [hself]; rfl) (by rw [hglob]; exact h.pipes) (by rw [hglob]) fun x => ?_
    · rw [hk']
      exact k.tick.put_others _ a ha
    · rw [hself] at hst'
      exact absurd rfl hst'
    have h1 : (k'.proc j).held x = 0 := by
      rw [hself]
      exact if_pos rfl
    have h2 : (k.proc j).held x = 0 := if_pos hst
    rw [h1, h2, hcount x]

-- == exit and wait

theorem exitVmas_none {s : Proc × Glob} (h : ∀ m, m < nvma → (s.1.vma m).valid = false) :
    forUpto exitVma nvma s = .ok s := by
  refine forUpto_id fun m hm => ?_
  simp only [exitVma, h m hm, Bool.false_eq_true, if_false]

/-- kexit keeps the address space for the parent. -/
theorem exitSelf_exchanges {g' : Glob}
    (hp : p.Plain) (hg : NoPipes g) (h : exitSelf p g status = .ok (p', g')) :
    p'.state = .zombie ∧ p'.trapframe = p.trapframe ∧ p'.pagetable = p.pagetable ∧ p'.Plain
      ∧ FilesKept (fun _ => True) g g' := by
  obtain ⟨g1, c, p2, h1, _, h2, rfl⟩ := exitSelf_ok h
  have hk1 : FilesKept (fun _ => True) g g1 := exitFds_kept hg h1
  rw [exitVmas_none (by exact hp.maps)] at h2
  cases h2
  exact ⟨rfl, rfl, rfl, { hp with }, hk1.trans (iput_kept c hk1.pipes)⟩

theorem kexit_orderly (h : Orderly k) (hi : i < nproc)
    (hu : (k.proc i).state ≠ .unused) (hs : kexit k i status = .ok k') :
    Orderly k' ∧ Keeps k k' := by
  obtain ⟨_, ⟨p, g⟩, hself, hk'⟩ := kexit_ok hs
  have hsame := reparent_books k i i
  obtain ⟨hst, htf, hpt, hplain, hk⟩ := exitSelf_exchanges
    (hsame.plain (h.plain i hu)) h.pipes hself
  have hp : k'.proc i = p := by rw [hk', Kernel.put_self]
  have hg : k'.glob = g := by rw [hk', Kernel.put_glob]
  have hu' : p.state ≠ .unused := by
    rw [hst]
    intro hst
    cases hst
  refine h.update hi (fun j hj => ?_) (fun _ => hp ▸ hplain) (fun hst' => ?_)
    (hg ▸ hk.pipes) (hg ▸ hk.shared) fun x => ?_
  · rw [hk', Kernel.put_of_ne _ _ hj]
    exact reparent_books k i j
  · rw [hp] at hst'
    exact absurd hst' hu'
  · rw [hp, hg, held_of_used hu, held_of_used hu', hplain.uses,
      (h.plain i hu).uses, htf, hpt, hsame.trapframe, hsame.pagetable, hk.phys]

/-- kwait frees what the child left, after the status is copied out. -/
theorem kwait_orderly {addr : Nat} {o : Option (Nat ⊕ Unit)} (h : Orderly k)
    (hi : i < nproc) (hl : (k.proc i).isLive = true)
    (hsz : (k.proc i).sz ≤ mmapBase) (hw : kwait k i addr = .ok (o, k')) :
    Orderly k' ∧ Keeps k k' := by
  have hu := used_of_live hl
  rcases kwait_cases hw with rfl | ⟨j, p, g, hj, hout, hk'⟩
  · exact ⟨h, fun _ => rfl, rfl, fun a ha ha' => absurd ha' ha⟩
  obtain ⟨hjn, hji, _⟩ := zombieChild_dead hl hj
  have he : Exchanges (k.proc i) k.glob p g := by
    rcases hout with ⟨rfl, rfl⟩ | ⟨_, ok, src, hcopy⟩
    · exact .refl (h.plain i hu)
    · exact copyout_exchanges (h.plain i hu) hsz hcopy
  obtain ⟨h1, hk1⟩ := h.put hi hu he
  rcases hk' with rfl | ⟨q, ph, hq, rfl⟩
  · exact ⟨h1, hk1⟩
  have hc : (k.put i (p, g)).proc j = k.proc j := Kernel.put_of_ne k _ hji
  have hused : ((k.put i (p, g)).proc j).state ≠ .unused := by
    rw [hc, (zombieChild_some hj).2.2]
    intro hst
    cases hst
  obtain ⟨htf, hroot⟩ := frames_ne h1.zero hjn hused
  have hplain := h1.plain j hused
  have hfreed := freeproc_freed hq
  rw [hc] at htf hroot hused hplain
  have hled := freeproc_ledger hplain.table htf hroot hq
  have hslot : ((k.put i (p, g)).put j (q, { g with phys := ph })).proc j
      = (k.proc j).freed := by rw [Kernel.put_self, hfreed]
  have hup : Orderly ((k.put i (p, g)).put j (q, { g with phys := ph }))
      ∧ Keeps (k.put i (p, g)) ((k.put i (p, g)).put j (q, { g with phys := ph })) := by
    refine h1.update hjn (Kernel.put_others _ _) ?_ ?_ h1.pipes rfl fun x => ?_
    · rw [hslot]
      exact fun hst => absurd rfl hst
    · rw [hslot]
      exact fun _ => rfl
    have hx := hled x
    have hgone : (k.proc j).freed.held x = 0 := if_pos rfl
    rw [hslot, hc, held_of_used hused, hplain.uses, Kernel.put_glob, Kernel.put_glob]
    dsimp only at hx ⊢
    omega
  refine ⟨hup.1, fun x => (hup.2.uses x).trans (hk1.uses x),
    hup.2.shared.trans hk1.shared, fun a ha ha' x => ?_⟩
  -- the caller is alive, so the freed slot is not its own
  by_cases hai : a = i
  · rw [hai, Kernel.put_of_ne _ _ hji.symm, Kernel.put_self] at ha'
    rw [hai] at ha
    exact absurd (he.state.symm.trans ha') ha
  · have hsame : (k.put i (p, g)).proc a = k.proc a := Kernel.put_of_ne k _ hai
    rw [← hsame] at ha ⊢
    exact hup.2.reaped a ha ha' x

-- == one step

/-- One step of the life cycle. -/
theorem step_orderly {op : Op} (h : Orderly k) (hi : i < nproc)
    (hl : (k.proc i).isLive = true) (hc : LifeCycle k i op)
    (hs : step k i op = .ok k') : Orderly k' ∧ Keeps k k' := by
  obtain ⟨hsizes, hop⟩ := hc
  have hu := used_of_live hl
  have hp := h.plain i hu
  have hsz := hsizes i hi hu
  cases step_did hs with
  | fault hm => exact h.put hi hu (vmfault_exchanges hp hsz hm)
  | sbrk hm =>
    exact h.put hi hu (sysSbrk_exchanges hp hsz (int32_lt _) hm)
  | exec hm =>
    exact h.put hi hu (kexec_exchanges hp h.zero_free hop hm)
  | fork hm => exact kfork_orderly h hu hsz hm
  | exit hm => exact kexit_orderly h hi hu hm
  | wait hm => exact kwait_orderly h hi hl hsz hm
  | _ => exact hop.elim

end

-- == owners

/-- What a page can be used for; `i` is the slot of a process. -/
inductive Owner where
  | free
  | table (i : Nat)
  | leaf (i n : Nat)
  | trapframe (i : Nat)

/-- The process that a page is used by. -/
def Owner.slot : Owner → Option Nat
  | .free => none
  | .table i | .leaf i _ | .trapframe i => some i

/-- Page `x` is used by a process, as what `o` says. -/
def Proc.Uses (p : Proc) (x : Nat) : Owner → Prop
  | .free => False
  | .table _ => 0 < p.pagetable.tables x
  | .leaf _ n => n < pgRoundUp p.sz / pgSize ∧ ∃ e, p.pagetable.leaf n = some e ∧ e.pa = x
  | .trapframe _ => p.trapframe = x

/-- Page `x` has the use `o`. -/
def Kernel.Owns (k : Kernel) (o : Owner) (x : Nat) : Prop :=
  match o.slot with
  | none => x ∈ k.glob.phys.freelist
  | some i => i < nproc ∧ (k.proc i).state ≠ .unused ∧ (k.proc i).Uses x o

section

variable {k : Kernel} {p : Proc} {o : Owner} {x i : Nat}
variable {n : Nat} {o' : Owner}

theorem Proc.Plain.low (h : p.Plain) (hn : n < pgRoundUp p.sz / pgSize) : n < tfPage := by
  have htops := topPages
  have htop := (pgRoundUp_top h.size).2.1
  unfold pgSize at hn
  omega

/-- A use of a page is in the ledger of the process. -/
theorem Proc.Plain.part (h : p.Plain) (ho : p.Uses x o) :
    match o with
    | .free => False
    | .table _ => 0 < p.pagetable.tables x
    | .leaf _ _ => 0 < p.pagetable.pages x
    | .trapframe _ => 0 < points (some p.trapframe) x := by
  cases o with
  | free => exact ho
  | table i => exact ho
  | leaf i n =>
    obtain ⟨hn, e, he, rfl⟩ := ho
    exact pages_pos (h.low hn) he
  | trapframe i =>
    have ho : p.trapframe = x := ho
    rw [points_some, if_pos ho]
    exact Nat.one_pos

/-- And a page in the ledger has a use. -/
theorem Proc.Plain.exists_use (h : p.Plain) (i : Nat) (hx : 0 < p.uses x) :
    ∃ o : Owner, o.slot = some i ∧ p.Uses x o := by
  rw [h.uses] at hx
  rcases Nat.eq_zero_or_pos (p.pagetable.tables x) with ht | ht
  · rcases Nat.eq_zero_or_pos (p.pagetable.pages x) with hp | hp
    · refine ⟨.trapframe i, rfl, ?_⟩
      rw [ht, hp, points_some] at hx
      show p.trapframe = x
      by_contra hne
      rw [if_neg hne] at hx
      exact absurd hx (Nat.lt_irrefl 0)
    obtain ⟨n, e, htop, he, hpa⟩ := exists_leaf_of_pages hp
    refine ⟨.leaf i n, rfl, ?_, e, he, hpa⟩
    rcases h.below n (by rw [he]; rfl) with hlt | htop'
    · exact hlt
    · exact absurd htop'.symm htop
  · exact ⟨.table i, rfl, ht⟩

/-- Two leaves to one page are two entries of the ledger. -/
theorem two_pages {pt : PageTable} {m : Nat} {e e' : Pte} (hn : n < tfPage)
    (hm : m < tfPage) (hne : n ≠ m) (he : pt.leaf n = some e)
    (he' : pt.leaf m = some e') (hpa : e'.pa = e.pa) : 2 ≤ pt.pages e.pa := by
  have htops := topPages
  have hrow : ∀ {j : Nat} {a : Pte}, j < tfPage → pt.leaf j = some a →
      a.pa = e.pa → ptePoints (pt.bare.leaf j) e.pa = 1 := by
    intro j a hj ha hpa
    rw [bare_leaf, if_neg (by omega), ha, ← hpa]
    exact if_pos rfl
  have htwo := two_rows_le_sum (f := fun j => ptePoints (pt.bare.leaf j) e.pa)
    (show n < 2 ^ 26 by omega) (show m < 2 ^ 26 by omega) hne
  rw [hrow hn he rfl, hrow hm he' hpa] at htwo
  exact htwo

/-- A page that a process uses once has one use there. -/
theorem Proc.Plain.use_unique (h : p.Plain) (hone : p.uses x ≤ 1)
    (hs : o.slot = some i) (hs' : o'.slot = some i)
    (ho : p.Uses x o) (ho' : p.Uses x o') : o = o' := by
  have hpart := h.part ho
  have hpart' := h.part ho'
  rw [h.uses] at hone
  cases o <;> cases o' <;> cases hs <;> cases hs' <;>
    dsimp only at hpart hpart' <;> first | rfl | omega | skip
  -- two leaves are left
  next n m =>
    obtain ⟨hn, e, he, rfl⟩ := ho
    obtain ⟨hm, e', he', hpa⟩ := ho'
    by_cases hnm : n = m
    · rw [hnm]
    · have := two_pages (h.low hn) (h.low hm) hnm he he' hpa
      omega

/-- The free list and the processes, without the registry. -/
def Kernel.owned (k : Kernel) (x : Nat) : Nat :=
  k.glob.phys.freelist.count x + ∑ i ∈ range nproc, (k.proc i).held x

theorem Kernel.uses_owned (k : Kernel) (x : Nat) :
    k.uses x = k.owned x + k.glob.shared.pages x := by
  unfold Kernel.uses Kernel.owned Glob.uses
  omega

theorem Orderly.held_pos (h : Orderly k) (hs : o.slot = some i) (ho : k.Owns o x) :
    i < nproc ∧ 0 < (k.proc i).held x ∧ (k.proc i).Plain
      ∧ (k.proc i).held x = (k.proc i).uses x ∧ (k.proc i).Uses x o := by
  unfold Kernel.Owns at ho
  rw [hs] at ho
  obtain ⟨hi, hu, huse⟩ := ho
  have hp := h.plain i hu
  have hpart := hp.part huse
  refine ⟨hi, ?_, hp, held_of_used hu x, huse⟩
  rw [held_of_used hu, hp.uses]
  cases o with
  | free => cases hs
  | _ => omega

theorem Orderly.free_pos (hs : o.slot = none) (ho : k.Owns o x) :
    o = .free ∧ 0 < k.glob.phys.freelist.count x := by
  unfold Kernel.Owns at ho
  rw [hs] at ho
  refine ⟨?_, List.count_pos_iff.mpr ho⟩
  cases o with
  | free => rfl
  | _ => cases hs

/-- A page is in the ledger exactly when it has a use. -/
theorem Orderly.owned_iff (h : Orderly k) : 0 < k.owned x ↔ ∃ o, k.Owns o x := by
  constructor
  · intro hpos
    rcases Nat.eq_zero_or_pos (k.glob.phys.freelist.count x) with hz | hfree
    · unfold Kernel.owned at hpos
      rw [hz, Nat.zero_add] at hpos
      obtain ⟨i, hi, hheld⟩ := exists_row_pos hpos
      have hu : (k.proc i).state ≠ .unused := by
        intro hst
        have : (k.proc i).held x = 0 := if_pos hst
        omega
      rw [held_of_used hu] at hheld
      obtain ⟨o, hs, huse⟩ := (h.plain i hu).exists_use i hheld
      refine ⟨o, ?_⟩
      unfold Kernel.Owns
      rw [hs]
      exact ⟨hi, hu, huse⟩
    · exact ⟨.free, List.count_pos_iff.mp hfree⟩
  · rintro ⟨o, ho⟩
    unfold Kernel.owned
    cases hs : o.slot with
    | none =>
      have := (Orderly.free_pos hs ho).2
      omega
    | some i =>
      obtain ⟨hi, hpos, _⟩ := h.held_pos hs ho
      have := row_le_sum (f := fun j => (k.proc j).held x) hi
      omega

/-- A page has at most one use. -/
theorem Orderly.owner_unique (h : Orderly k) (ho : k.Owns o x) (ho' : k.Owns o' x) : o = o' := by
  have hone := h.once x
  rw [k.uses_owned] at hone
  unfold Kernel.owned at hone
  have hrow : ∀ {a : Owner} {j : Nat}, a.slot = some j → k.Owns a x →
      0 < ∑ i ∈ range nproc, (k.proc i).held x := by
    intro a j hs ha
    obtain ⟨hj, hpos, _⟩ := h.held_pos hs ha
    exact Nat.lt_of_lt_of_le hpos (row_le_sum (f := fun j => (k.proc j).held x) hj)
  cases hs : o.slot with
  | none =>
    obtain ⟨rfl, hfree⟩ := Orderly.free_pos hs ho
    cases hs' : o'.slot with
    | none => exact (Orderly.free_pos hs' ho').1.symm
    | some j =>
      have := hrow hs' ho'
      omega
  | some i =>
    cases hs' : o'.slot with
    | none =>
      have := hrow hs ho
      have := (Orderly.free_pos hs' ho').2
      omega
    | some j =>
      obtain ⟨hi, hpos, hp, hheld, huse⟩ := h.held_pos hs ho
      obtain ⟨hj, hpos', _, _, huse'⟩ := h.held_pos hs' ho'
      by_cases hij : i = j
      · subst hij
        have := row_le_sum (f := fun j => (k.proc j).held x) hi
        exact hp.use_unique (by omega) hs hs' huse huse'
      · have := two_rows_le_sum (f := fun j => (k.proc j).held x) hi hj hij
        omega

end

-- == over runs

/-- Between calls: every page that had a use at the start has exactly one,
no other page has any, no list or table names a page twice, and nothing is
mapped above a size. -/
structure PagesConserved (k₀ k : Kernel) : Prop where
  one : ∀ x, (∃ o, k₀.Owns o x) → ∃! o, k.Owns o x
  old : ∀ o x, k.Owns o x → ∃ o₀, k₀.Owns o₀ x
  free : k.glob.phys.freelist.Nodup
  tables : ∀ i, i < nproc → (k.proc i).state ≠ .unused → ∀ x, (k.proc i).pagetable.tables x ≤ 1
  below : ∀ i, (k.proc i).state ≠ .unused → (k.proc i).pagetable.Below (k.proc i).sz

theorem orderly_of_runs (h0 : Orderly k0) (hr : Runs LifeCycle k0 k) :
    Orderly k ∧ ∀ x, k.owned x = k0.owned x := by
  refine hr.inv (fun k => Orderly k ∧ ∀ x, k.owned x = k0.owned x) ⟨h0, fun _ => rfl⟩ ?_
  intro k k' i op hi hl hc ⟨hk, hsame⟩ hs
  obtain ⟨hk', hkeep⟩ := step_orderly hk hi hl hc hs
  refine ⟨hk', fun x => ?_⟩
  have h1 := hkeep.uses x
  rw [k'.uses_owned, k.uses_owned, hkeep.shared] at h1
  rw [← hsame x]
  omega

theorem Orderly.conserved (h0 : Orderly k0) (h : Orderly k)
    (hsame : ∀ x, k.owned x = k0.owned x) : PagesConserved k0 k := by
  refine ⟨fun x hx => ?_, fun o x ho => ?_, ?_, fun i hi hu x => ?_,
    fun i hu => (h.plain i hu).below⟩
  · rw [← h0.owned_iff, ← hsame x, h.owned_iff] at hx
    obtain ⟨o, ho⟩ := hx
    exact ⟨o, ho, fun o' ho' => h.owner_unique ho' ho⟩
  · rw [← h0.owned_iff, ← hsame x, h.owned_iff]
    exact ⟨o, ho⟩
  · refine List.nodup_iff_count_le_one.mpr fun x => ?_
    have := h.once x
    unfold Kernel.uses Glob.uses at this
    omega
  have hrow := row_le_sum (f := fun j => (k.proc j).held x) hi
  have hone := h.once x
  rw [held_of_used hu, (h.plain i hu).uses] at hrow
  unfold Kernel.uses at hone
  omega

/-- In every run of the life cycle the pages are conserved, and a step
that reaps a process leaves all its pages on the free list. -/
theorem pages_conserved_of_runs {k₀ k : Kernel} (h0 : Orderly k₀)
    (hr : Runs LifeCycle k₀ k) :
    PagesConserved k₀ k ∧ ∀ k', StepIf LifeCycle k k' → ∀ j,
      (k.proc j).state ≠ .unused → (k'.proc j).state = .unused →
        ∀ o x, o.slot = some j → k.Owns o x → k'.Owns .free x := by
  obtain ⟨hk, hsame⟩ := orderly_of_runs h0 hr
  refine ⟨h0.conserved hk hsame, fun k' hstep j hu hst o x hs ho => ?_⟩
  obtain ⟨i, op, hi, hl, hc, hok⟩ := hstep
  obtain ⟨_, hkeep⟩ := step_orderly hk hi hl hc hok
  obtain ⟨_, hpos, _⟩ := hk.held_pos hs ho
  exact List.count_pos_iff.mp
    (Nat.lt_of_lt_of_le hpos (hkeep.reaped j hu hst x))

theorem boot_orderly : Orderly bootKernel := by
  have hbooks := boot_books
  refine { hbooks with plain := fun i hu => ?_ }
  match i with
  | 0 =>
    exact ⟨fun _ _ => rfl, (bootTable_fresh 0x87000000).wf, bootTable_below _ _, by decide⟩
  | 1 =>
    exact ⟨fun _ _ => rfl, (bootTable_fresh 0x87010000).wf, bootTable_below _ _, by decide⟩
  | i + 2 => exact absurd rfl hu

set_option maxRecDepth 10000 in
/-- A process grows, touches a page and forks; the child runs a program and
exits, and is reaped. -/
theorem pages_conserved_boot : ∃ k k', Runs LifeCycle bootKernel k
    ∧ StepIf LifeCycle k k' ∧ (k.proc 2).state = .zombie
    ∧ (k'.proc 2).state = .unused ∧ PagesConserved bootKernel k
    ∧ ∀ o x, o.slot = some 2 → k.Owns o x → k'.Owns .free x :=
  have hr := (((((Runs.step .refl 1 (.sbrk 4096 true) (by decide) rfl
    ⟨by decide, trivial⟩ rfl).step 1 (.sbrk 4096 false) (by decide) rfl
    ⟨by decide, trivial⟩ rfl).step 1 (.fault 4096 true) (by decide) rfl
    ⟨by decide, trivial⟩ rfl).step 1 .fork (by decide) rfl
    ⟨by decide, trivial⟩ rfl).step 2 (.exec [47, 115, 104] [[115, 104]])
    (by decide) rfl ⟨by decide, by decide⟩ rfl).step 2 (.exit 0) (by decide)
    rfl ⟨by decide, trivial⟩ rfl
  have h := pages_conserved_of_runs boot_orderly hr
  ⟨_, _, hr, ⟨1, .wait 0, by decide, rfl, ⟨by decide, trivial⟩, rfl⟩, rfl, rfl,
    h.1, h.2 _ ⟨1, .wait 0, by decide, rfl, ⟨by decide, trivial⟩, rfl⟩ 2
      (by decide) rfl⟩

end Xv6Labs.Model
