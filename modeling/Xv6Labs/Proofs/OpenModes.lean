/-
What a mapping lets through, compared with how its file was opened.

sys_mmap does not test that the file was opened readable
(`mmap_reads_writeonly`). A store goes through a PTE with PTE_W: in a
shared mapping that comes from a file opened writable (`Proc.PermOk`), and
in a private one the page is the process's own.
-/
import Xv6Labs.Proofs.Beside
import Xv6Labs.Proofs.MappedFiles
import Xv6Labs.Proofs.WriteBack

namespace Xv6Labs.Model

open Lib Finset

variable {p p' : Proc} {g g' : Glob} {i j r va y : Nat} {b : UInt8}
  {k k' : Kernel} {op : Op}
variable {read : Bool} {addr x : Nat} {len : Int}

-- == the store

/-- A store that is not refused: one byte, through the PTE of its page. -/
theorem userStore_true (h : userStore p g va b = .ok (true, p', g')) :
    ∃ e g1, p'.pagetable.entry (va / pgSize) = some e ∧ e.grants false = true
      ∧ g' = g1.setMem (fun i =>
        if i = e.pa + va % pgSize then b else g1.phys.mem i)
      ∧ (p' = p ∧ g1 = g ∨ e.pa ≠ 0 ∧ vmfault p g va false = .ok (e.pa, p', g1)) := by
  obtain ⟨⟨o, p1, g1⟩, hacc, h⟩ := bind_ok h
  cases o with
  | some a =>
    cases h
    obtain ⟨_, e, he, hg, rfl, hold | ⟨_, hne, hf⟩⟩ := userAccess_some hacc
    · exact ⟨e, g1, he, hg, rfl, .inl hold.2⟩
    · exact ⟨e, g1, he, hg, rfl, .inr ⟨hne, hf⟩⟩
  | none => cases h

/-- A handled fault takes free pages and writes in no other. -/
theorem Handled.takes (h : Handled p g va read r p' g')
    (hva : va < maxVa) : g.phys.Takes g'.phys := by
  have hlt : pgRoundDown va < 2 ^ 64 := lt_two_pow_of_maxVa ((pgRoundDown_le va).trans_lt hva)
  cases h with
  | resident => exact .refl _
  | mapped _ _ _ _ hsup hmap =>
    have hmapped := (mappages_entry hlt hmap).2.2.1
    refine Phys.Takes.trans ?_ hmapped
    cases hsup with
    | hit => exact .refl _
    | miss _ _ hfill hself =>
      exact (fillPage_spec hfill).2.1.trans (kalloc_some hself).2
    | own _ hpage => exact (privatePage_spec hpage).2.1
  | heap _ _ _ halloc hmap =>
    exact (kalloc_zero_takes halloc).trans (mappages_entry hlt hmap).2.2.1

-- == permission bits

/-- The PTEs of a mapping carry the permissions of the mapping. -/
def Proc.PermOk (p : Proc) : Prop :=
  ∀ n e s, p.pagetable.entry n = some e → vmaAt p (n * pgSize) = some s → e.perm = (p.vma s).perm

/-- No PTE is new, and PTEs lie in mappings with the bits they had. -/
theorem Proc.PermOk.of_old (h : p.PermOk)
    (hent : ∀ n e, p'.pagetable.entry n = some e → p.pagetable.entry n = some e)
    (hvma : ∀ n s, (p'.pagetable.entry n).isSome = true →
      vmaAt p' (n * pgSize) = some s → ∃ s0, vmaAt p (n * pgSize) = some s0
        ∧ (p.vma s0).perm = (p'.vma s).perm) : p'.PermOk := by
  intro n e s he hs
  obtain ⟨s0, hs0, hperm⟩ := hvma n s (by rw [he]; rfl) hs
  rw [← hperm]
  exact h n e s0 (hent n e he) hs0

theorem Proc.PermOk.congr (h : p.PermOk) (hv : p'.vma = p.vma)
    (hpt : p'.pagetable = p.pagetable) : p'.PermOk := by
  intro n e s he hs
  rw [hpt] at he
  rw [vmaAt_congr hv] at hs
  rw [hv]
  exact h n e s he hs

theorem vmfault_permOk (hl : Layout p) (hsmall : p.sz ≤ mmapBase)
    (h : p.PermOk) (hf : vmfault p g va read = .ok (r, p', g')) : p'.PermOk := by
  have hvma : p'.vma = p.vma := by
    obtain ⟨pt, rfl⟩ := (vmfault_frame _ hf).1
    rfl
  have hold : (∀ m, p'.pagetable.entry m = p.pagetable.entry m) → p'.PermOk := by
    intro hent
    refine h.of_old (fun n e he => by rw [← hent]; exact he) fun n s _ hs => ?_
    rw [vmaAt_congr hvma] at hs
    exact ⟨s, hs, by rw [hvma]⟩
  rcases vmfault_cases hf with ⟨hva, hh⟩ | ⟨_, hent, _⟩
  · rcases hh.entries hva with ⟨_, _, _, _, rfl, _⟩ | ⟨perm, _, hent, hcase⟩
    · exact h
    intro n e s he hs
    rw [hent] at he
    rw [vmaAt_congr hvma] at hs
    rw [hvma]
    split at he
    · next hn =>
      subst hn
      cases he
      rw [vmaAt_page hl] at hs
      rcases hcase with ⟨_, i, hi, _, rfl⟩ | ⟨_, hsz, _⟩
      · cases hi.symm.trans hs
        rfl
      · -- a heap page lies in no mapping
        rw [vmaAt_out hl (.inl (by omega))] at hs
        cases hs
    · exact h n e s he hs
  · exact hold hent

theorem sysMmap_permOk {offset : Nat} {fd : Int} {prot flags : UInt32}
    (hl : Layout p) (hl' : Layout p') (hseat : p.Seated) (h : p.PermOk)
    (hm : sysMmap p g addr len prot flags fd offset = .ok (r, p', g')) : p'.PermOk := by
  rcases sysMmap_cases hm with
    ⟨rfl, _⟩ | ⟨f, i, _, _, _, _, _, hfree, _, _, rfl⟩
  · exact h
  refine h.of_old (fun n e he => he) fun n s hn hs => ?_
  obtain ⟨hs', hvs, hlo, hhi⟩ := vmaAt_some hs
  -- a page that is mapped lies in an old mapping, below the new one
  have hn' : (p.pagetable.leaf n).isSome = true := by
    rw [← hseat.table.entry_eq]
    exact hn
  rcases hseat.placed n hn' with hheap | htop | hvma
  · rw [vmaAt_out hl' (.inl (heapPage_lt hseat.small hheap))] at hs
    cases hs
  · rw [vmaAt_out hl' (.inr (topPage_ge htop))] at hs
    cases hs
  obtain ⟨s0, hs0⟩ := Option.isSome_iff_exists.mp hvma
  obtain ⟨h1, h2, h3, h4⟩ := vmaAt_some hs0
  have hcur := (hl.ok s0 h1 h2).le_cur
  have hsi : s ≠ i := by
    rintro rfl
    simp only [Proc.setVma, if_true, newVma] at hlo
    omega
  simp only [Proc.setVma, if_neg hsi] at hvs hlo hhi ⊢
  exact ⟨s, vmaAt_eq hl hs' hvs hlo hhi, rfl⟩

theorem sysMunmap_permOk (hl : Layout p)
    (ht : MunmapTidy p addr len) (h : p.PermOk)
    (hm : sysMunmap p g addr len = .ok (r, p', g')) : p'.PermOk := by
  rcases sysMunmap_cases hm with
    ⟨rfl, _⟩ | ⟨i, p1, g1, g2, _, hhold, _, hloop, _, rfl⟩
  · exact h
  have hent := munmapPages_entry hloop
  obtain ⟨⟨pt, hp1⟩, _⟩ := munmapPages_frame hloop
  subst hp1
  refine h.of_old (fun n e he => ?_) fun n s _ hs => ?_
  · have he' : pt.entry n = some e := he
    rw [hent] at he'
    split at he'
    · cases he'
    · exact he'
  obtain ⟨hs', hvs, hlo, hhi⟩ := vmaAt_some hs
  by_cases hsi : s = i
  · subst hsi
    simp only [Proc.setVma, if_true] at hvs hlo hhi ⊢
    obtain ⟨hv0, h1, h2⟩ := shrink_sub ht.range.1.le hvs
    refine ⟨s, vmaAt_eq hl hs' hv0 (h1.trans hlo) (by omega), ?_⟩
    unfold Vma.perm
    rw [(shrink_same (p.vma s) _ _).2.2]
  · simp only [Proc.setVma, if_neg hsi] at hvs hlo hhi ⊢
    exact ⟨s, vmaAt_eq hl hs' hvs hlo hhi, rfl⟩

theorem kfork_permOk (hl : Layout (k'.proc j)) (hw : (k'.proc j).pagetable.Wf)
    (hsmall : (k'.proc j).sz ≤ mmapBase) (hseat : (k.proc i).Seated)
    (h : kfork k i = .ok (some j, k')) : (k'.proc j).PermOk := by
  intro n e s he hs
  rw [hw.entry_eq] at he
  rcases kfork_where hseat h (by rw [he]; rfl) with hheap | htop
  · rw [vmaAt_out hl (.inl (heapPage_lt hsmall hheap))] at hs
    cases hs
  · rw [vmaAt_out hl (.inr (topPage_ge htop))] at hs
    cases hs

-- == the runs

/-- The condition on a step: tidy, and sys_mmap names a file that was
opened readable, if any. -/
def ModeTidy (k : Kernel) (i : Nat) : Op → Prop
  | .mmap addr len prot flags fd offset =>
    Tidy k i (.mmap addr len prot flags fd offset)
      ∧ ∀ f, ofileAt (k.proc i) fd.toInt = .ok (some f) → (k.glob.ftable f).readable = true
  | op => Tidy k i op

theorem ModeTidy.tidy (h : ModeTidy k i op) : Tidy k i op := by
  cases op with
  | mmap => exact h.1
  | _ => exact h

/-- A mapping and the modes of its file: the file was opened readable, and
writable if the mapping is shared and writable. -/
def ModeOk (o : Option (FdType × Bool × Bool × Option Nat)) (prot flags : UInt32) : Prop :=
  ∀ ty r w ip, o = some (ty, r, w, ip) →
    r = true ∧ (hasBit flags mapShared = true → w = true ∨ hasBit prot protWrite = false)

/-- What a run of such steps keeps. -/
structure Moded (k : Kernel) : Prop where
  tallied : Tallied k
  coherent : Coherent k
  perms : ∀ j, (k.proc j).isLive = true → (k.proc j).PermOk
  modes : VmaInv ModeOk k

/-- Without mappings there is no PTE of one. -/
theorem Proc.NoMaps.permOk (h : p.NoMaps) : p.PermOk := by
  intro n e s _ hs
  obtain ⟨hlt, hv, _⟩ := vmaAt_some hs
  rw [h s hlt] at hv
  cases hv

/-- One step: the PTEs of a mapping carry its permissions, old ones and
the one a fault maps. -/
theorem step_permOk (h : Tallied k) (h' : Tallied k')
    (hl : (k.proc i).isLive = true) (hc : Tidy k i op)
    (hp : ∀ j, (k.proc j).isLive = true → (k.proc j).PermOk)
    (hs : step k i op = .ok k') (hj : (k'.proc j).isLive = true) : (k'.proc j).PermOk := by
  have hput : ∀ p g, (p.isLive = true → p.PermOk) → ((k.put i (p, g)).proc j).isLive = true →
      ((k.put i (p, g)).proc j).PermOk := by
    intro p g hpi hlive
    by_cases hji : j = i
    · subst hji
      rw [Kernel.put_self] at hlive ⊢
      exact hpi hlive
    · rw [Kernel.put_of_ne k _ hji] at hlive ⊢
      exact hp j hlive
  have hkept : ∀ p g, OnlyOfile (k.proc i) p → ((k.put i (p, g)).proc j).isLive = true →
      ((k.put i (p, g)).proc j).PermOk := by
    rintro p g ⟨ofile, rfl⟩
    exact hput _ g fun _ => (hp i hl).congr rfl rfl
  have hlay := h.layout hl
  have hseat := h.seat i hl
  cases step_did hs with
  | @mmap _ _ _ _ _ _ _ p g hm =>
    refine hput _ _ (fun hlive => ?_) hj
    have hl' := h'.layout (by rw [Kernel.put_self]; exact hlive)
    rw [Kernel.put_self] at hl'
    exact sysMmap_permOk hlay hl' hseat (hp i hl) hm
  | munmap hm =>
    exact hput _ _ (fun _ => sysMunmap_permOk hlay hc (hp i hl) hm) hj
  | fault hm =>
    exact hput _ _ (fun _ => vmfault_permOk hlay hseat.small (hp i hl) hm) hj
  | @fork o _ hm =>
    cases o with
    | some c =>
      by_cases hjc : j = c
      · subst hjc
        have hs' := h'.seat j hj
        exact kfork_permOk (h'.layout hj) hs'.table hs'.small hseat hm
      · obtain ⟨_, _, _, _, _, _, _, _, s, _, _, _, _, rfl⟩ := kfork_some hm
        rw [Kernel.put_of_ne _ _ hjc] at hj ⊢
        exact hp j hj
    | none =>
      rcases kfork_none hm with rfl | ⟨c, _, _, tf, pt, ph, rfl⟩
      · exact hp j hj
      by_cases hjc : j = c
      · subst hjc
        rw [Kernel.put_self] at hj
        cases hj
      · rw [Kernel.put_of_ne _ _ hjc] at hj ⊢
        exact hp j hj
  | exit hm =>
    obtain ⟨_, ⟨p, g⟩, hself, rfl⟩ := kexit_ok hm
    obtain ⟨pt, rfl⟩ := exitSelf_frame hself
    by_cases hji : j = i
    · subst hji
      rw [Kernel.put_self] at hj
      cases hj
    · rw [Kernel.put_of_ne _ _ hji] at hj ⊢
      obtain ⟨parent, heq⟩ := reparent_proc k i j
      rw [heq] at hj ⊢
      exact (hp j hj).congr rfl rfl
  | openFile hm => exact hkept _ _ (sysOpen_kept h.pipes hm).1 hj
  | close hm => exact hkept _ _ (sysClose_kept (S := fun _ => True) h.pipes hm).1 hj
  | dup hm => exact hkept _ _ (sysDup_kept (S := fun _ => True) h.pipes hm).1 hj
  | unlink hm =>
    obtain ⟨rfl, _⟩ := sysUnlink_covers (fun _ => Int.le_refl _) hm
    exact hkept _ _ (.refl _) hj
  | store hm =>
    refine hput _ _ (fun _ => ?_) hj
    obtain ⟨_, ⟨rfl, _⟩ | ⟨r, hf⟩, _⟩ := userStore_fault hm
    · exact hp i hl
    · exact vmfault_permOk hlay hseat.small (hp i hl) hf
  | sbrk hm =>
    obtain ⟨⟨pt, sz, rfl⟩, _⟩ := sysSbrk_frame _ hm
    exact hput _ _ (fun _ => Proc.NoMaps.permOk hc.1) hj
  | exec hm =>
    obtain ⟨⟨regs, name, pt, sz, rfl⟩, _⟩ := kexec_frame _ hm
    exact hput _ _ (fun _ => Proc.NoMaps.permOk hc.1) hj
  | wait hm =>
    rcases kwait_cases hm with rfl | ⟨c, p, g, hcj, hout, hk'⟩
    · exact hp j hj
    have hpi : p.PermOk := by
      rcases hout with ⟨rfl, _⟩ | ⟨hne, ok, src, hcopy⟩
      · exact hp i hl
      · obtain ⟨⟨pt, rfl⟩, _⟩ := copyout_frame _ hcopy
        have hmaps := (hc c hcj).1.resolve_left fun h0 =>
          hne (by rw [h0]; rfl)
        exact Proc.NoMaps.permOk hmaps
    rcases hk' with rfl | ⟨q, ph, hfree, rfl⟩
    · exact hput _ _ (fun _ => hpi) hj
    by_cases hjc : j = c
    · rw [hjc, Kernel.put_self, freeproc_freed hfree] at hj
      cases hj
    · rw [Kernel.put_of_ne _ _ hjc] at hj ⊢
      exact hput _ _ (fun _ => hpi) hj
  | pipe => exact hc.elim

theorem step_moded (h : Moded k) (hi : i < nproc)
    (hl : (k.proc i).isLive = true) (hc : ModeTidy k i op)
    (hs : step k i op = .ok k') : Moded k' := by
  have hmodes : VmaInv ModeOk k' := by
    obtain ⟨d, hacc⟩ := h.tallied.files
    refine step_vmaInv h.modes hacc hi hl ?_ hs
    rintro addr len prot flags fd offset f rfl _ _ hf hmode ty r w ip ho
    cases f with
    | none => cases ho
    | some f =>
      cases ho
      refine ⟨hc.2 f hf, fun hshared => ?_⟩
      simp only [mmapMode, hshared, if_true] at hmode
      simpa using Except.ok.inj hmode
  obtain ⟨ht, hst⟩ := step_tallied h.tallied hi hl hc.tidy hs
  exact ⟨ht, hst.coherent ht h.coherent,
    fun j hj => step_permOk h.tallied ht hl hc.tidy h.perms hs hj, hmodes⟩

theorem moded_of_runs {k0 : Kernel} (h0 : FreshBooks k0)
    (hal : ∀ x, 0 < k0.uses x → x % pgSize = 0) (hr : Runs ModeTidy k0 k) : Moded k := by
  refine hr.inv Moded ?_ fun _ _ _ _ hi hl hc h hs =>
    step_moded h hi hl hc hs
  have hnone : ∀ j, (k0.proc j).state ≠ .unused → ∀ s, s < nvma →
      ((k0.proc j).vma s).valid = false :=
    fun j hu s hs => (h0.maps j hu).2 s hs
  refine ⟨h0.tallied, h0.coherent hal, ?_, ?_⟩
  · intro j hj n e s _ hs
    obtain ⟨hs', hv, _⟩ := vmaAt_some hs
    rw [hnone j (used_of_live hj) s hs'] at hv
    cases hv
  · intro j _ hu s hs hv
    rw [hnone j hu s hs] at hv
    cases hv

-- == pages apart

/-- Physical page `y` belongs to the registry or to a process. -/
def Kernel.InUse (k : Kernel) (y : Nat) : Prop :=
  0 < k.glob.shared.pages y + ∑ j ∈ range nproc, (k.proc j).held y

theorem Kernel.InUse.of_held (hj : j < nproc) (hy : 0 < (k.proc j).held y) : k.InUse y := by
  have hrow := row_le_sum (f := fun j => (k.proc j).held y) hj
  unfold Kernel.InUse
  omega

theorem Tallied.not_free (h : Tallied k) (hy : k.InUse y) : y ∉ k.glob.phys.freelist := by
  intro hmem
  have hpos := List.count_pos_iff.mpr hmem
  have honce := h.once y
  unfold Kernel.InUse at hy
  unfold Kernel.uses Glob.uses at honce
  omega

theorem Coherent.inUse_aligned (h : Coherent k) (hy : k.InUse y) : y % pgSize = 0 := by
  refine h.aligned y ?_
  unfold Kernel.InUse at hy
  unfold Kernel.uses Glob.uses
  omega

/-- A page that process `i` holds is not a page of the registry and is in
no other process. -/
theorem Tallied.apart (h : Tallied k) (hi : i < nproc)
    (hx : 0 < (k.proc i).held x) (hy : 0 < k.glob.shared.pages y
      ∨ ∃ j, j < nproc ∧ j ≠ i ∧ 0 < (k.proc j).held y) : y ≠ x := by
  rintro rfl
  have honce := h.once y
  unfold Kernel.uses Glob.uses at honce
  rcases hy with hy | ⟨j, hj, hji, hy⟩
  · have hrow := row_le_sum (f := fun j => (k.proc j).held y) hi
    omega
  · have hrow := two_rows_le_sum (f := fun j => (k.proc j).held y) hj hi hji
    omega

theorem Moded.sound (h : Moded k) : k.glob.phys.Sound := by
  have hfree : ∀ r, k.glob.phys.freelist.count r ≤ k.uses r := by
    intro r
    unfold Kernel.uses Glob.uses
    omega
  refine ⟨List.nodup_iff_count_le_one.mpr fun r =>
    (hfree r).trans (h.tallied.once r), fun r hr => ?_, h.tallied.zero_free⟩
  exact h.coherent.aligned r (Nat.lt_of_lt_of_le (List.count_pos_iff.mpr hr) (hfree r))

/-- A user page that a live process maps is the process's own or a page of
the registry. -/
theorem Moded.counted (h : Moded k) {n : Nat} {e : Pte} (hj : j < nproc)
    (hl : (k.proc j).isLive = true) (hn : n < 2 ^ 26) (hu : UserPage n)
    (he : (k.proc j).pagetable.leaf n = some e) :
    0 < k.glob.shared.pages e.pa ∨ 0 < (k.proc j).held e.pa := by
  cases hsh : (k.proc j).sharedAt n with
  | none =>
    right
    rw [held_of_used (used_of_live hl)]
    have hpos := ownPages_pos hn hu hsh he
    unfold Proc.uses
    omega
  | some x =>
    left
    have hkey : (k.proc j).sharedKey k.glob n = some ((k.glob.ftable x.1).ip, x.2) := by
      unfold Proc.sharedKey
      rw [hsh]
      rfl
    obtain ⟨s, hlook, hpa⟩ := h.coherent.pages j hj n e _ _ he hkey
    rw [← hpa]
    exact (pages_pos_of_lookup hlook).1

theorem byte_ne {t : Nat} (hx : x % pgSize = 0) (hy : y % pgSize = 0)
    (hne : y ≠ x) (hr : r < pgSize) (ht : t < pgSize) : y + r ≠ x + t := by
  unfold pgSize at *
  omega

theorem userPage_lt {a : Nat} (ha : a < trapframe) :
    a / pgSize < 2 ^ 26 ∧ UserPage (a / pgSize) := by
  unfold UserPage tfPage trampPage
  unfold trapframe trampoline maxVa pgSize at *
  omega

/-- A call of process `i` that others do not notice: the disk, the bytes
of the registry's pages and the memory of every other process are the
ones before. -/
structure Unseen (k : Kernel) (i : Nat) (g : Glob) : Prop where
  disk : g.disk = k.glob.disk
  registry : ∀ ip off e, k.glob.shared.lookup ip off = some e →
    ∃ e', g.shared.lookup ip off = some e' ∧ e'.pa = e.pa
      ∧ ∀ t, t < pgSize → g.phys.mem (e.pa + t) = k.glob.phys.mem (e.pa + t)
  views : ∀ j, j < nproc → j ≠ i → (k.proc j).isLive = true →
    ∀ a, a < trapframe → memAt (k.proc j) g a = memAt (k.proc j) k.glob a

/-- A store that goes through: the state before its byte is written, and
the PTE it writes through. -/
theorem Moded.before_store (h : Moded k) {va : UInt64} (hi : i < nproc)
    (hl : (k.proc i).isLive = true)
    (hs : userStore (k.proc i) k.glob va.toNat b = .ok (true, p', g')) :
    ∃ e g1, p'.pagetable.entry (va.toNat / pgSize) = some e ∧ e.grants false = true
      ∧ g' = g1.setMem (fun a =>
        if a = e.pa + va.toNat % pgSize then b else g1.phys.mem a)
      ∧ Moded (k.put i (p', g1)) ∧ Stepped k (k.put i (p', g1)) ∧ k.glob.phys.Takes g1.phys := by
  obtain ⟨e, g1, he, hgr, hg', hacc⟩ := userStore_true hs
  refine ⟨e, g1, he, hgr, hg', ?_⟩
  rcases hacc with ⟨hsame, hsame'⟩ | ⟨hne, hf⟩
  · rw [hsame, hsame', k.put_same i]
    exact ⟨h, .refl k, .refl _⟩
  have hstep : step k i (.fault va false) = .ok (k.put i (p', g1)) := by
    simp only [step, Kernel.local, hf, ok_bind, pure_eq]
  have htidy : Tidy k i (.fault va false) := trivial
  have hmode : ModeTidy k i (.fault va false) := htidy
  refine ⟨step_moded h hi hl hmode hstep, (step_tallied h.tallied hi hl htidy hstep).2, ?_⟩
  rcases vmfault_cases hf with ⟨hlt, hh⟩ | hback
  · exact hh.takes hlt
  · exact absurd hback.zero hne

theorem Moded.store_unseen (h : Moded k) {va : UInt64} (hi : i < nproc)
    (hl : (k.proc i).isLive = true) (hva : va.toNat < trapframe)
    (hown : (k.proc i).sharedAt (va.toNat / pgSize) = none)
    (hs : userStore (k.proc i) k.glob va.toNat b = .ok (true, p', g')) : Unseen k i g' := by
  obtain ⟨⟨pt, hp'⟩, hquiet⟩ := userStore_frame _ hs
  dsimp only at hp'
  obtain ⟨e, g1, he, _, hg', h1, hst, htakes⟩ := h.before_store hi hl hs
  have hself : (k.put i (p', g1)).proc i = p' := Kernel.put_self ..
  have hother : ∀ j, j ≠ i → (k.put i (p', g1)).proc j = k.proc j :=
    fun j hj => Kernel.put_of_ne k _ hj
  have hlive : p'.isLive = true := by
    rw [hp']
    exact hl
  obtain ⟨hn, hu⟩ := userPage_lt hva
  have hheld : 0 < ((k.put i (p', g1)).proc i).held e.pa := by
    rw [hself, held_of_used (used_of_live hlive)]
    have hseat := h1.tallied.seat i (by rw [hself]; exact hlive)
    rw [hself] at hseat
    rw [hseat.table.entry_eq] at he
    have hpos := ownPages_pos hn hu (by rw [hp']; exact hown) he
    unfold Proc.uses
    omega
  have hal := h1.coherent.inUse_aligned (.of_held hi hheld)
  -- a page in use before, and not the one stored to, keeps its bytes
  have hbyte : ∀ {y t : Nat}, k.InUse y → y ≠ e.pa → t < pgSize →
      g'.phys.mem (y + t) = k.glob.phys.mem (y + t) := by
    intro y t hy hne ht
    have hyal := h.coherent.inUse_aligned hy
    rw [hg', ← htakes.page h.sound hyal (h.tallied.not_free hy) ht]
    exact if_neg (byte_ne hal hyal hne ht (Nat.mod_lt _ (by decide)))
  have hshared : g'.shared = g1.shared := by
    rw [hg']
    rfl
  refine ⟨hquiet.disk, ?_, ?_⟩
  · intro ip off s hlook
    have hpos := (pages_pos_of_lookup hlook).1
    have huse : k.InUse s.pa := Nat.lt_of_lt_of_le hpos (Nat.le_add_right _ _)
    rcases hst.settles ip off s hlook with ⟨s', hlook', hpa⟩ | ⟨_, hfree⟩
    · have hlook1 : g1.shared.lookup ip off = some s' := hlook'
      have hne : s'.pa ≠ e.pa := h1.tallied.apart hi hheld (.inl (pages_pos_of_lookup hlook').1)
      rw [hpa] at hne
      exact ⟨s', hshared ▸ hlook1, hpa, fun t ht => hbyte huse hne ht⟩
    · obtain ⟨l, hsuf⟩ := htakes.suffix
      refine absurd ?_ (h.tallied.not_free huse)
      rw [hsuf]
      exact List.mem_append_right _ hfree
  · intro j hj hji hlj a ha
    unfold memAt
    cases hent : (k.proc j).pagetable.entry (a / pgSize) with
    | none => rfl
    | some e' =>
      obtain ⟨hn', hu'⟩ := userPage_lt ha
      rw [(h.tallied.seat j hlj).table.entry_eq] at hent
      have huse : k.InUse e'.pa := by
        rcases h.counted hj hlj hn' hu' hent with hc | hc
        · exact Nat.lt_of_lt_of_le hc (Nat.le_add_right _ _)
        · exact .of_held hj hc
      have hcount := h1.counted hj (by rw [hother j hji]; exact hlj)
        hn' hu' (by rw [hother j hji]; exact hent)
      have hne : e'.pa ≠ e.pa :=
        h1.tallied.apart hi hheld (hcount.imp_right fun hc => ⟨j, hj, hji, hc⟩)
      exact congrArg some (hbyte huse hne (Nat.mod_lt _ (by decide)))

set_option maxRecDepth 10000

end Xv6Labs.Model
