/-
The heap stays below the mapping area as long as sys_sbrk keeps it there.

sys_sbrk tests a lazy growth for 64-bit overflow only and an eager one not
at all. If no call grows the heap past MMAPBASE, every process has its heap
below its mappings and nothing in between (`Proc.Apart`), and no call walks
past MAXVA or maps a page twice.
-/
import Xv6Labs.Proofs.TableGap
import Xv6Labs.Proofs.Layout
import Xv6Labs.Proofs.Handled
import Xv6Labs.Proofs.Spaces

namespace Xv6Labs.Model

open Lib

variable {p p' : Proc} {g g' : Glob} {addr dst i len va : Nat} {read : Bool}
  {pt : PageTable} {v : Vma} {src : Nat → UInt8} {n : Int} {s : Proc × Glob}
  {k k' : Kernel} {op : Op}

/-- The heap ends below the mapping area, with nothing mapped between. -/
structure Proc.Apart (p : Proc) : Prop where
  small : p.sz ≤ mmapBase
  gap : p.pagetable.GapFrom (pgRoundUp p.sz)

theorem Proc.Apart.congr (h : p.Apart) (hsz : p'.sz = p.sz)
    (hpt : p'.pagetable = p.pagetable) : p'.Apart := by
  refine ⟨hsz.trans_le h.small, ?_⟩
  rw [hsz, hpt]
  exact h.gap

-- == faults

theorem vmfault_apart {r : Nat} (h : p.Apart)
    (hf : vmfault p g va read = .ok (r, p', g')) : p'.Apart := by
  obtain ⟨⟨pt, hp'⟩, _⟩ := vmfault_frame _ hf
  dsimp only at hp'
  have hsz : p'.sz = p.sz := by rw [hp']
  refine ⟨hsz.trans_le h.small, ?_⟩
  rw [hsz]
  rcases vmfault_cases hf with ⟨hva, hh⟩ | ⟨_, hent, _⟩
  · rcases hh.entries hva with ⟨_, _, _, _, rfl, _⟩ | ⟨_, _, hent, hcase⟩
    · exact h.gap
    intro n e he
    rw [hent] at he
    split at he
    · next hn =>
      have hbase : mmapBase % pgSize = 0 := rfl
      rcases hcase with ⟨⟨hlo, _⟩, _⟩ | ⟨_, hlt, _⟩
      · unfold pgSize at *
        omega
      · have hup := (pgRoundUp_le_mmapBase h.small).1
        unfold pgSize at *
        omega
    · exact h.gap n e he
  · exact h.gap.of_old fun n e he => by rw [← hent]; exact he

theorem ilock_safe (g : Glob) (ip : Nat) : Avoids tablePanics (ilock g ip) :=
  ilock_avoids (by decide) (by decide)

theorem fillPage_safe (g : Glob) (ip : Option Nat) (off : Nat) :
    Avoids tablePanics (fillPage g ip off) := by
  unfold fillPage
  split
  · exact .ok _
  · dsimp only
    split
    · exact .error (by decide)
    · exact (ilock_safe _ _).bind fun _ _ => .ok _

theorem sharedDecref_safe (g : Glob) (ip : Option Nat) (off : Nat) :
    Avoids tablePanics (g.sharedDecref ip off) :=
  sharedDecref_avoids (by decide)

/-- lazy_mmap maps a page only after it has found no entry there. -/
theorem mappages_safe_of_walk {ph : Phys} {pa : Nat} {perm : Perm}
    (hva : va < maxVa) (hw : walkValid pt va = .ok none) :
    Avoids tablePanics (mappages pt ph va pgSize pa perm) := by
  refine mappages_safe hva ?_
  rw [walkValid_entry hva] at hw
  exact Except.ok.inj hw

theorem faultMap_safe {off pa : Nat} {ip : Option Nat} (hva : va < maxVa) :
    Avoids tablePanics (faultMap pt g v va ip off pa) := by
  refine (walkValid_avoids fun _ => hva).bind fun o ho => ?_
  cases o with
  | some e => exact (sharedDecref_safe _ _ _).bind fun _ _ => .ok _
  | none =>
    refine (mappages_safe_of_walk hva ho).bind fun t _ => ?_
    dsimp only
    split
    · exact .ok _
    · exact (sharedDecref_safe _ _ _).bind fun _ _ => .ok _

theorem lazyShared_safe (hva : va < maxVa) : Avoids tablePanics (lazyShared pt g v va) := by
  unfold lazyShared
  dsimp only
  split
  · exact faultMap_safe hva
  refine (fillPage_safe _ _ _).bind fun s _ => ?_
  split
  · exact .ok _
  refine .bind ?_ fun s _ => ?_
  · unfold faultInsert
    split
    · exact .ok _
    · exact (kfree_safe _ _).bind fun _ _ => .ok _
  · split
    · exact .ok _
    · exact faultMap_safe hva

theorem lazyPrivate_safe (hva : va < maxVa) : Avoids tablePanics (lazyPrivate pt g v va) := by
  refine .bind ?_ fun s _ => ?_
  · unfold privatePage
    split
    · exact fillPage_safe _ _ _
    · split <;> exact .ok _
  dsimp only
  split
  · exact .ok _
  refine (walkValid_avoids fun _ => hva).bind fun o ho => ?_
  cases o with
  | some e => exact (kfree_safe _ _).bind fun _ _ => .ok _
  | none =>
    refine (mappages_safe_of_walk hva ho).bind fun t _ => ?_
    split
    · exact .ok _
    · exact (kfree_safe _ _).bind fun _ _ => .ok _

theorem vmfault_safe (hl : Layout p) (h : p.Apart) : Avoids tablePanics (vmfault p g va read) := by
  unfold vmfault
  split
  · next hin =>
    have htop := hl.cur_top
    have hva : pgRoundDown va < maxVa := by
      have := pgRoundDown_le va
      unfold mmapTop at htop
      unfold maxVa
      omega
    unfold lazyMmap
    split
    · exact .ok _
    refine (walkValid_avoids fun _ => hva).bind fun o _ => ?_
    cases o with
    | some e => exact .ok _
    | none =>
      dsimp only
      split
      · refine .bind ?_ fun _ _ => .ok _
        split
        · exact lazyShared_safe hva
        · exact lazyPrivate_safe hva
      · exact .ok _
  · split
    · exact .ok _
    · next hsz =>
      have hva : pgRoundDown va < maxVa := by
        have := pgRoundDown_le va
        have := h.small
        exact lt_maxVa_of_mmapBase (by omega)
      dsimp only
      refine .bind ((walkValid_avoids fun _ => hva).bind fun _ _ => .ok _) fun b hb => ?_
      obtain ⟨o, ho, hb⟩ := bind_ok hb
      cases hb
      split
      · exact .ok _
      · next hno =>
        have hnone : o = none := by
          rw [Bool.not_eq_true, Option.isSome_eq_false_iff, Option.isNone_iff_eq_none] at hno
          exact hno
        rw [hnone] at ho
        split
        · exact .ok _
        · refine (mappages_safe_of_walk hva ho).bind fun t _ => ?_
          split
          · exact .ok _
          · exact (kfree_safe _ _).bind fun _ _ => .ok _

-- == copyout

theorem copyoutPage_apart {k : Nat} {s : Nat × Proc × Glob} (hl : Layout s.2.1) (h : s.2.1.Apart) :
    Meets tablePanics (copyoutPage dst src len k s)
      (Sum.elim (fun t => Layout t.2.1 ∧ t.2.1.Apart) fun t => t.1.Apart) := by
  refine .ite (fun _ => .ok h) fun hlt => ?_
  rw [Nat.not_le] at hlt
  refine .bind ⟨?_, fun _ _ => trivial⟩ fun pa0 _ =>
    .bind (Q := fun t => Layout t.2.1 ∧ t.2.1.Apart) ?_ fun t ht =>
      .ite (fun _ => .ok ht.2) fun _ => ?_
  · unfold walkaddr
    rw [if_neg (Nat.not_le.mpr hlt)]
    refine (walkValid_avoids fun _ => hlt).bind fun o _ => ?_
    cases o <;> exact .ok _
  · refine .ite (fun _ => ⟨vmfault_safe hl h, fun t hf => ?_⟩) fun _ => .ok ⟨hl, h⟩
    refine ⟨?_, vmfault_apart h hf⟩
    obtain ⟨⟨pt, hq⟩, _⟩ := vmfault_frame _ hf
    rw [hq]
    exact hl.congr rfl rfl
  · refine (walk_avoids fun _ => hlt).meets.bind fun o _ => ?_
    cases o with
    | none => exact .error (by decide)
    | some m => exact .ite (fun _ => .ok ht) fun _ => .ok ht.2

theorem copyout_apart (hl : Layout p) (h : p.Apart) :
    Meets tablePanics (copyout p g dst src len) (·.2.1.Apart) := by
  refine .bind (.forRet (fun _ t => Layout t.2.1 ∧ t.2.1.Apart)
    (fun t => t.1.Apart) ⟨hl, h⟩ fun _ _ _ ht => copyoutPage_apart ht.1 ht.2)
    fun o ho => ?_
  cases o with
  | inl t => exact .ok ho.2
  | inr t => exact .ok ho

-- == sbrk

/-- The condition on a sys_sbrk: a growth ends below the mapping area. -/
def Proc.Grows (p : Proc) (n : Int) : Prop := 0 < n → p.sz + n ≤ mmapBase

theorem grown_eq (hg : p.Grows n) (hn : 0 < n) :
    p.sz ≤ u64 (p.sz + n) ∧ u64 (p.sz + n) ≤ mmapBase := by
  have := hg hn
  unfold mmapBase at *
  rw [u64_of_lt (n := (p.sz + n).toNat) (by omega) (by omega)]
  omega

theorem sysSbrk_apart {eager : Bool} (h : p.Apart) (hg : p.Grows n) :
    Meets tablePanics (sysSbrk p g n eager) (·.2.1.Apart) := by
  refine .ite (fun _ => .bind ?_ fun _ hq => .ok hq)
    fun hlazy => .ite (fun _ => .ok h) fun _ => .ok ?_
  · refine .ite (fun hn => ?_) fun _ => .ite (fun _ => ?_) fun _ => .ok h
    · obtain ⟨hle, hbase⟩ := grown_eq hg hn
      have hpos : u64 (p.sz + n) ≠ 0 := by
        have := hg hn
        unfold mmapBase at this
        rw [u64_of_lt (n := (p.sz + n).toNat) (by omega) (by omega)]
        omega
      refine (uvmalloc_gap hle hbase h.gap).bind fun r hr => ?_
      rcases hr with ⟨hz, hgap⟩ | ⟨hz, hgap⟩
      · exact .ite (fun _ => .ok ⟨h.small, hgap⟩) fun hne => absurd hz hne
      · refine .ite (fun h0 => absurd (hz.symm.trans h0) hpos) fun _ =>
          .ok ⟨?_, ?_⟩
        · exact hz.trans_le hbase
        · exact hz ▸ hgap
    · refine (uvmdealloc_gap h.small h.gap).bind fun r hr => .ok ⟨?_, hr.2⟩
      have := h.small
      show r.1 ≤ mmapBase
      omega
  · -- a lazy growth maps nothing
    have hn : 0 ≤ n := by
      simp only [Bool.or_eq_true, decide_eq_true_eq] at hlazy
      omega
    rcases Int.lt_or_eq_of_le hn with hpos | rfl
    · obtain ⟨hle, hbase⟩ := grown_eq hg hpos
      refine ⟨hbase, h.gap.mono ?_⟩
      show pgRoundUp p.sz ≤ pgRoundUp (u64 (p.sz + n))
      unfold mmapBase at hbase
      rw [pgRoundUp_eq (by omega), pgRoundUp_eq (by omega)]
      omega
    · have hsame : u64 ((p.sz : Int) + 0) = p.sz := by
        refine u64_of_lt (by omega) ?_
        have := h.small
        unfold mmapBase at this
        omega
      exact h.congr hsame rfl

-- == files

theorem filedup_safe (g : Glob) (f : Nat) : Avoids tablePanics (filedup g f) := by
  unfold filedup
  dsimp only
  split
  · exact .error (by decide)
  · exact .ok _

theorem filedupOpt_safe (g : Glob) (f : Option Nat) : Avoids tablePanics (filedupOpt g f) := by
  unfold filedupOpt
  split
  · exact .ok _
  · exact filedup_safe _ _

theorem pipeclose_safe (g : Glob) (a : Nat) (w : Bool) : Avoids tablePanics (pipeclose g a w) := by
  unfold pipeclose
  extract_lets q0 q g'
  split
  · exact (kfree_safe _ _).bind fun _ _ => .ok _
  · exact .ok _

theorem fileclose_safe (g : Glob) (f : Nat) : Avoids tablePanics (fileclose g f) := by
  unfold fileclose
  dsimp only
  split
  · exact .error (by decide)
  split
  · exact .ok _
  split
  · exact pipeclose_safe _ _ _
  · exact .ok _
  · exact .ok _
  · exact .error (by decide)
  · exact .error (by decide)
  · exact .ok _

theorem sysMmap_safe {offset : Nat} {len fd : Int} {prot flags : UInt32} :
    Avoids tablePanics (sysMmap p g addr len prot flags fd offset) := by
  unfold sysMmap
  split
  · exact .ok _
  refine .bind ?_ fun f _ => .bind ?_ fun mode _ => ?_
  · unfold ofileAt
    split
    · exact .ok _
    · exact .error (by decide)
  · unfold mmapMode
    split
    · split
      · exact .error (by decide)
      · exact .ok _
    · exact .ok _
  · split
    · exact .ok _
    split
    · exact .ok _
    · split
      · exact .ok _
      · exact (filedupOpt_safe _ _).bind fun _ _ => .ok _

-- == exit

theorem exitPage_safe {slot n : Nat} (hslot : slot < nvma) (hn : v.start + n * pgSize < mmapTop) :
    Avoids tablePanics (exitPage v slot n s) := by
  have hva : v.start + n * pgSize + 1 * pgSize ≤ maxVa := by
    unfold mmapTop at hn
    unfold maxVa pgSize at *
    omega
  have hsl : slot + 1 * pgSize ≤ maxVa := by
    unfold nvma at hslot
    unfold maxVa pgSize
    omega
  refine (walkValid_avoids fun _ => ?_).bind fun o _ => ?_
  · unfold pgSize at *
    omega
  cases o with
  | none => exact .ok _
  | some e =>
    dsimp only
    split
    · exact (sharedDecref_safe _ _ _).bind fun _ _ =>
        (uvmunmap_safe hva).bind fun _ _ => .ok _
    · exact (uvmunmap_safe hsl).bind fun _ _ => .ok _

theorem PageTurn.gap {a slot b : Nat} {s' : Proc × Glob}
    (h : PageTurn v a slot s s') (hslot : slot < maxVa)
    (hg : s.1.pagetable.GapFrom b) : s'.1.pagetable.GapFrom b := by
  have hdrop : ∀ {va : Nat} {pt : PageTable} {ph ph' : Phys} {f : Bool},
      va < maxVa → uvmunmap s.1.pagetable ph va 1 f = .ok (pt, ph') → pt.GapFrom b := by
    intro va pt ph ph' f hva hu
    refine hg.of_old fun n e he => ?_
    rw [(uvmunmap_entry hva hu).2.1] at he
    split at he
    · cases he
    · exact he
  rcases h with ⟨_, rfl⟩ | ⟨e, he, ⟨_, g, pt, ph, _, hu, rfl⟩ | ⟨_, pt, ph, hu, rfl⟩⟩
  · exact hg
  · exact hdrop (walkValid_lt he) hu
  · exact hdrop hslot hu

theorem exitVmas_apart {b : Nat} (hl : Layout s.1) (hg : s.1.pagetable.GapFrom b) :
    Meets tablePanics (forUpto exitVma nvma s) fun t =>
      OnlyTable (s.1.dropMaps nvma) t.1 ∧ t.1.pagetable.GapFrom b := by
  refine .forUpto (fun m (t : Proc × Glob) => OnlyTable (s.1.dropMaps m) t.1
    ∧ t.1.pagetable.GapFrom b) ⟨⟨s.1.pagetable, by simp [Proc.dropMaps]⟩, hg⟩ ?_
  rintro m hm ⟨t, g⟩ ⟨⟨pt, rfl⟩, hgap⟩
  have hv : ({ s.1.dropMaps m with pagetable := pt } : Proc).vma m = s.1.vma m := by
    simp [Proc.dropMaps]
  have hslot : m < maxVa := by
    unfold nvma at hm
    unfold maxVa
    omega
  have hpages : Meets tablePanics (exitVma m ({ s.1.dropMaps m with pagetable := pt }, g))
      (·.1.pagetable.GapFrom b) := by
    refine .ite (fun hvalid => ?_) fun _ => .ok hgap
    rw [hv] at hvalid ⊢
    have hcur := (hl.ok m hm hvalid).le_cur
    have htop := hl.cur_top
    refine .forUpto (fun _ (t : Proc × Glob) => t.1.pagetable.GapFrom b) hgap fun n hn t hu => ?_
    rw [lt_pagesThrough] at hn
    refine (exitPage_safe hm ?_).meets.mono fun t' hk =>
      (exitPage_turn hk).gap hslot hu
    unfold pgSize
    omega
  exact ⟨hpages.1, fun t' hturn => ⟨(exitVma_frame hturn).1, hpages.2 t' hturn⟩⟩

theorem exitSelf_apart {status : Int} (hl : Layout p) (h : p.Apart) :
    Meets tablePanics (exitSelf p g status) (·.1.Apart) := by
  refine .bind (Avoids.meets (.each fun fd t => ?_)) fun s hs => ?_
  · unfold exitFd
    split
    · exact .ok _
    · exact (fileclose_safe _ _).bind fun _ _ => .ok _
  obtain ⟨p1, g1⟩ := s
  have hfd := exitFds_frame hs
  dsimp only at hfd ⊢
  subst hfd
  split
  · exact .error (by decide)
  refine (exitVmas_apart (hl.congr rfl rfl) h.gap).bind fun t ht => .ok ?_
  obtain ⟨⟨pt, hq⟩, hgap⟩ := ht
  refine ⟨?_, ?_⟩
  · rw [hq]
    exact h.small
  · rw [hq] at hgap ⊢
    exact hgap

-- == fork

theorem allocproc_safe (h : ∀ j, (k.proc j).sz ≤ mmapBase) : Avoids tablePanics (allocproc k) := by
  unfold allocproc
  split
  · exact .ok _
  · next j _ =>
    dsimp only
    split
    · refine .bind (freeproc_safe ?_) fun _ _ => .ok _
      exact h j
    refine (procPagetable_gap _ _).1.bind fun s _ => ?_
    split
    · refine .bind (freeproc_safe ?_) fun _ _ => .ok _
      exact h j
    · exact .ok _

theorem forkRest_safe (p np : Proc) (g : Glob) (i : Nat) :
    Avoids tablePanics (forkRest p np g i) := by
  refine .bind (.each fun n u => ?_) fun s _ =>
    .bind (.each fun n u => ?_) fun t _ => ?_
  · unfold forkVma
    split
    · split
      · exact .ok _
      · exact (filedupOpt_safe _ _).bind fun _ _ => .ok _
    · exact .ok _
  · unfold forkFd
    split
    · exact .ok _
    · exact (filedup_safe _ _).bind fun _ _ => .ok _
  · cases p.cwd with
    | none => exact Avoids.error (by decide)
    | some c => exact .ok _

theorem kfork_safe (h : ∀ j, (k.proc j).Apart) (i : Nat) : Avoids tablePanics (kfork k i) := by
  refine (allocproc_safe fun j => (h j).small).bind fun s hs => ?_
  obtain ⟨o, k1⟩ := s
  cases o with
  | none => exact .ok _
  | some j =>
    obtain ⟨_, _, tf, ph1, pt, ph, _, hpt, rfl⟩ := allocproc_some hs
    simp only [Kernel.put_self]
    refine (uvmcopy_gap (h i).small ((procPagetable_gap _ _).2 _ hpt _ rfl)).1.bind fun t _ => ?_
    split
    · exact (forkRest_safe _ _ _ _).bind fun _ _ => .ok _
    · refine .bind (freeproc_safe ?_) fun _ _ => .ok _
      exact (h j).small

theorem apart_put (h : ∀ j, (k.proc j).Apart) (hp : p.Apart) :
    ∀ j, ((k.put i (p, g)).proc j).Apart := by
  intro j
  by_cases hj : j = i
  · rw [hj, Kernel.put_self]
    exact hp
  · rw [Kernel.put_of_ne _ _ hj]
    exact h j

theorem freed_apart (p : Proc) : p.freed.Apart := ⟨Nat.zero_le _, gapFrom_empty _ _⟩

theorem kfork_apart {o : Option Nat} (h : ∀ j, (k.proc j).Apart)
    (hf : kfork k i = .ok (o, k')) : ∀ j, (k'.proc j).Apart := by
  have htick : ∀ j, (k.tick.proc j).Apart := h
  cases o with
  | none =>
    rcases kfork_none hf with rfl | ⟨c, _, _, tf, pt, ph, rfl⟩
    · exact h
    · exact apart_put htick (freed_apart _)
  | some c =>
    obtain ⟨_, _, tf, ph1, pt0, ph0, pt, ph, ⟨p, g⟩, _, hpt, hcopy, hrest, rfl⟩ := kfork_some hf
    refine apart_put htick ?_
    obtain ⟨ofile, hp⟩ := forkRest_frame (fun _ => rfl) hrest
    rw [hp]
    exact ⟨(h i).small, (uvmcopy_gap (h i).small
      ((procPagetable_gap _ _).2 _ hpt _ rfl)).2 _ hcopy rfl⟩

-- == wait

theorem kwait_apart (hl : Layout (k.proc i)) (h : ∀ j, (k.proc j).Apart) :
    Meets tablePanics (kwait k i addr) fun r => ∀ j, (r.2.proc j).Apart := by
  unfold kwait
  split
  · exact .ite (fun _ => .ok h) fun _ => .ok h
  · next c _ =>
    refine .bind (.ite (fun _ => .ok (h i)) fun _ => copyout_apart hl (h i))
      fun s hs => .ite (fun _ => ?_) fun _ => .ok (apart_put h hs)
    refine (freeproc_safe (h c).small).meets.bind fun q hfree => .ok ?_
    rw [freeproc_freed hfree]
    exact apart_put (apart_put h hs) (freed_apart _)

-- == runs

/-- The condition on a step: sys_sbrk grows the heap to MMAPBASE at most,
and sys_mmap fits. -/
def HeapFits (k : Kernel) (i : Nat) : Op → Prop
  | .sbrk n _ => (k.proc i).Grows n.toInt
  | .mmap _ len _ _ _ offset => MmapFits (k.proc i) len.toInt offset.toNat
  | .fault _ _ | .fork | .exit _ | .wait _ => True
  | _ => False

theorem HeapFits.keepsLayout (h : HeapFits k i op) : KeepsLayout k i op := by
  cases op with
  | mmap => exact h
  | munmap => exact h.elim
  | _ => trivial

theorem step_apart (hl : LaidOut k) (h : ∀ j, (k.proc j).Apart)
    (hlive : (k.proc i).isLive = true) (hc : HeapFits k i op) :
    Meets tablePanics (step k i op) fun k' => ∀ j, (k'.proc j).Apart := by
  have hlay := hl i (used_of_live hlive)
  cases op with
  | sbrk => exact (sysSbrk_apart (h i) hc).bind fun _ hp => .ok (apart_put h hp)
  | mmap =>
    refine sysMmap_safe.meets.bind fun r hm => .ok (apart_put h ?_)
    rcases sysMmap_cases hm with
      ⟨hp, _⟩ | ⟨f, s, _, _, _, _, _, _, _, _, hp⟩ <;> rw [hp]
    · exact h i
    · exact (h i).congr rfl rfl
  | fault =>
    exact (vmfault_safe hlay (h i)).meets.bind fun _ hf =>
      .ok (apart_put h (vmfault_apart (h i) hf))
  | fork =>
    exact (kfork_safe h i).meets.bind fun _ hf => .ok (kfork_apart h hf)
  | wait => exact (kwait_apart hlay h).bind fun _ hk => .ok hk
  | exit status =>
    have hre : ∀ j, ((reparent k i).proc j).Apart := by
      intro j
      obtain ⟨parent, heq⟩ := reparent_proc k i j
      rw [heq]
      exact (h j).congr rfl rfl
    refine .ite (fun _ => .error (by decide)) fun _ =>
      (exitSelf_apart ?_ (hre i)).bind fun _ hp => .ok (apart_put hre hp)
    obtain ⟨parent, heq⟩ := reparent_proc k i i
    rw [heq]
    exact hlay.congr rfl rfl
  | _ => exact hc.elim

/-- From fresh processes, in every run whose sys_sbrks end below MMAPBASE
and whose sys_mmaps fit: every heap ends below TRAPFRAME and below every
mapping, and no further such call panics with "walk" or "remap". -/
theorem heap_apart_of_runs {k₀ k : Kernel} (h0 : FreshMaps k₀)
    (hstart : ∀ j, (k₀.proc j).Apart) (hr : Runs HeapFits k₀ k) :
    (∀ i, (k.proc i).state ≠ .unused → (k.proc i).sz ≤ trapframe
      ∧ ∀ s, s < nvma → ((k.proc i).vma s).valid = true →
        (k.proc i).sz ≤ ((k.proc i).vma s).start)
    ∧ ∀ i op, (k.proc i).isLive = true → HeapFits k i op →
      step k i op ≠ .error .walk ∧ step k i op ≠ .error .remap := by
  have hinv : LaidOut k ∧ ∀ j, (k.proc j).Apart := by
    refine hr.inv (fun k => LaidOut k ∧ ∀ j, (k.proc j).Apart)
      ⟨fun j hj => layout_fresh (h0 j hj).1 (h0 j hj).2, hstart⟩ ?_
    rintro k k' i op _ hl hc ⟨hlaid, hap⟩ hs
    exact ⟨step_layout hlaid hl hc.keepsLayout hs,
      (step_apart hlaid hap hl hc).2 _ hs⟩
  obtain ⟨hlaid, hap⟩ := hinv
  refine ⟨fun i hi => ⟨?_, fun s hs hv => ?_⟩, fun i op hl hc => ?_⟩
  · exact (hap i).small.trans (by decide)
  · exact (hap i).small.trans ((hlaid i hi).ok s hs hv).base
  · have hsafe := (step_apart hlaid hap hl hc).1
    exact ⟨fun he => hsafe _ he (by decide), fun he => hsafe _ he (by decide)⟩

theorem boot_apart (j : Nat) : (bootKernel.proc j).Apart := by
  have hboot : ∀ base, (bootTable base).GapFrom 0 := by
    intro base n e he
    have hleaf : (bootTable base).leaf n = some e := by
      unfold PageTable.entry at he
      split at he
      · exact he
      · cases he
    right
    rcases bootTable_leaf hleaf with ⟨rfl, _⟩ | ⟨rfl, _⟩ <;> decide
  match j with
  | 0 => exact ⟨by decide, hboot _⟩
  | 1 => exact ⟨by decide, hboot _⟩
  | _ + 2 => exact ⟨Nat.zero_le _, gapFrom_empty _ _⟩

set_option maxRecDepth 10000

/-- The heap grows by a page, a file is mapped, the process forks and the
child faults its heap page in: its exit does not meet either panic. -/
theorem heap_apart_of_runs_boot : ∃ k, Runs HeapFits bootKernel k
    ∧ (k.proc 2).sz = 4096 ∧ ((k.proc 2).vma 0).valid = true
    ∧ (k.proc 2).sz ≤ ((k.proc 2).vma 0).start
    ∧ step k 2 (.exit 0) ≠ .error .walk := by
  have hgrow : HeapFits bootKernel 1 (.sbrk 4096 false) := fun _ => by decide
  have hr₁ : Runs HeapFits bootKernel _ := Runs.step .refl 1 (.sbrk 4096 false)
    (by decide) rfl hgrow rfl
  have hr₂ := hr₁.step 1 (.mmap 0 4096 3 1 0 0) (by decide) rfl
    (.inl (by decide)) rfl
  have hr₃ := hr₂.step 1 .fork (by decide) rfl trivial rfl
  have hr := hr₃.step 2 (.fault 0 true) (by decide) rfl trivial rfl
  obtain ⟨hheap, hsafe⟩ := heap_apart_of_runs boot_fresh boot_apart hr
  exact ⟨_, hr, rfl, rfl, (hheap 2 (by decide)).2 0 (by decide) rfl,
    (hsafe 2 (.exit 0) rfl trivial).1⟩

/-- Lazy growth, as often as 64 bits allow. -/
theorem sbrk_runs {n : Int32} (hi : i < nproc) (hl : (k.proc i).isLive = true)
    (hn : 0 ≤ n.toInt) (m : Nat) (hm : (k.proc i).sz + m * n.toInt < 2 ^ 64) :
    ∃ k', Runs (fun _ _ _ => True) k k' ∧ k'.proc i
      = { k.proc i with sz := ((k.proc i).sz + m * n.toInt).toNat } := by
  induction m with
  | zero => exact ⟨k, .refl, by simp⟩
  | succ m ih =>
    have hmul : ((m + 1 : Nat) : Int) * n.toInt = m * n.toInt + n.toInt := by
      rw [Int.natCast_succ, Int.add_mul, Int.one_mul]
    have hnonneg : 0 ≤ (m : Int) * n.toInt := Int.mul_nonneg (by omega) hn
    rw [hmul] at hm ⊢
    obtain ⟨k1, hr, hp⟩ := ih (by omega)
    have hsz : (k1.proc i).sz = ((k.proc i).sz + m * n.toInt).toNat := by
      rw [hp]
    have hu : u64 ((k1.proc i).sz + n.toInt) = ((k.proc i).sz + (m * n.toInt + n.toInt)).toNat :=
      u64_of_lt (by omega) (by omega)
    have hs : sysSbrk (k1.proc i) k1.glob n.toInt false
        = .ok ((k1.proc i).sz, { k1.proc i with
            sz := ((k.proc i).sz + (m * n.toInt + n.toInt)).toNat },
          k1.glob) := by
      unfold sysSbrk
      rw [if_neg (by simpa using hn), hu, if_neg (by omega)]
    refine ⟨_, hr.step i (.sbrk n false) hi (by rw [hp]; exact hl) trivial
      (by simp only [step, Kernel.local, hs]; rfl), ?_⟩
    rw [Kernel.put_self, hp]

theorem vmfault_past_maxVa (hcur : p.curVmaStart < va) (hva : maxVa ≤ va)
    (hsz : va < p.sz) : vmfault p g va read = .error .walk := by
  have hdown : maxVa ≤ pgRoundDown va := by
    unfold maxVa at *
    unfold pgRoundDown pgSize
    omega
  unfold vmfault
  rw [if_neg (by omega), if_neg (by omega)]
  simp only [ismapped, walkValid, walk, if_pos hdown]
  rfl

/-- Growth to MMAPBASE and one page more, with a mapping there: the heap
overlaps the mapping, and grown eagerly over its resident page it panics
with "remap". After 129 growths a fault at MAXVA panics with "walk". -/
theorem sbrk_leaves_room :
    (∃ k, Runs (fun _ _ _ => True) bootKernel k
      ∧ ((k.proc 1).vma 0).valid = true
      ∧ ((k.proc 1).vma 0).start < (k.proc 1).sz)
    ∧ (∃ k, Runs (fun _ _ _ => True) bootKernel k
      ∧ step k 1 (.sbrk 4096 true) = .error .remap)
    ∧ ∃ k, Runs (fun _ _ _ => True) bootKernel k
      ∧ step k 1 (.fault 0x4000000000 true) = .error .walk := by
  have hmap := (Runs.step .refl 1 (.sbrk 0x40000000 false) (by decide) rfl
    trivial rfl : Runs (fun _ _ _ => True) bootKernel _).step 1
    (.mmap 0 4096 3 2 0 0) (by decide) rfl trivial rfl
  have hover := hmap.step 1 (.sbrk 4096 false) (by decide) rfl trivial rfl
  have hres := hmap.step 1 (.fault 0x40000000 true) (by decide) rfl trivial rfl
  refine ⟨⟨_, hover, rfl, by decide⟩, ⟨_, hres, rfl⟩, ?_⟩
  obtain ⟨k, hr, hp⟩ := sbrk_runs (k := bootKernel) (i := 1) (n := 0x7fffffff)
    (by decide) rfl (by decide) 129 (by decide)
  refine ⟨k, hr, ?_⟩
  have hf : vmfault (k.proc 1) k.glob 0x4000000000 true = .error .walk := by
    rw [hp]
    exact vmfault_past_maxVa (by decide) (by decide) (by decide)
  show k.local 1 (fun p g => vmfault p g 0x4000000000 true) = _
  simp only [Kernel.local, hf]
  rfl

end Xv6Labs.Model
