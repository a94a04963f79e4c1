/-
The calls on mappings and processes, inverted: one lemma per call says what
a finished call did, and every invariant over runs starts from these.
-/
import Xv6Labs.Proofs.Calls
import Xv6Labs.Proofs.Fork

namespace Xv6Labs.Model

open Lib

variable {p p' : Proc} {g g' : Glob} {addr hi i lo n : Nat} {v : Vma}
  {s s' : Proc × Glob} {k k' : Kernel}

variable {a b f m r : Nat} {fd len status : Int} {c : Nat → Int}
  {pt : PageTable}

-- == sys_mmap

/-- A finished sys_mmap refused, or took a slot and moved the bump
pointer. -/
theorem sysMmap_cases {offset : Nat} {prot flags : UInt32}
    (h : sysMmap p g addr len prot flags fd offset = .ok (r, p', g')) :
    (p' = p ∧ g' = g ∧ r = minusOne) ∨ ∃ f i,
      len ≠ 0 ∧ offset % pgSize = 0 ∧ ofileAt p fd = .ok f
        ∧ mmapMode g f prot flags = .ok true ∧ mmapEnd p len < mmapTop
        ∧ freeSlot p = some i ∧ filedupOpt g f = .ok g' ∧ r = p.curVmaStart
        ∧ p' = { p.setVma i (newVma p len prot flags fd f) with
            curVmaStart := mmapEnd p len } := by
  simp only [sysMmap] at h
  split at h
  · cases h
    exact .inl ⟨rfl, rfl, rfl⟩
  · next hargs =>
    obtain ⟨f, hf, h⟩ := bind_ok h
    obtain ⟨mode, hmode, h⟩ := bind_ok h
    cases mode with
    | false =>
      cases h
      exact .inl ⟨rfl, rfl, rfl⟩
    | true =>
      simp only [Bool.true_eq_false, if_false] at h
      split at h
      · cases h
        exact .inl ⟨rfl, rfl, rfl⟩
      split at h
      · cases h
        exact .inl ⟨rfl, rfl, rfl⟩
      · next i hi =>
        obtain ⟨g1, hg1, h⟩ := bind_ok h
        cases h
        refine .inr ⟨f, i, ?_, ?_, hf, hmode, by omega, hi, hg1, rfl, rfl⟩
        · intro h0
          exact hargs (.inl h0)
        · by_contra hoff
          exact hargs (.inr hoff)

theorem freeSlot_some (h : freeSlot p = some i) : i < nvma ∧ (p.vma i).valid = false := by
  have h := List.find?_range_eq_some.mp h
  rw [List.mem_range] at h
  exact ⟨h.2.1, of_decide_eq_true h.1⟩

-- == sys_munmap

/-- One turn of an unmap loop, of sys_munmap or of kexit: nothing is
mapped at `a`; or `a` is in a shared mapping, its reference is dropped and
its PTE cleared; or the page at `b` is unmapped and freed. In sys_munmap
`b` is `a`; in kexit it is the number of the mapping slot. -/
def PageTurn (v : Vma) (a b : Nat) (s s' : Proc × Glob) : Prop :=
  (walkValid s.1.pagetable a = .ok none ∧ s' = s)
  ∨ ∃ e, walkValid s.1.pagetable a = .ok (some e)
    ∧ ((v.isShared = true ∧ ∃ g pt ph,
          s.2.sharedDecref (s.2.vmaIp v) (v.fileOff a) = .ok g
            ∧ uvmunmap s.1.pagetable g.phys a 1 false = .ok (pt, ph)
            ∧ s' = ({ s.1 with pagetable := pt }, { g with phys := ph }))
      ∨ (v.isShared = false ∧ ∃ pt ph,
          uvmunmap s.1.pagetable s.2.phys b 1 true = .ok (pt, ph)
            ∧ s' = ({ s.1 with pagetable := pt }, { s.2 with phys := ph })))

theorem PageTurn.frame (h : PageTurn v a b s s') : OnlyTable s.1 s'.1 ∧ Quiet s.2 s'.2 := by
  rcases h with ⟨_, rfl⟩ | ⟨e, _, ⟨_, g, pt, ph, hd, hu, rfl⟩ | ⟨_, pt, ph, hu, rfl⟩⟩
  · exact ⟨.refl _, .refl _⟩
  · exact ⟨⟨pt, rfl⟩, (sharedDecref_quiet _ hd).phys (uvmunmap_keeps _ hu)⟩
  · exact ⟨⟨pt, rfl⟩, .memory _ _ (uvmunmap_keeps _ hu)⟩

theorem PageTurn.of_run
    (h : (walkValid s.1.pagetable a >>= fun
      | none => pure s
      | some _ =>
        if v.isShared then do
          let g ← s.2.sharedDecref (s.2.vmaIp v) (v.fileOff a)
          let (pt, ph) ← uvmunmap s.1.pagetable g.phys a 1 false
          pure ({ s.1 with pagetable := pt }, { g with phys := ph })
        else do
          let (pt, ph) ← uvmunmap s.1.pagetable s.2.phys b 1 true
          pure ({ s.1 with pagetable := pt }, { s.2 with phys := ph }))
      = .ok s') : PageTurn v a b s s' := by
  obtain ⟨o, ho, h⟩ := bind_ok h
  cases o with
  | none =>
    cases h
    exact .inl ⟨ho, rfl⟩
  | some e =>
    refine .inr ⟨e, ho, ?_⟩
    dsimp only at h
    split at h
    · next hs =>
      obtain ⟨g1, h1, h⟩ := bind_ok h
      obtain ⟨⟨pt, ph⟩, hu, h⟩ := bind_ok h
      cases h
      exact .inl ⟨hs, g1, pt, ph, h1, hu, rfl⟩
    · next hs =>
      obtain ⟨⟨pt, ph⟩, hu, h⟩ := bind_ok h
      cases h
      exact .inr ⟨Bool.not_eq_true _ ▸ hs, pt, ph, hu, rfl⟩

theorem munmapPage_turn (h : munmapPage v lo n s = .ok s') :
    PageTurn v (lo + n * pgSize) (lo + n * pgSize) s s' := .of_run h

theorem munmapPages_frame (h : forUpto (munmapPage v lo) n s = .ok s') :
    OnlyTable s.1 s'.1 ∧ Quiet s.2 s'.2 :=
  forUpto_inv (fun _ t => OnlyTable s.1 t.1 ∧ Quiet s.2 t.2) ⟨.refl s.1, .refl s.2⟩
    (fun _ _ _ _ hP hk =>
      have hf := (munmapPage_turn hk).frame
      ⟨hP.1.trans hf.1, hP.2.trans hf.2⟩) h

theorem writeBackPage_covers {ip : Option Nat} {o : Glob ⊕ Glob} (hc : Covers g c)
    (h : writeBackPage p v ip hi lo n g = .ok o) :
    Covers (o.elim id id) c ∧ FsStep c g (o.elim id id) := by
  obtain ⟨o1, _, h⟩ := bind_ok h
  cases o1 with
  | none =>
    cases h
    exact ⟨hc, .refl c g⟩
  | some e =>
    cases ip with
    | none => cases h
    | some ip =>
      dsimp only at h
      split at h
      · cases h
        exact ⟨hc, .refl c g⟩
      obtain ⟨g1, h1, h⟩ := bind_ok h
      cases h
      obtain ⟨hc1, hs1⟩ := ilock_covers hc h1
      obtain ⟨hc2, hs2⟩ := writei_covers ip _ _ _ 0 hc1
      exact ⟨hc2, hs1.trans hs2⟩

/-- Write-back changes the disk and takes no references. -/
theorem writeBack_covers (hc : Covers g c)
    (h : writeBack p g v lo hi = .ok g') : Covers g' c ∧ FsStep c g g' := by
  simp only [writeBack] at h
  split at h
  · obtain ⟨o, ho, h⟩ := bind_ok h
    have hloop := Ensures.forRet (fun _ t => Covers t c ∧ FsStep c g t)
      (fun t => Covers t c ∧ FsStep c g t) ⟨hc, .refl c g⟩
      (fun _ _ t hP o hk => by
        have hf := writeBackPage_covers hP.1 hk
        cases o <;> exact ⟨hf.1, hP.2.trans hf.2⟩) o ho
    cases o <;> cases h <;> exact hloop
  · cases h
    exact ⟨hc, .refl c g⟩

/-- A finished sys_munmap found no mapping, or wrote back, unmapped the
pages, closed the file of a mapping that goes whole, and shrank it. -/
theorem sysMunmap_cases (h : sysMunmap p g addr len = .ok (r, p', g')) :
    (p' = p ∧ g' = g ∧ r = minusOne) ∨ ∃ i p1 g1 g2,
      len ≠ 0 ∧ vmaHolding p addr (u64 (addr + len)) = some i
        ∧ writeBack p g (p.vma i) addr (u64 (addr + len)) = .ok g1
        ∧ forUpto (munmapPage (p.vma i) addr)
            (pagesThrough addr (u64 (addr + len))) (p, g1) = .ok (p1, g2)
        ∧ closeWhole g2 (p.vma i) addr (u64 (addr + len)) = .ok g'
        ∧ p' = p1.setVma i (shrink (p.vma i) addr (u64 (addr + len))) := by
  simp only [sysMunmap] at h
  split at h
  · cases h
    exact .inl ⟨rfl, rfl, rfl⟩
  · next hlen =>
    split at h
    · cases h
      exact .inl ⟨rfl, rfl, rfl⟩
    · next i hi =>
      obtain ⟨g1, h1, h⟩ := bind_ok h
      obtain ⟨⟨p1, g2⟩, h2, h⟩ := bind_ok h
      obtain ⟨g3, h3, h⟩ := bind_ok h
      cases h
      exact .inr ⟨i, p1, g1, g2, hlen, hi, h1, h2, h3, rfl⟩

theorem vmaHolding_some (h : vmaHolding p lo hi = some i) :
    i < nvma ∧ (p.vma i).valid = true ∧ (p.vma i).start ≤ lo ∧ hi ≤ (p.vma i).stop := by
  have h := List.find?_range_eq_some.mp h
  rw [List.mem_range] at h
  exact ⟨h.2.1, of_decide_eq_true h.1⟩

-- == kexit

theorem exitPage_turn {slot : Nat} (h : exitPage v slot n s = .ok s') :
    PageTurn v (v.start + n * pgSize) slot s s' := .of_run h

/-- The process with the valid flags below `n` cleared. -/
def Proc.dropMaps (p : Proc) (n : Nat) : Proc :=
  { p with vma := fun i =>
      if i < n then { p.vma i with valid := false } else p.vma i }

theorem dropMaps_succ (p : Proc) (m : Nat) (pt : PageTable) :
    ({ p.dropMaps m with pagetable := pt } : Proc).setVma m
        { p.vma m with valid := false }
      = { p.dropMaps (m + 1) with pagetable := pt } := by
  simp only [Proc.dropMaps, Proc.setVma]
  congr 1
  funext i
  rcases Nat.lt_trichotomy i m with hlt | rfl | hgt
  · simp [hlt, Nat.lt_succ_of_lt hlt, Nat.ne_of_lt hlt]
  · simp
  · simp [Nat.not_lt.mpr hgt.le, Nat.ne_of_gt hgt, Nat.not_lt.mpr (Nat.succ_le_of_lt hgt)]

/-- One turn of kexit's loop over the slots: the flag is cleared, and the
pages of a mapping that was valid are looped over. -/
theorem exitVma_cases (h : exitVma m ({ p.dropMaps m with pagetable := pt }, g) = .ok s) :
    ((p.vma m).valid = false ∧ s = ({ p.dropMaps (m + 1) with pagetable := pt }, g))
    ∨ ((p.vma m).valid = true ∧ forUpto (exitPage (p.vma m) m)
        (pagesThrough (p.vma m).start (p.vma m).stop)
        ({ p.dropMaps (m + 1) with pagetable := pt }, g) = .ok s) := by
  have hm : ({ p.dropMaps m with pagetable := pt } : Proc).vma m = p.vma m := by
    simp [Proc.dropMaps]
  simp only [exitVma] at h
  rw [hm] at h
  split at h
  · next hv =>
    rw [dropMaps_succ] at h
    exact .inr ⟨hv, h⟩
  · next hv =>
    cases h
    rw [Bool.not_eq_true] at hv
    refine .inl ⟨hv, ?_⟩
    rw [← dropMaps_succ]
    simp only [Proc.setVma, Prod.mk.injEq, and_true]
    congr 1
    funext i
    split
    · next hi =>
      subst hi
      rw [hm, ← hv]
    · rfl

theorem exitVma_frame (h : exitVma m ({ p.dropMaps m with pagetable := pt }, g) = .ok s) :
    OnlyTable (p.dropMaps (m + 1)) s.1 ∧ Quiet g s.2 := by
  rcases exitVma_cases h with ⟨_, rfl⟩ | ⟨_, hloop⟩
  · exact ⟨⟨pt, rfl⟩, .refl g⟩
  exact forUpto_inv (fun _ u => OnlyTable (p.dropMaps (m + 1)) u.1 ∧ Quiet g u.2)
    ⟨⟨pt, rfl⟩, .refl g⟩
    (fun _ _ _ _ hP hk =>
      have hp := (exitPage_turn hk).frame
      ⟨hP.1.trans hp.1, hP.2.trans hp.2⟩) hloop

theorem exitVmas_frame (h : forUpto exitVma n s = .ok s') :
    OnlyTable (s.1.dropMaps n) s'.1 ∧ Quiet s.2 s'.2 := by
  refine forUpto_inv (fun m t => OnlyTable (s.1.dropMaps m) t.1 ∧ Quiet s.2 t.2) ?_ ?_ h
  · exact ⟨⟨s.1.pagetable, by simp [Proc.dropMaps]⟩, .refl s.2⟩
  · rintro m _ ⟨t, gt⟩ t' ⟨⟨pt, rfl⟩, hq⟩ hf
    obtain ⟨hp, hq'⟩ := exitVma_frame hf
    exact ⟨hp, hq.trans hq'⟩

/-- The process with the descriptors below `n` closed. -/
def Proc.dropFds (p : Proc) (n : Nat) : Proc :=
  { p with ofile := fun fd => if fd < n then none else p.ofile fd }

theorem Proc.dropFds_succ (p : Proc) (n : Nat) :
    (p.dropFds n).setOfile n none = p.dropFds (n + 1) := by
  simp only [Proc.dropFds, Proc.setOfile]
  congr 1
  funext fd
  rcases Nat.lt_trichotomy fd n with hlt | rfl | hgt
  · simp [hlt, Nat.lt_succ_of_lt hlt]
  · simp
  · simp [Nat.not_lt.mpr hgt.le, Nat.ne_of_gt hgt, Nat.not_lt.mpr (Nat.succ_le_of_lt hgt)]

theorem Proc.setOfile_of_none {fd : Nat} (h : p.ofile fd = none) : p.setOfile fd none = p := by
  simp only [Proc.setOfile]
  congr 1
  funext j
  split
  · next hj => rw [hj, h]
  · rfl

/-- Descriptors go one by one; nothing else of the process changes. -/
theorem exitFds_frame (h : forUpto exitFd n s = .ok s') : s'.1 = s.1.dropFds n := by
  refine forUpto_inv (fun m t => t.1 = s.1.dropFds m) ?_ ?_ h
  · simp [Proc.dropFds]
  rintro m _ ⟨t, gt⟩ t' rfl hf
  simp only [exitFd] at hf
  split at hf
  · next hnone =>
    cases hf
    rw [← Proc.dropFds_succ, Proc.setOfile_of_none hnone]
  · obtain ⟨g1, _, hf⟩ := bind_ok hf
    cases hf
    exact Proc.dropFds_succ s.1 m

/-- To the shared state the loop does filecloses. -/
theorem exitFds_inv (P : Glob → Prop) (h0 : P s.2)
    (hclose : ∀ t t' f, P t → fileclose t f = .ok t' → P t')
    (h : forUpto exitFd n s = .ok s') : P s'.2 := by
  refine forUpto_inv (fun _ t => P t.2) h0 ?_ h
  intro fd _ t t' hP hf
  simp only [exitFd] at hf
  split at hf
  · cases hf
    exact hP
  · next f _ =>
    obtain ⟨g1, hc, hf⟩ := bind_ok hf
    cases hf
    exact hclose _ _ f hP hc

/-- The stages of kexit: the descriptors, the directory, the mappings. -/
theorem exitSelf_ok (h : exitSelf p g status = .ok (p', g')) :
    ∃ g1 c p2, forUpto exitFd nofile (p, g) = .ok (p.dropFds nofile, g1) ∧ p.cwd = some c
      ∧ forUpto exitVma nvma ({ p.dropFds nofile with cwd := none }, iput g1 c) = .ok (p2, g')
      ∧ p' = { p2 with xstate := status, state := .zombie } := by
  obtain ⟨⟨p1, g1⟩, h1, h⟩ := bind_ok h
  have hfd := exitFds_frame h1
  dsimp only at h hfd
  subst hfd
  split at h
  · cases h
  · next c hc =>
    obtain ⟨⟨p2, g2⟩, h2, h⟩ := bind_ok h
    cases h
    exact ⟨g1, c, p2, h1, hc, h2, rfl⟩

/-- What kexit leaves of the process. -/
theorem exitSelf_frame (h : exitSelf p g status = .ok (p', g')) :
    ∃ pagetable, p' = { (p.dropFds nofile).dropMaps nvma with
      cwd := none, pagetable, xstate := status, state := .zombie } := by
  obtain ⟨g1, c, p2, _, _, h2, rfl⟩ := exitSelf_ok h
  obtain ⟨⟨pt, hpt⟩, _⟩ := exitVmas_frame h2
  subst hpt
  exact ⟨pt, rfl⟩

theorem kexit_ok (h : kexit k i status = .ok k') :
    i ≠ k.initproc ∧ ∃ s,
      exitSelf ((reparent k i).proc i) k.glob status = .ok s ∧ k' = (reparent k i).put i s := by
  simp only [kexit] at h
  split at h
  · cases h
  · next hi =>
    obtain ⟨s, hs, h⟩ := bind_ok h
    cases h
    exact ⟨hi, s, hs, rfl⟩

theorem reparent_proc (k : Kernel) (i j : Nat) :
    ∃ parent, (reparent k i).proc j = { k.proc j with parent } := by
  simp only [reparent]
  split
  · exact ⟨some k.initproc, rfl⟩
  · exact ⟨(k.proc j).parent, rfl⟩

-- == kwait

theorem zombieChild_some {j : Nat} (h : zombieChild k i = some j) :
    j < nproc ∧ (k.proc j).parent = some i ∧ (k.proc j).state = .zombie := by
  have h := List.find?_range_eq_some.mp h
  rw [List.mem_range] at h
  exact ⟨h.2.1, of_decide_eq_true h.1⟩

/-- The status of a child was not asked for, or copied out. -/
def StatusOut (p : Proc) (g : Glob) (addr : Nat) (p' : Proc) (g' : Glob) : Prop :=
  p' = p ∧ g' = g ∨ addr ≠ 0 ∧ ∃ ok src, copyout p g addr src 4 = .ok (ok, p', g')

theorem StatusOut.frame {p p' : Proc} (h : StatusOut p g addr p' g') :
    OnlyTable p p' ∧ Quiet g g' := by
  rcases h with ⟨rfl, rfl⟩ | ⟨_, ok, src, h⟩
  · exact ⟨.refl _, .refl _⟩
  · exact copyout_frame _ h

/-- A finished kwait changed nothing, copied a status out in vain, or
also freed the child. -/
theorem kwait_cases {o : Option (Nat ⊕ Unit)} (h : kwait k i addr = .ok (o, k')) :
    k' = k ∨ ∃ j p g, zombieChild k i = some j ∧ StatusOut (k.proc i) k.glob addr p g
      ∧ (k' = k.put i (p, g) ∨ ∃ q ph,
          freeproc (k.proc j) g.phys = .ok (q, ph)
            ∧ k' = (k.put i (p, g)).put j (q, { g with phys := ph })) := by
  simp only [kwait] at h
  split at h
  · split at h <;> cases h <;> exact .inl rfl
  · next j hj =>
    obtain ⟨⟨ok, p, g⟩, h1, h⟩ := bind_ok h
    have hout : StatusOut (k.proc i) k.glob addr p g := by
      split at h1
      · cases h1
        exact .inl ⟨rfl, rfl⟩
      · next ha => exact .inr ⟨ha, ok, _, h1⟩
    refine .inr ⟨j, p, g, hj, hout, ?_⟩
    cases ok with
    | true =>
      obtain ⟨⟨q, ph⟩, hq, h⟩ := bind_ok h
      cases h
      exact .inr ⟨q, ph, hq, rfl⟩
    | false =>
      cases h
      exact .inl rfl

-- == files

theorem filedup_ok (h : filedup g f = .ok g') :
    1 ≤ (g.ftable f).ref ∧ g' = g.setFile f { g.ftable f with ref := (g.ftable f).ref + 1 } := by
  simp only [filedup] at h
  split at h <;> cases h
  exact ⟨by omega, rfl⟩

theorem filealloc_some (h : filealloc g = some (f, g')) :
    f < nfile ∧ (g.ftable f).ref = 0 ∧ g' = g.setFile f { g.ftable f with ref := 1 } := by
  simp only [filealloc] at h
  split at h <;> cases h
  next hfind =>
  obtain ⟨hz, hlt, _⟩ := List.find?_range_eq_some.mp hfind
  exact ⟨List.mem_range.mp hlt, of_decide_eq_true hz, rfl⟩

theorem pipeclose_cases {pi : Nat} {w : Bool} (h : pipeclose g pi w = .ok g') :
    ∃ pipes, g' = { g with pipes } ∨ ∃ ph, kfree g.phys pi = .ok ph
      ∧ g' = { g with phys := ph, pipes } := by
  simp only [pipeclose] at h
  generalize (if w = true then _ else _ : Pipe) = q at h
  split at h
  · obtain ⟨ph, hk, h⟩ := bind_ok h
    cases h
    exact ⟨_, .inr ⟨ph, hk, rfl⟩⟩
  · cases h
    exact ⟨_, .inl rfl⟩

/-- What a finished fileclose did: it counted down, or it erased the entry
and put its inode, closed its end of the pipe, or had nothing more to do. -/
inductive Closed (g : Glob) (f : Nat) : Glob → Prop where
  | more (href : 1 < (g.ftable f).ref) : Closed g f
      (g.setFile f { g.ftable f with ref := (g.ftable f).ref - 1 })
  | inode {ip : Nat} (href : (g.ftable f).ref = 1)
      (ht : (g.ftable f).type = .inode ∨ (g.ftable f).type = .device)
      (hip : (g.ftable f).ip = some ip) : Closed g f
      (iput (g.setFile f { g.ftable f with ref := 0, type := .none }) ip)
  | pipe {g' : Glob} (href : (g.ftable f).ref = 1)
      (ht : (g.ftable f).type = .pipe)
      (hclose : pipeclose
        (g.setFile f { g.ftable f with ref := 0, type := .none })
        (g.ftable f).pipe (g.ftable f).writable = .ok g') : Closed g f g'
  | none (href : (g.ftable f).ref = 1) (ht : (g.ftable f).type = .none) :
      Closed g f (g.setFile f { g.ftable f with ref := 0, type := .none })

theorem fileclose_closed (h : fileclose g f = .ok g') : Closed g f g' := by
  simp only [fileclose] at h
  split at h
  · cases h
  split at h
  · cases h
    exact .more (by omega)
  have href : (g.ftable f).ref = 1 := by omega
  split at h
  · next ht => exact .pipe href ht h
  · next ht hip =>
    cases h
    exact .inode href (.inl ht) hip
  · next ht hip =>
    cases h
    exact .inode href (.inr ht) hip
  · cases h
  · cases h
  · next ht =>
    cases h
    exact .none href ht

theorem closeWhole_cases (h : closeWhole g v lo hi = .ok g') :
    (¬ (v.start = lo ∧ v.stop = hi) ∧ g' = g)
      ∨ (v.start = lo ∧ v.stop = hi) ∧ ∃ f, v.file = some f ∧ fileclose g f = .ok g' := by
  simp only [closeWhole] at h
  split at h
  · next hwhole =>
    split at h
    · cases h
    · next f hf => exact .inr ⟨hwhole, f, hf, h⟩
  · next hwhole =>
    cases h
    exact .inl ⟨hwhole, rfl⟩

theorem sysDup_cases
    (h : sysDup p g fd = .ok (r, p', g')) : (p' = p ∧ g' = g)
      ∨ ∃ f fd', fdalloc p f = some (fd', p') ∧ filedup g f = .ok g' := by
  simp only [sysDup] at h
  split at h
  · cases h
    exact .inl ⟨rfl, rfl⟩
  · next f _ =>
    split at h
    · cases h
      exact .inl ⟨rfl, rfl⟩
    · next fd' p1 hfd =>
      obtain ⟨g1, hd, h⟩ := bind_ok h
      cases h
      exact .inr ⟨f, _, hfd, hd⟩

theorem sysClose_cases
    (h : sysClose p g fd = .ok (r, p', g')) : (p' = p ∧ g' = g)
      ∨ ∃ f, argfd p fd = some f ∧ fileclose g f = .ok g' ∧ p' = p.setOfile fd.toNat none := by
  simp only [sysClose] at h
  split at h
  · cases h
    exact .inl ⟨rfl, rfl⟩
  · next f hf =>
    obtain ⟨g1, hc, h⟩ := bind_ok h
    cases h
    exact .inr ⟨f, hf, hc, rfl⟩

theorem fdalloc_some {fd : Nat} (h : fdalloc p f = some (fd, p')) :
    fd < nofile ∧ p.ofile fd = none ∧ p' = p.setOfile fd (some f) := by
  simp only [fdalloc] at h
  split at h
  · cases h
  · next a ha =>
    have ha := List.find?_range_eq_some.mp ha
    rw [List.mem_range] at ha
    cases h
    exact ⟨ha.2.1, of_decide_eq_true ha.1, rfl⟩

/-- What a finished sys_open did: it found no inode, or gave the one it
found back, without an entry or after closing it, or it opened it. -/
inductive Opened (p : Proc) (g : Glob) (omode : UInt32) : Proc → Glob → Prop where
  | refused : Opened p g omode p g
  | missing {path : List UInt8} {room : Nat} {g₁ : Glob}
      (ho : openInode g p.cwd path omode room = .ok (none, g₁)) :
      Opened p g omode p g₁
  | unopened {path : List UInt8} {room ip : Nat} {g₁ : Glob}
      (ho : openInode g p.cwd path omode room = .ok (some ip, g₁)) :
      Opened p g omode p (iput g₁ ip)
  | full {path : List UInt8} {room ip f : Nat} {g₁ g₂ g₃ : Glob}
      (ho : openInode g p.cwd path omode room = .ok (some ip, g₁))
      (ha : filealloc g₁ = some (f, g₂)) (hc : fileclose g₂ f = .ok g₃) :
      Opened p g omode p (iput g₃ ip)
  | opened {path : List UInt8} {room ip f fd : Nat} {g₁ g₂ g' : Glob}
      {p' : Proc}
      (ho : openInode g p.cwd path omode room = .ok (some ip, g₁))
      (ha : filealloc g₁ = some (f, g₂)) (hfd : fdalloc p f = some (fd, p'))
      (hg : g' = g₂.setFile f (openFile (g₂.ftable f) (g₁.dinode ip) ip omode)
        ∨ g' = itrunc (g₂.setFile f (openFile (g₂.ftable f) (g₁.dinode ip) ip omode)) ip) :
      Opened p g omode p' g'

theorem sysOpen_opened {path : Option (List UInt8)} {omode : UInt32}
    {room : Nat} (h : sysOpen p g path omode room = .ok (r, p', g')) : Opened p g omode p' g' := by
  simp only [sysOpen] at h
  split at h
  · cases h
    exact .refused
  obtain ⟨⟨o, g1⟩, ho, h⟩ := bind_ok h
  cases o with
  | none =>
    cases h
    exact .missing ho
  | some ip =>
    dsimp only at h
    split at h
    · cases h
      exact .unopened ho
    split at h
    · cases h
      exact .unopened ho
    · next f g2 ha =>
      split at h
      · obtain ⟨g3, hc, h⟩ := bind_ok h
        cases h
        exact .full ho ha hc
      · next fd p1 hfd =>
        cases h
        refine .opened ho ha hfd ?_
        split
        · exact .inr rfl
        · exact .inl rfl

theorem setOfile_back {fd : Nat} (o : Option Nat) (h : p.ofile fd = none) :
    (p.setOfile fd o).setOfile fd none = p := by
  simp only [Proc.setOfile]
  congr 1
  funext j
  split
  · next hj => rw [hj, h]
  · rfl

theorem setOfile_back_both {fd0 fd1 : Nat} (o0 o1 : Option Nat)
    (h0 : p.ofile fd0 = none) (h1 : p.ofile fd1 = none) :
    (((p.setOfile fd0 o0).setOfile fd1 o1).setOfile fd0 none).setOfile fd1 none = p := by
  simp only [Proc.setOfile]
  congr 1
  funext j
  by_cases hj1 : j = fd1
  · rw [if_pos hj1, hj1, h1]
  · by_cases hj0 : j = fd0
    · rw [if_neg hj1, if_pos hj0, hj0, h0]
    · simp only [hj0, hj1, if_false]

/-- What a finished sys_pipe did: it got no pipe, or gave the one it got
back with its descriptors, or it has two descriptors more. Storing them
may have served page faults. -/
inductive Piped (p : Proc) (g : Glob) : Proc → Glob → Prop where
  | refused {g' : Glob} (ha : pipealloc g = .ok (none, g')) : Piped p g p g'
  | undone {rf wf : Nat} {pt : PageTable} {g₁ g₂ g₃ g' : Glob}
      (ha : pipealloc g = .ok (some (rf, wf), g₁)) (hq : Quiet g₁ g₂)
      (hr : fileclose g₂ rf = .ok g₃) (hw : fileclose g₃ wf = .ok g') :
      Piped p g { p with pagetable := pt } g'
  | made {rf wf fd0 fd1 : Nat} {p0 p1 : Proc} {pt : PageTable} {g₁ g' : Glob}
      (ha : pipealloc g = .ok (some (rf, wf), g₁))
      (h0 : fdalloc p rf = some (fd0, p0))
      (h1 : fdalloc p0 wf = some (fd1, p1)) (hq : Quiet g₁ g') :
      Piped p g { p1 with pagetable := pt } g'

theorem sysPipe_piped {fdarray : Nat}
    (h : sysPipe p g fdarray = .ok (r, p', g')) : Piped p g p' g' := by
  obtain ⟨⟨o, g1⟩, ha, h⟩ := bind_ok h
  cases o with
  | none =>
    cases h
    exact .refused ha
  | some fs =>
    have hfail : ∀ {q : Proc} {g2 : Glob} (pt : PageTable), Quiet g1 g2 →
        q = { p with pagetable := pt } →
        pipeFail q g2 fs.1 fs.2 = .ok (r, p', g') → Piped p g p' g' := by
      rintro _ g2 pt hq rfl h
      obtain ⟨g3, hr, h⟩ := bind_ok h
      obtain ⟨g4, hw, h⟩ := bind_ok h
      cases h
      exact .undone ha hq hr hw
    dsimp only at h
    split at h
    · exact hfail p.pagetable (.refl _) rfl h
    · next fd0 p0 h0 =>
      obtain ⟨_, hnone0, rfl⟩ := fdalloc_some h0
      split at h
      · exact hfail p.pagetable (.refl _) (setOfile_back _ hnone0) h
      · next fd1 p1 h1 =>
        obtain ⟨⟨ok2, p2, g2⟩, h2, h⟩ := bind_ok h
        obtain ⟨⟨ok3, p3, g3⟩, h3, h⟩ := bind_ok h
        have hframe : OnlyTable p1 p3 ∧ Quiet g1 g3 := by
          have hc := copyout_frame _ h2
          cases ok2 with
          | true =>
            have hc' := copyout_frame _ h3
            exact ⟨hc.1.trans hc'.1, hc.2.trans hc'.2⟩
          | false =>
            cases h3
            exact hc
        obtain ⟨⟨pt, rfl⟩, hq⟩ := hframe
        obtain ⟨_, hnone1, rfl⟩ := fdalloc_some h1
        cases ok3 with
        | true =>
          cases h
          exact .made ha h0 h1 hq
        | false =>
          have hfree : p.ofile fd1 = none := by
            simp only [Proc.setOfile] at hnone1
            split at hnone1
            · cases hnone1
            · exact hnone1
          exact hfail pt hq (setOfile_back_both _ _ hnone0 hfree) h

-- == one step

/-- What a step did: the call that finished, and where its results went. -/
inductive Did (k : Kernel) (i : Nat) : Op → Kernel → Prop where
  | mmap {addr offset : UInt64} {len fd : Int32} {prot flags : UInt32}
      {r : Nat} {p : Proc} {g : Glob}
      (h : sysMmap (k.proc i) k.glob addr.toNat len.toInt prot flags fd.toInt
        offset.toNat = .ok (r, p, g)) :
      Did k i (.mmap addr len prot flags fd offset) (k.put i (p, g))
  | munmap {addr : UInt64} {len : Int32} {r : Nat} {p : Proc} {g : Glob}
      (h : sysMunmap (k.proc i) k.glob addr.toNat len.toInt = .ok (r, p, g)) :
      Did k i (.munmap addr len) (k.put i (p, g))
  | fault {va : UInt64} {read : Bool} {r : Nat} {p : Proc} {g : Glob}
      (h : vmfault (k.proc i) k.glob va.toNat read = .ok (r, p, g)) :
      Did k i (.fault va read) (k.put i (p, g))
  | store {va : UInt64} {b : UInt8} {ok : Bool} {p : Proc} {g : Glob}
      (h : userStore (k.proc i) k.glob va.toNat b = .ok (ok, p, g)) :
      Did k i (.store va b) (k.put i (p, g))
  | sbrk {n : Int32} {eager : Bool} {r : Nat} {p : Proc} {g : Glob}
      (h : sysSbrk (k.proc i) k.glob n.toInt eager = .ok (r, p, g)) :
      Did k i (.sbrk n eager) (k.put i (p, g))
  | fork {o : Option Nat} {k' : Kernel} (h : kfork k i = .ok (o, k')) : Did k i .fork k'
  | exec {path : List UInt8} {argv : List (List UInt8)} {r : Int} {p : Proc}
      {g : Glob} (h : kexec (k.proc i) k.glob path argv = .ok (r, p, g)) :
      Did k i (.exec path argv) (k.put i (p, g))
  | exit {status : Int32} {k' : Kernel}
      (h : kexit k i status.toInt = .ok k') : Did k i (.exit status) k'
  | wait {addr : UInt64} {o : Option (Nat ⊕ Unit)} {k' : Kernel}
      (h : kwait k i addr.toNat = .ok (o, k')) : Did k i (.wait addr) k'
  | openFile {path : Option (List UInt8)} {omode : UInt32} {room r : Nat}
      {p : Proc} {g : Glob}
      (h : sysOpen (k.proc i) k.glob path omode room = .ok (r, p, g)) :
      Did k i (.openFile path omode room) (k.put i (p, g))
  | close {fd : Int32} {r : Nat} {p : Proc} {g : Glob}
      (h : sysClose (k.proc i) k.glob fd.toInt = .ok (r, p, g)) :
      Did k i (.close fd) (k.put i (p, g))
  | dup {fd : Int32} {r : Nat} {p : Proc} {g : Glob}
      (h : sysDup (k.proc i) k.glob fd.toInt = .ok (r, p, g)) :
      Did k i (.dup fd) (k.put i (p, g))
  | pipe {fdarray : UInt64} {r : Nat} {p : Proc} {g : Glob}
      (h : sysPipe (k.proc i) k.glob fdarray.toNat = .ok (r, p, g)) :
      Did k i (.pipe fdarray) (k.put i (p, g))
  | unlink {path : Option (List UInt8)} {r : Nat} {p : Proc} {g : Glob}
      (h : sysUnlink (k.proc i) k.glob path = .ok (r, p, g)) :
      Did k i (.unlink path) (k.put i (p, g))

theorem local_ok {α : Type} {f : Proc → Glob → Except Panic (α × Proc × Glob)}
    (h : k.local i f = .ok k') :
    ∃ a p g, f (k.proc i) k.glob = .ok (a, p, g) ∧ k' = k.put i (p, g) := by
  obtain ⟨⟨a, p, g⟩, ha, h⟩ := bind_ok h
  cases h
  exact ⟨a, p, g, ha, rfl⟩

theorem step_did {op : Op} (h : step k i op = .ok k') : Did k i op k' := by
  cases op with
  | fork =>
    obtain ⟨⟨o, k1⟩, hf, h⟩ := bind_ok h
    cases h
    exact .fork hf
  | wait addr =>
    obtain ⟨⟨o, k1⟩, hw, h⟩ := bind_ok h
    cases h
    exact .wait hw
  | exit status => exact .exit h
  | _ =>
    simp only [step] at h
    obtain ⟨a, p, g, hc, rfl⟩ := local_ok h
    constructor
    exact hc

end Xv6Labs.Model
