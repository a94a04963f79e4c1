/-
The registry and the inodes its keys stand for.

An entry counts PTEs, each PTE is in a mapping, the mapping holds its file
and the file the slot. So in a tidy run a slot with an entry keeps its
inode (`registry_pins_inodes`); an entry without a PTE is held by nobody.
-/
import Xv6Labs.Lib.Overlay
import Xv6Labs.Proofs.Pins

namespace Xv6Labs.Model

open Lib Finset

-- == the record

/-- The inode in a slot: device and number. -/
def Glob.inodeId (g : Glob) (ip : Nat) : Nat × Nat := ((g.itable ip).dev, (g.itable ip).inum)

/-- A kernel, and for each key with an entry the inode that its slot held
when the entry was made. The step that makes an entry is a fault, which
leaves the inodes alone. -/
structure OriginRun where
  k : Kernel
  origin : Option Nat → Nat → Option (Nat × Nat)

/-- The record after a step from `k` to `k'`. -/
def originAfter (k k' : Kernel) (origin : Option Nat → Nat → Option (Nat × Nat))
    (ip : Option Nat) (off : Nat) : Option (Nat × Nat) :=
  if (k'.glob.shared.lookup ip off).isSome then
    if (k.glob.shared.lookup ip off).isSome then origin ip off
    else ip.map k'.glob.inodeId
  else none

/-- A step that meets the condition `C`. -/
def OriginStep (C : Kernel → Nat → Op → Prop) (r r' : OriginRun) : Prop :=
  StepIf C r.k r'.k ∧ r'.origin = originAfter r.k r'.k r.origin

/-- A start without entries. -/
def OriginRun.start (k : Kernel) : OriginRun := ⟨k, fun _ _ => none⟩

/-- Every slot with an entry is referenced, and holds the inode it held when
the entry was made. -/
def OriginRun.Pins (r : OriginRun) : Prop :=
  ∀ ip off e, r.k.glob.shared.lookup (some ip) off = some e →
    1 ≤ (r.k.glob.itable ip).ref ∧ r.origin (some ip) off = some (r.k.glob.inodeId ip)

-- == the chain

section

variable {k k' : Kernel} {ip off : Nat} {e : SharedEntry}

/-- The file of a shared page is that of a valid mapping. -/
theorem sharedAt_file {p : Proc} {n f o : Nat} (h : p.sharedAt n = some (f, o)) :
    ∃ s, s < nvma ∧ (p.vma s).valid = true ∧ (p.vma s).file = some f := by
  obtain ⟨s, hs, h⟩ := Option.bind_eq_some_iff.mp h
  obtain ⟨hlt, hv, _⟩ := vmaAt_some hs
  split at h
  next =>
    obtain ⟨f', hf, heq⟩ := Option.map_eq_some_iff.mp h
    cases heq
    exact ⟨s, hlt, hv, hf⟩
  next => cases h

/-- The key of a shared page is the slot of an open file. -/
theorem Tallied.file_of_key {i n : Nat} (h : Tallied k) (hi : i < nproc)
    (hkey : (k.proc i).sharedKey k.glob n = some (some ip, off)) :
    ∃ f, 1 ≤ (k.glob.ftable f).ref ∧ (k.glob.ftable f).ip = some ip := by
  obtain ⟨⟨f, o⟩, hat, heq⟩ := Option.map_eq_some_iff.mp hkey
  obtain ⟨s, hs, hv, hf⟩ := sharedAt_file hat
  obtain ⟨d, hacc⟩ := h.files
  exact ⟨f, hacc.mapped hi hs hv hf, congrArg Prod.fst heq⟩

/-- An entry has a PTE, in a mapping of a file on its slot. -/
theorem Tallied.file_of_entry (h : Tallied k) (he : k.glob.shared.lookup (some ip) off = some e) :
    ∃ f, 1 ≤ (k.glob.ftable f).ref ∧ (k.glob.ftable f).ip = some ip := by
  have hpos := (h.accounts.entry (some ip) off).mp (by rw [he]; rfl)
  obtain ⟨i, hi, hpos⟩ := exists_row_pos hpos
  obtain ⟨n, _, hpos⟩ := exists_row_pos hpos
  have hkey : (k.proc i).keyAt k.glob n = some (some ip, off) := by
    by_contra hne
    unfold keyHits at hpos
    rw [if_neg hne] at hpos
    exact Nat.lt_irrefl 0 hpos
  unfold Proc.keyAt at hkey
  split at hkey
  next => exact h.file_of_key hi hkey
  next => cases hkey

/-- An open file holds its slot. -/
theorem Pinned.pins_pos {x : Nat → Int} {g : Glob} {f : Nat} (h : Pinned x g)
    (hx : 0 ≤ x ip) (href : 1 ≤ (g.ftable f).ref)
    (hip : (g.ftable f).ip = some ip) : 0 < g.pins x ip := by
  have hrow := row_le_sum (f := fun f => (g.ftable f).holds ip) (h.inTable f href)
  have hone : (g.ftable f).holds ip = 1 := by
    rw [holds_some (h.typed f href) hip, if_pos rfl]
  unfold Glob.pins
  omega

theorem cwds_nonneg (k : Kernel) (ip : Nat) : 0 ≤ k.cwds ip := Int.natCast_nonneg _

/-- A slot with an entry is pinned. -/
theorem Tallied.pins_of_entry (h : Tallied k) (hp : Pinned k.cwds k.glob)
    (he : k.glob.shared.lookup (some ip) off = some e) : 0 < k.glob.pins k.cwds ip := by
  obtain ⟨f, href, hip⟩ := h.file_of_entry he
  exact hp.pins_pos (cwds_nonneg k ip) href hip

theorem KeepsInodes.inodeId {c : Nat → Int} {g g' : Glob} (h : KeepsInodes c g g') (hc : 0 < c ip) :
    g'.inodeId ip = g.inodeId ip := by
  unfold Glob.inodeId
  rw [(h ip hc).1, (h ip hc).2]

-- == the run

/-- What a tidy run keeps. -/
structure OriginRun.Inv (r : OriginRun) : Prop where
  tallied : Tallied r.k
  pinned : Pinned r.k.cwds r.k.glob
  pins : r.Pins

theorem OriginRun.Inv.step {r r' : OriginRun} (h : r.Inv) (hs : OriginStep Tidy r r') : r'.Inv := by
  obtain ⟨⟨i, op, hi, hl, hc, hok⟩, horigin⟩ := hs
  obtain ⟨ht', _⟩ := step_tallied h.tallied hi hl hc hok
  obtain ⟨hp', hkeep⟩ := step_pinned h.pinned h.tallied.pipes hi hl hc hok
  refine ⟨ht', hp', ?_⟩
  intro ip off e he
  have hpos := ht'.pins_of_entry hp' he
  refine ⟨by have hcov := hp'.covers ip; omega, ?_⟩
  rw [horigin]
  unfold originAfter
  rw [he, if_pos Option.isSome_some]
  cases hold : r.k.glob.shared.lookup (some ip) off with
  | none => rfl
  | some e0 =>
    rw [if_pos Option.isSome_some, (h.pins ip off e0 hold).2,
      hkeep.inodeId (h.tallied.pins_of_entry h.pinned hold)]

theorem OriginRun.inv_of_reaches {k0 : Kernel} {r : OriginRun}
    (h0 : FreshBooks k0) (hp : Pinned k0.cwds k0.glob)
    (hr : Reaches (OriginStep Tidy) (OriginRun.start k0) r) : r.Inv := by
  refine hr.inv ⟨h0.tallied, hp, ?_⟩ fun _ _ h hs => h.step hs
  intro ip off e he
  have hnone := h0.lookup (some ip) off
  rw [show k0.glob.shared.lookup (some ip) off = some e from he] at hnone
  cases hnone

/-- The page that a fault maps in a shared mapping of file `f` is that of an
entry of the file's slot, which was made for the inode the file is on. -/
def OriginRun.FaultsOwn (r : OriginRun) : Prop :=
  ∀ (r' : OriginRun) (i : Nat) (va : UInt64) (read : Bool), i < nproc →
    (r.k.proc i).isLive = true →
    Model.step r.k i (.fault va read) = .ok r'.k →
    r'.origin = originAfter r.k r'.k r.origin →
    ∀ n e f off ip, (r'.k.proc i).pagetable.leaf n = some e →
      (r.k.proc i).pagetable.leaf n ≠ some e →
      (r'.k.proc i).sharedAt n = some (f, off) →
      (r'.k.glob.ftable f).ip = some ip →
      r'.k.glob.inodeId ip = r.k.glob.inodeId ip ∧
        ∃ s, r'.k.glob.shared.lookup (some ip) off = some s ∧ s.pa = e.pa ∧
          r'.origin (some ip) off = some (r.k.glob.inodeId ip)

theorem OriginRun.Inv.faultsOwn {r : OriginRun} (h : r.Inv) : r.FaultsOwn := by
  intro r' i va read hi hl hs horigin n e f off ip hleaf hnew hat hip
  have htidy : Tidy r.k i (.fault va read) := trivial
  have hstep : OriginStep Tidy r r' := ⟨⟨i, _, hi, hl, htidy, hs⟩, horigin⟩
  have h' := h.step hstep
  obtain ⟨_, hstepped⟩ := step_tallied h.tallied hi hl htidy hs
  have hsame : r'.k.glob.inodeId ip = r.k.glob.inodeId ip := by
    obtain ⟨⟨_, p, g⟩, hm, heq⟩ := bind_ok hs
    obtain ⟨_, hq⟩ := vmfault_frame _ hm
    cases r' with
    | mk k' _ =>
      cases heq
      exact Prod.ext (hq.dev ip) (hq.inum ip)
  have hkey : (r'.k.proc i).sharedKey r'.k.glob n = some (some ip, off) := by
    unfold Proc.sharedKey
    rw [hat, Option.map_some, hip]
  obtain ⟨hold, _⟩ | ⟨s, hentry, hpa⟩ := hstepped.registered i hi n e (some ip) off hleaf hkey
  · exact absurd hold hnew
  · refine ⟨hsame, s, hentry, hpa, ?_⟩
    rw [(h'.pins ip off s hentry).2, hsame]

end

-- == a start

theorem boot_holds (f ip : Nat) :
    (bootGlob.ftable f).holds ip = if f < 2 ∧ ip = f then 1 else 0 := by
  by_cases hf : f < 2
  · have hfile : bootGlob.ftable f = bootOpen f := if_pos hf
    rw [hfile, holds_some (.inl rfl) rfl]
    simp only [hf, true_and]
  · have hfile : bootGlob.ftable f = .zero := if_neg hf
    rw [hfile, if_neg fun h => hf h.1]
    rfl

theorem boot_cwdHolds (i ip : Nat) (hip : ip ≠ 2) : (bootKernel.proc i).cwdHolds ip = 0 := by
  have hcwd : (bootKernel.proc i).cwd = some 2 ∨ (bootKernel.proc i).cwd = none := by
    simp only [bootKernel]
    split
    · exact .inl rfl
    · split
      · exact .inl rfl
      · exact .inr rfl
  unfold Proc.cwdHolds
  split
  · cases hcwd with
    | inl h =>
      rw [h]
      exact if_neg fun heq => hip (Option.some.inj heq).symm
    | inr h =>
      rw [h]
      rfl
  · rfl

theorem boot_open {f : Nat} (h : 1 ≤ (bootGlob.ftable f).ref) : f < 2 := by
  by_contra hf
  have hfile : bootGlob.ftable f = .zero := if_neg hf
  rw [hfile] at h
  exact absurd h (by decide)

theorem boot_pinned : Pinned bootKernel.cwds bootKernel.glob where
  covers ip := by
    match ip with
    | 0 => decide
    | 1 => decide
    | 2 => decide
    | ip + 3 =>
      -- no file and no directory is on the other slots
      have hfiles : ∑ f ∈ range nfile, (bootGlob.ftable f).holds (ip + 3) = 0 := by
        refine sum_zero ?_
        intro f _
        rw [boot_holds, if_neg (by omega)]
      have hcwds : ∑ i ∈ range nproc, (bootKernel.proc i).cwdHolds (ip + 3) = 0 := by
        refine sum_zero ?_
        intro i _
        exact boot_cwdHolds i (ip + 3) (by omega)
      unfold Glob.pins Kernel.cwds
      rw [hcwds, show bootKernel.glob = bootGlob from rfl, hfiles]
      exact Int.le_refl 0
  typed f hf := by
    have hfile : bootGlob.ftable f = bootOpen f := if_pos (boot_open hf)
    left
    show (bootGlob.ftable f).type = .inode
    rw [hfile]
    rfl
  inTable f hf := (boot_open hf).trans (by decide)

/-- A run goes on with one more step, and so does its record. -/
theorem OriginRun.reaches_step {C : Kernel → Nat → Op → Prop}
    {a r : OriginRun} {k' : Kernel} (hr : Reaches (OriginStep C) a r) (i : Nat)
    (op : Op) (hi : i < nproc) (hl : (r.k.proc i).isLive = true) (hc : C r.k i op)
    (hs : Model.step r.k i op = .ok k') :
    Reaches (OriginStep C) a ⟨k', originAfter r.k k' r.origin⟩ :=
  hr.step ⟨⟨i, op, hi, hl, hc, hs⟩, rfl⟩

-- == the result

/-- In every tidy run a slot with an entry is referenced and holds the inode
it held when the entry was made, and a fault in a shared mapping maps no page
that was filled from another file. -/
theorem registry_pins_inodes {k₀ : Kernel} {r : OriginRun}
    (h0 : FreshBooks k₀) (hp : Pinned k₀.cwds k₀.glob)
    (hr : Reaches (OriginStep Tidy) (OriginRun.start k₀) r) :
    r.Pins ∧ r.FaultsOwn := by
  have h := OriginRun.inv_of_reaches h0 hp hr
  exact ⟨h.pins, h.faultsOwn⟩

set_option maxRecDepth 10000

/-- A page of a file is mapped and touched: the entry is of the file's inode,
number 2 on device 1. -/
theorem registry_pins_inodes_boot :
    ∃ r e, Reaches (OriginStep Tidy) (OriginRun.start bootKernel) r ∧
      r.k.glob.shared.lookup (some 0) 0 = some e ∧
      r.origin (some 0) 0 = some (1, 2) ∧ r.Pins ∧ r.FaultsOwn := by
  have h₁ : Reaches (OriginStep Tidy) (OriginRun.start bootKernel) _ :=
    OriginRun.reaches_step (.refl _) 1 (.mmap 0 8192 3 1 0 0) (by decide) rfl
      ⟨by decide, by decide⟩ rfl
  have hr := OriginRun.reaches_step h₁ 1 (.fault 0x40000000 true) (by decide) rfl
    trivial rfl
  have h := registry_pins_inodes boot_books boot_pinned hr
  exact ⟨_, _, hr, rfl, rfl, h⟩

/-- The calls on files and mappings, with any arguments. -/
def FileCalls : Kernel → Nat → Op → Prop
  | _, _, .mmap .. | _, _, .munmap .. | _, _, .fault .. | _, _, .fork
  | _, _, .exit _ | _, _, .openFile .. | _, _, .close _ | _, _, .unlink _ => True
  | _, _, _ => False

/-- Behind a mapped page two pages of the same file are mapped, and the first
is touched. Unmapping the first mapping clears the PTE of the second, and
nothing takes back its reference. When both mappings are gone and the file
is closed, the entry is there; the next file that is opened gets the slot. -/
theorem registry_entry_outlives_inode :
    ∃ r r', Reaches (OriginStep FileCalls) (OriginRun.start bootKernel) r ∧
      Reaches (OriginStep FileCalls) (OriginRun.start bootKernel) r' ∧
      (∃ e, r.k.glob.shared.lookup (some 0) 0 = some e) ∧
      (r.k.glob.itable 0).ref = 0 ∧ ¬ r.Pins ∧
      (∃ e, r'.k.glob.shared.lookup (some 0) 0 = some e) ∧
      r'.origin (some 0) 0 = some (1, 2) ∧ r'.k.glob.inodeId 0 = (1, 4) := by
  have h₁ : Reaches (OriginStep FileCalls) (OriginRun.start bootKernel) _ :=
    OriginRun.reaches_step (.refl _) 1 (.mmap 0 4096 3 1 0 0) (by decide) rfl
      trivial rfl
  have h₂ := OriginRun.reaches_step h₁ 1 (.mmap 0 8192 3 1 0 0) (by decide) rfl
    trivial rfl
  have h₃ := OriginRun.reaches_step h₂ 1 (.fault 0x40001000 true) (by decide)
    rfl trivial rfl
  have h₄ := OriginRun.reaches_step h₃ 1 (.munmap 0x40000000 4096) (by decide)
    rfl trivial rfl
  have h₅ := OriginRun.reaches_step h₄ 1 (.munmap 0x40001000 8192) (by decide)
    rfl trivial rfl
  have h₆ := OriginRun.reaches_step h₅ 1 (.close 0) (by decide) rfl trivial rfl
  have h₇ := OriginRun.reaches_step h₆ 1 (.openFile (some [0x73, 0x68]) 0 0)
    (by decide) rfl trivial rfl
  refine ⟨_, _, h₆, h₇, ⟨_, rfl⟩, rfl, ?_, ⟨_, rfl⟩, rfl, rfl⟩
  intro hpins
  exact absurd (hpins 0 0 _ rfl).1 (by decide)

end Xv6Labs.Model
