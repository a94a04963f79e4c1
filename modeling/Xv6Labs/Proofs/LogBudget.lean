/-
The log budget of one chunk of filewrite.

An unaligned chunk touches four data blocks, of which the first is there;
three new ones with a bitmap block each, the indirect block with its own
and the inode's block make the ten of MAXOPBLOCKS. `Within s s' T`: what
was logged between two states is in `T`.
-/
import Mathlib.Data.Finset.Card
import Xv6Labs.Model.Log
import Xv6Labs.Proofs.BlockMap

namespace Xv6Labs.Model.Blocks

open Lib

variable {s s' s'' : Store} {ip ip' : Ino} {a bn : Nat} {T U : Finset Nat}

-- == what is logged

/-- What was logged on the way from `s` to `s'` is in `T`. -/
def Within (s s' : Store) (T : Finset Nat) : Prop := ∀ b ∈ s'.log, b ∈ s.log ∨ b ∈ T

theorem Within.trans (h : Within s s' T) (h' : Within s' s'' U) : Within s s'' (T ∪ U) := by
  intro b hb
  rcases h' b hb with hb | hb
  · exact (h b hb).imp_right fun ht => Finset.mem_union_left U ht
  · exact .inr (Finset.mem_union_right T hb)

theorem Within.mono (h : Within s s' T) (hs : T ⊆ U) : Within s s' U :=
  fun b hb => (h b hb).imp_right fun ht => hs ht

theorem Within.logWrite (h : Within s s' T) (b : Nat) : Within s (s'.logWrite b) (insert b T) := by
  intro x hx
  rcases List.mem_append.mp hx with hx | hx
  · exact (h x hx).imp_right fun ht => Finset.mem_insert_of_mem ht
  · rw [List.mem_singleton.mp hx]
    exact .inr (Finset.mem_insert_self b T)

theorem Within.iupdate (h : Within s s' T) (ip : Ino) :
    Within s (iupdate s' ip) (insert (ip.inum / ipb + s'.inodestart) T) :=
  h.logWrite _

theorem Within.card_le (h : Within s s' T) (h0 : s.log = []) : s'.log.toFinset.card ≤ T.card := by
  refine Finset.card_le_card fun b hb => ?_
  refine (h b (List.mem_toFinset.mp hb)).resolve_left ?_
  rw [h0]
  exact List.not_mem_nil

/-- balloc logs the block it returns and a bitmap block. -/
theorem Balloced.within (h : Balloced s a s') : ∃ bm, Within s s' {a, bm} := by
  cases h with
  | full => exact ⟨0, fun _ hb => .inl hb⟩
  | took =>
    refine ⟨bblock s a, fun x hx => ?_⟩
    rw [take_log] at hx
    generalize bblock s a = bm at hx ⊢
    simp only [List.mem_append, List.mem_singleton] at hx
    rcases hx with (hx | rfl) | rfl
    · exact .inl hx
    · exact .inr (by simp)
    · exact .inr (by simp)

/-- An entry of the indirect block: with a new block, the indirect block
is logged. -/
theorem Within.entry {ind i : Nat} (h : Within s s' T) (hind : ind ∈ U) (hT : T ⊆ U) :
    Within s (if a = 0 then s' else s'.setEntry ind i a) U := by
  split
  · exact h.mono hT
  · exact (h.logWrite ind).mono (Finset.insert_subset hind hT)

-- == bmap

/-- What bmap logs. Once the file has an indirect block, that block is all
there is in `level`. -/
structure Spent (s : Store) (ip : Ino) (bn a : Nat) (s' : Store) (ip' : Ino)
    (data level : Finset Nat) : Prop where
  within : Within s s' (data ∪ level)
  mem : a ∈ data
  card : data.card ≤ if blockOf s ip bn = 0 then 2 else 1
  direct : bn < ndirect → level = ∅
  indirect : ndirect ≤ bn → level.card ≤ 2 ∧ ip'.addrs ndirect ∈ level
    ∧ (a ≠ 0 → ip'.addrs ndirect ≠ 0)
  there : ip.addrs ndirect ≠ 0 → level ⊆ {ip.addrs ndirect}

theorem Bmapped.spent (h : Bmapped s ip bn a s' ip') :
    ∃ data level, Spent s ip bn a s' ip' data level := by
  have hnew : ∀ {x bm : Nat}, blockOf s ip bn = 0 →
      ({x, bm} : Finset Nat).card ≤ if blockOf s ip bn = 0 then 2 else 1 :=
    fun h0 => by rw [if_pos h0]; exact Finset.card_le_two
  have habsent : ndirect ≤ bn → ip.addrs ndirect = 0 → blockOf s ip bn = 0 := by
    intro hbn h0
    rw [blockOf, if_neg (Nat.not_lt.mpr hbn), if_neg fun h => h.2 h0]
  cases h with
  | there h =>
    by_cases hbn : bn < ndirect
    · refine ⟨{blockOf s ip bn}, ∅, fun _ hb => .inl hb, by simp, ?_,
        fun _ => rfl, fun hge => absurd hbn (Nat.not_lt.mpr hge), by simp⟩
      rw [if_neg h, Finset.card_singleton]
    have hind : ip.addrs ndirect ≠ 0 := fun h0 => h (habsent (Nat.not_lt.mp hbn) h0)
    refine ⟨{blockOf s ip bn}, {ip.addrs ndirect}, fun _ hb => .inl hb,
      by simp, ?_, fun hlt => absurd hlt hbn,
      fun _ => ⟨by simp, by simp, fun _ => hind⟩, fun _ => by simp⟩
    rw [if_neg h, Finset.card_singleton]
  | slot hbn h0 h =>
    obtain ⟨bm, hbm⟩ := h.within
    refine ⟨{a, bm}, ∅, by simpa using hbm, by simp,
      hnew (by rw [blockOf, if_pos hbn, h0]), fun _ => rfl,
      fun hge => absurd hbn (Nat.not_lt.mpr hge), by simp⟩
  | entry hbn _ hind h0 h =>
    obtain ⟨bm, hbm⟩ := h.within
    exact ⟨{a, bm}, {ip.addrs ndirect},
      hbm.entry (by simp) Finset.subset_union_left, by simp, hnew h0,
      fun hlt => absurd hlt (Nat.not_lt.mpr hbn),
      fun _ => ⟨by simp, by simp, fun _ => hind⟩, fun _ => by simp⟩
  | refused hbn hind h =>
    obtain ⟨bm, hbm⟩ := h.within
    exact ⟨{0, bm}, {0}, hbm.mono Finset.subset_union_left, by simp,
      hnew (habsent hbn hind), fun hlt => absurd hlt (Nat.not_lt.mpr hbn),
      fun _ => ⟨by simp, by simp [hind], fun hne => absurd rfl hne⟩,
      fun hne => absurd hind hne⟩
  | @indirect ind _ _ _ hbn _ hind hne h1 h =>
    obtain ⟨bm1, hbm1⟩ := h1.within
    obtain ⟨bm, hbm⟩ := h.within
    refine ⟨{a, bm}, {ind, bm1}, (hbm1.trans hbm).entry (by simp) ?_,
      by simp, hnew (habsent hbn hind),
      fun hlt => absurd hlt (Nat.not_lt.mpr hbn),
      fun _ => ⟨Finset.card_le_two, by simp [setAddr_addrs],
        fun _ => by simpa [setAddr_addrs] using hne⟩,
      fun hne => absurd hind hne⟩
    rw [Finset.union_comm]

-- == writei

/-- One of the first `k` turns is past the direct blocks. -/
abbrev Past (off k : Nat) : Prop := 0 < k ∧ ndirect < off / bsize + k

/-- The blocks that `k` turns of writei may have logged: one for every
turn, a bitmap block for every turn but an unaligned first, and two once
the indirect block was needed. -/
def budget (off k : Nat) : Nat :=
  k + (k - if off % bsize = 0 then 0 else 1) + if Past off k then 2 else 0

/-- Before turn `k`, with `s` the state at the call. -/
structure Logged (s : Store) (off k : Nat) (s' : Store) (ip' : Ino) (T : Finset Nat) : Prop where
  within : Within s s' T
  card : T.card ≤ budget off k
  level : Past off k → ip'.addrs ndirect ≠ 0 ∧ ip'.addrs ndirect ∈ T

/-- What a turn adds fits, and so does the block it ends with. -/
theorem Logged.turn {s0 : Store} {off k : Nat}
    (hl : Logged s0 off k s ip T) (hbn : bn = off / bsize + k)
    (hfirst : k = 0 → off % bsize ≠ 0 → blockOf s ip bn ≠ 0) (h : Bmapped s ip bn a s' ip') :
    ∃ U, Within s0 s' U ∧ a ∈ U ∧ U.card ≤ budget off (k + 1)
      ∧ (a ≠ 0 → Logged s0 off (k + 1) s' ip' U) := by
  obtain ⟨data, level, hs⟩ := h.spent
  have hw : Within s0 s' (T ∪ level ∪ data) := by
    rw [Finset.union_assoc, Finset.union_comm level]
    exact hl.within.trans hs.within
  have hmem : a ∈ T ∪ level ∪ data := Finset.mem_union_right _ hs.mem
  have hdata : data.card ≤ if k = 0 ∧ off % bsize ≠ 0 then 1 else 2 := by
    refine Nat.le_trans hs.card ?_
    split
    · next h0 => rw [if_neg fun hk => hfirst hk.1 hk.2 h0]
    · split <;> omega
  have hlevel : (T ∪ level).card ≤ T.card + if Past off (k + 1) ∧ ¬ Past off k then 2 else 0 := by
    by_cases hpast : Past off k
    · obtain ⟨hne, hm⟩ := hl.level hpast
      have hsub : level ⊆ T := (hs.there hne).trans (Finset.singleton_subset_iff.mpr hm)
      rw [Finset.union_eq_left.mpr hsub]
      exact Nat.le_add_right _ _
    · by_cases hlt : bn < ndirect
      · rw [hs.direct hlt, Finset.union_empty]
        exact Nat.le_add_right _ _
      · have hge : ndirect ≤ bn := Nat.not_lt.mp hlt
        rw [if_pos ⟨⟨by omega, by omega⟩, hpast⟩]
        exact (Finset.card_union_le _ _).trans (Nat.add_le_add_left (hs.indirect hge).1 _)
  have hcard : (T ∪ level ∪ data).card ≤ budget off (k + 1) := by
    have hc := hl.card
    have hu := Finset.card_union_le (T ∪ level) data
    have hpast : (if Past off (k + 1) ∧ ¬ Past off k then 2 else 0) + (if Past off k then 2 else 0)
        = if Past off (k + 1) then 2 else 0 := by
      split <;> split <;> split <;> omega
    unfold budget at hc ⊢
    split at hdata <;> split at hc <;> split <;> omega
  refine ⟨T ∪ level ∪ data, hw, hmem, hcard, fun ha => ⟨hw, hcard, ?_⟩⟩
  intro hlt
  have hge : ndirect ≤ bn := by
    omega
  obtain ⟨_, hm, hne⟩ := hs.indirect hge
  exact ⟨hne ha, Finset.mem_union_left _ (Finset.mem_union_right _ hm)⟩

/-- A turn of writei, when the file is mapped up to where it writes. -/
theorem writeTurn_logged (src : Nat → UInt8) (good : Nat) {s0 : Store}
    {off n k : Nat} (hl : Logged s0 off k s ip T)
    (hk : k < blocksIn off n) (hmax : off + n ≤ maxFile * bsize)
    (hfirst : k = 0 → off % bsize ≠ 0 → blockOf s ip (off / bsize) ≠ 0) :
    (∃ s' ip' U, writeTurn src good off n k (before off n k, s, ip)
        = .ok (.inl (before off n (k + 1), s', ip')) ∧ Logged s0 off (k + 1) s' ip' U)
    ∨ ∃ t s' ip' U, writeTurn src good off n k (before off n k, s, ip)
        = .ok (.inr (t, s', ip')) ∧ Within s0 s' U ∧ U.card ≤ budget off (k + 1) := by
  obtain ⟨hlt, hsucc, hbn⟩ := before_succ hk
  have hmaxbn : (off + before off n k) / bsize < maxFile := by
    rw [Nat.div_lt_iff_lt_mul (by decide)]
    omega
  obtain ⟨a, s1, ip1, hb, hm⟩ := bmap_bmapped s ip _ hmaxbn
  obtain ⟨U, hw, hmem, hcard, hlog⟩ := hl.turn hbn (fun h0 hr => by
    rw [hbn, h0]
    exact hfirst h0 hr) hm
  by_cases ha : a = 0
  · exact .inr ⟨_, s1, ip1, U, by simp only [writeTurn, hb, ok_bind, if_pos ha]; rfl, hw, hcard⟩
  simp only [writeTurn, hb, ok_bind, if_neg ha, ← hsucc]
  split
  · exact .inr ⟨_, _, _, U, rfl, hw, hcard⟩
  · have h' := hlog ha
    refine .inl ⟨_, _, U, rfl, ?_, hcard, h'.level⟩
    have hlog := hw.logWrite a
    exact hlog.mono (Finset.insert_subset hmem (Finset.Subset.refl U))

theorem budget_mono (off : Nat) {j k : Nat} (h : j ≤ k) : budget off j ≤ budget off k := by
  unfold budget
  split <;> split <;> split <;> omega

/-- Three aligned blocks, or four that are not. -/
theorem budget_chunk {off n : Nat} (hn : n ≤ (maxOpBlocks - 1 - 1 - 2) / 2 * bsize) :
    budget off (blocksIn off n) + 1 ≤ maxOpBlocks := by
  rw [show (maxOpBlocks - 1 - 1 - 2) / 2 = 3 from rfl] at hn
  have hturns : blocksIn off n ≤ if off % bsize = 0 then 3 else 4 := by
    unfold blocksIn bsize at *
    split <;> split <;> omega
  unfold budget maxOpBlocks
  split at hturns <;> split <;> split <;> omega

theorem writeLoop_logged {src : Nat → UInt8} {good off n : Nat}
    (hmax : off + n ≤ maxFile * bsize) (hoff : off ≤ ip.size) (hfull : NoHoles s ip) :
    ∃ w U, forRet (writeTurn src good off n) (blocksIn off n) (0, s, ip)
      = .ok w ∧ Within s (w.elim id id).2.1 U ∧ U.card ≤ budget off (blocksIn off n) := by
  have hrun := forRet_run (f := writeTurn src good off n) (n := blocksIn off n)
    (fun k w => (∃ T, Logged s off k w.2.1 w.2.2 T) ∧ w.1 = before off n k
      ∧ (k = 0 → w = (0, s, ip)))
    (fun w => ∃ U, Within s w.2.1 U ∧ U.card ≤ budget off (blocksIn off n))
    ⟨⟨∅, fun _ hb => .inl hb, Nat.zero_le _,
      fun h => absurd h.1 (Nat.lt_irrefl 0)⟩, (before_zero off n).symm,
      fun _ => rfl⟩ ?_
  · rcases hrun with ⟨w, hw, ⟨T, hT⟩, -, -⟩ | ⟨w, hw, U, hU⟩
    · exact ⟨_, T, hw, hT.within, hT.card⟩
    · exact ⟨_, U, hw, hU⟩
  rintro k hk ⟨t, s1, ip1⟩ ⟨⟨T, hT⟩, rfl, hstart⟩
  have hfirst : k = 0 → off % bsize ≠ 0 → blockOf s1 ip1 (off / bsize) ≠ 0 := by
    intro h0 hr
    have heq := Prod.mk.inj (hstart h0)
    obtain ⟨rfl, rfl⟩ := Prod.mk.inj heq.2
    refine hfull _ ?_
    have := Nat.div_add_mod' off bsize
    omega
  rcases writeTurn_logged src good hT hk hmax hfirst with
    ⟨s', ip', U, hw, hU⟩ | ⟨t, s', ip', U, hw, hin, hcard⟩
  · exact .inl ⟨_, hw, ⟨U, hU⟩, rfl, fun h0 => absurd h0 (by omega)⟩
  · exact .inr ⟨_, hw, U, hin, hcard.trans (budget_mono off hk)⟩

/-- A chunk of filewrite logs at most MAXOPBLOCKS blocks, whatever the free
map and however much of the source can be read. `log` is counted from the
call on. -/
theorem writei_log_budget (s : Store) (ip : Ino) (src : Nat → UInt8)
    (good : Nat) (off n : UInt32) (hfull : NoHoles s ip)
    (hn : n.toNat ≤ (maxOpBlocks - 1 - 1 - 2) / 2 * bsize) :
    ∃ r s' ip', writei { s with log := [] } ip src good off n
      = .ok (r, s', ip') ∧ s'.log.toFinset.card ≤ maxOpBlocks := by
  unfold writei
  split
  · exact ⟨_, _, _, rfl, Nat.zero_le _⟩
  · next hoff =>
    split
    · exact ⟨_, _, _, rfl, Nat.zero_le _⟩
    · next hmax =>
      obtain ⟨hsize, hsum⟩ := not_or.mp hoff
      rw [add_toNat hsum] at hmax
      obtain ⟨w, U, hw, hin, hcard⟩ := @writeLoop_logged { s with log := [] }
        ip src good off.toNat n.toNat (Nat.not_lt.mp hmax)
        (Nat.not_lt.mp hsize) hfull
      refine ⟨_, _, _, by rw [hw]; rfl, ?_⟩
      -- the block of the inode is the last
      exact ((hin.iupdate _).card_le rfl).trans
        ((Finset.card_insert_le _ U).trans
          ((Nat.succ_le_succ hcard).trans (budget_chunk hn)))

/-- Three blocks' worth at the end of half a block: four turns. -/
theorem writei_log_budget_small :
    NoHoles smallDisk smallFile ∧
    ∃ r s' ip', writei { smallDisk with log := [] } smallFile (fun _ => 7)
      3072 512 3072 = .ok (r, s', ip')
      ∧ s'.log.toFinset.card ≤ maxOpBlocks :=
  ⟨smallFile_noHoles, writei_log_budget smallDisk smallFile (fun _ => 7) 3072
    512 3072 smallFile_noHoles (by decide)⟩

end Xv6Labs.Model.Blocks
