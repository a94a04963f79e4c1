/-
The books of the buffer cache: the list has every buffer, a block of the
log's device is in one buffer, one user at a time has the lock, and a
reference count is the number of users and pins (`Books`).
-/
import Mathlib.Data.Finset.Card
import Mathlib.Data.Finset.Dedup
import Xv6Labs.Lib.Sum
import Xv6Labs.Model.Bio

namespace Xv6Labs.Model.Bio

open Lib

variable {β : Type}
variable {b dev i v : Nat} {x y : Use} {c : Bcache β}

-- == users

/-- The device, the block and the buffer of a user. -/
def Use.spot : Use → Option (Nat × Nat × Nat)
  | .idle => none
  | .waiting dev b i => some (dev, b, i)
  | .locked dev b i => some (dev, b, i)
  | .held dev b i _ => some (dev, b, i)
  | .unlocked dev b i => some (dev, b, i)

/-- The buffer of a user. -/
def Use.buf (x : Use) : Option Nat := x.spot.map fun d => d.2.2

/-- The buffer whose lock a user has. -/
def Use.owns : Use → Option Nat
  | .locked _ _ i => some i
  | .held _ _ i _ => some i
  | _ => none

/-- The buffer that a user got from bread. -/
def Use.reads : Use → Option Nat
  | .held _ _ i _ => some i
  | _ => none

/-- The buffer that a user has changed. -/
def Use.dirty : Use → Option Nat
  | .held _ _ i true => some i
  | _ => none

/-- How many users a buffer has. -/
def Io.uses (s : Io β) (i : Nat) : Nat := (s.use.map fun x => if x.buf = some i then 1 else 0).sum

/-- How many pins a buffer has. -/
def Io.pins (s : Io β) (pinned : List Nat) (i : Nat) : Nat :=
  if (s.cache.buf i).dev = s.dev ∧ (s.cache.buf i).blockno ∈ pinned then 1
  else 0

/-- What the cache keeps, with the blocks that are pinned. -/
structure Books (s : Io β) (pinned : List Nat) : Prop where
  dev : s.dev ≠ 0
  lru : ∀ i, i ∈ s.cache.lru ↔ i < nbuf
  devs : ∀ {i}, i < nbuf → (s.cache.buf i).dev = 0 ∨ (s.cache.buf i).dev = s.dev
  one : ∀ {i j}, i < nbuf → j < nbuf → (s.cache.buf i).dev = s.dev →
    (s.cache.buf j).dev = s.dev →
    (s.cache.buf i).blockno = (s.cache.buf j).blockno → i = j
  spots : ∀ {u dev b i : Nat} {x : Use}, s.use[u]? = some x → x.spot = some (dev, b, i) →
    i < nbuf ∧ dev = s.dev ∧ (s.cache.buf i).dev = s.dev ∧ (s.cache.buf i).blockno = b
  locks : ∀ {u i : Nat} {x : Use}, s.use[u]? = some x → x.owns = some i →
    (s.cache.buf i).locked = true
  reads : ∀ {u i : Nat} {x : Use}, s.use[u]? = some x → x.reads = some i →
    (s.cache.buf i).valid = true
  own : ∀ {u v i : Nat} {x y : Use}, s.use[u]? = some x → s.use[v]? = some y →
    x.owns = some i → y.owns = some i → u = v
  refs : ∀ {i}, i < nbuf → (s.cache.buf i).refcnt = s.uses i + s.pins pinned i
  pinned : ∀ {b}, b ∈ pinned → ∃ i, i < nbuf
    ∧ (s.cache.buf i).dev = s.dev ∧ (s.cache.buf i).blockno = b
    ∧ (s.cache.buf i).valid = true

@[simp] theorem setBuf_self (c : Bcache β) (i : Nat) (bf : Buf β) :
    (c.setBuf i bf).buf i = bf := if_pos rfl

theorem setBuf_of_ne (c : Bcache β) {j : Nat} (bf : Buf β) (h : j ≠ i) :
    (c.setBuf i bf).buf j = c.buf j := if_neg h

/-- What holds of the buffer that was set, and of any other one as it was,
holds of all. -/
theorem setBuf_at {Q : Buf β → Buf β → Prop} {bf : Buf β}
    (hself : Q (c.buf i) bf) (hrefl : ∀ b, Q b b) (j : Nat) :
    Q (c.buf j) ((c.setBuf i bf).buf j) := by
  by_cases hj : j = i
  · rw [hj, setBuf_self]
    exact hself
  · rw [setBuf_of_ne _ _ hj]
    exact hrefl _

theorem setBuf_buf (c : Bcache β) (i : Nat) : c.setBuf i (c.buf i) = c :=
  congrArg (Bcache.mk · c.lru) (funext fun j =>
    (setBuf_at (Q := Eq) rfl (fun _ => rfl) j).symm)

theorem setBuf_setBuf (c : Bcache β) (i : Nat) (bf bf' : Buf β) :
    (c.setBuf i bf).setBuf i bf' = c.setBuf i bf' := by
  refine congrArg (Bcache.mk · c.lru) (funext fun j => ?_)
  by_cases hj : j = i
  · simp only [hj, if_true]
  · rw [if_neg hj, if_neg hj]
    exact setBuf_of_ne c bf hj

/-- A new reference count changes nothing else. -/
theorem setBuf_refcnt (c : Bcache β) (i n j : Nat) :
    let b := (c.setBuf i { c.buf i with refcnt := n }).buf j
    b.dev = (c.buf j).dev ∧ b.blockno = (c.buf j).blockno
      ∧ b.valid = (c.buf j).valid ∧ b.locked = (c.buf j).locked ∧ b.data = (c.buf j).data := by
  refine setBuf_at (Q := fun a b => b.dev = a.dev ∧ b.blockno = a.blockno
    ∧ b.valid = a.valid ∧ b.locked = a.locked ∧ b.data = a.data) ?_ ?_ j
  · exact ⟨rfl, rfl, rfl, rfl, rfl⟩
  · exact fun _ => ⟨rfl, rfl, rfl, rfl, rfl⟩

/-- After a user has moved, everyone else is where they were. -/
theorem use_of_set {l : List Use} {u : Nat} (h : (l.set u x)[v]? = some y) :
    v = u ∧ y = x ∨ v ≠ u ∧ l[v]? = some y := by
  rw [List.getElem?_set] at h
  split at h
  · split at h
    · cases h
      exact .inl ⟨by omega, rfl⟩
    · cases h
  · exact .inr ⟨by omega, h⟩

section
variable {s : Io β} {pinned : List Nat} {u : Nat} {x : Use}
variable {x' : Use} {a : Act β} {s' : Io β} {pinned' : List Nat}

theorem Io.uses_move (hx : s.use[u]? = some x) (i : Nat) (c : Bcache β) :
    (s.move u y c).uses i + (if x.buf = some i then 1 else 0)
      = s.uses i + if y.buf = some i then 1 else 0 :=
  sum_map_set (b := y) (fun x => if x.buf = some i then 1 else 0) hx

theorem Io.uses_pos (hx : s.use[u]? = some x) (hi : x.buf = some i) : 0 < s.uses i := by
  have h := Io.uses_move (y := .idle) hx i s.cache
  rw [if_pos hi] at h
  simp only [Use.buf, Use.spot, Option.map_none] at h
  simp at h
  omega

/-- A user moves on and changes the state of buffer `i`, but not what the
buffer is for. -/
structure Moves (s : Io β) (u : Nat) (x x' : Use) (i : Nat) (c : Bcache β) : Prop where
  lru : ∀ j, j ∈ c.lru ↔ j ∈ s.cache.lru
  other : ∀ j, j ≠ i → c.buf j = s.cache.buf j
  dev : (c.buf i).dev = (s.cache.buf i).dev
  blockno : (c.buf i).blockno = (s.cache.buf i).blockno
  refcnt : (c.buf i).refcnt + (if x.buf = some i then 1 else 0)
    = (s.cache.buf i).refcnt + if x'.buf = some i then 1 else 0
  before : ∀ j, x.buf = some j → j = i
  spot : ∀ {dev b j}, x'.spot = some (dev, b, j) → j = i ∧ i < nbuf
    ∧ dev = s.dev ∧ (s.cache.buf i).dev = s.dev ∧ (s.cache.buf i).blockno = b
  valid : (s.cache.buf i).valid = true → (c.buf i).valid = true
  reads : ∀ j, x'.reads = some j → (c.buf i).valid = true
  owns : ∀ j, x'.owns = some j → (c.buf i).locked = true
  /-- nobody else has the lock, or it is not let go and not taken -/
  lock : (∀ {v : Nat} {y : Use}, v ≠ u → s.use[v]? = some y → y.owns ≠ some i)
    ∨ (c.buf i).locked = (s.cache.buf i).locked ∧ x'.owns = none

theorem Moves.all (hm : Moves s u x x' i c)
    {Q : Buf β → Buf β → Prop} (hself : Q (s.cache.buf i) (c.buf i))
    (hrefl : ∀ b, Q b b) (j : Nat) : Q (s.cache.buf j) (c.buf j) := by
  by_cases hj : j = i
  · exact hj ▸ hself
  · rw [hm.other j hj]
    exact hrefl _

theorem Use.buf_of_spot (h : x.spot = some (dev, b, i)) : x.buf = some i := by
  rw [Use.buf, h]
  rfl

theorem Use.spot_of_buf (h : x.buf = some i) : ∃ dev b, x.spot = some (dev, b, i) := by
  obtain ⟨⟨dev, b, j⟩, hs, rfl⟩ := Option.map_eq_some_iff.mp h
  exact ⟨dev, b, hs⟩

theorem Use.spot_of_owns (h : x.owns = some i) : ∃ dev b, x.spot = some (dev, b, i) := by
  cases x <;> cases h
  all_goals exact ⟨_, _, rfl⟩

theorem Use.spot_of_reads (h : x.reads = some i) : ∃ dev b, x.spot = some (dev, b, i) := by
  cases x <;> cases h
  exact ⟨_, _, rfl⟩

theorem Books.move (h : Books s pinned) (hx : s.use[u]? = some x)
    (hm : Moves s u x x' i c) : Books (s.move u x' c) pinned := by
  have hdev := hm.all (Q := fun a b => b.dev = a.dev) hm.dev fun _ => rfl
  have hno := hm.all (Q := fun a b => b.blockno = a.blockno) hm.blockno fun _ => rfl
  have hvalid := hm.all (Q := fun a b => a.valid = true → b.valid = true) hm.valid fun _ => id
  refine ⟨h.dev, fun j => (hm.lru j).trans (h.lru j), ?_, ?_, ?_, ?_, ?_, ?_, ?_, ?_⟩
  · intro j hj
    show (c.buf j).dev = 0 ∨ (c.buf j).dev = s.dev
    rw [hdev]
    exact h.devs hj
  · intro j k hj hk hdj hdk hb
    refine h.one hj hk ((hdev j).symm.trans hdj) ((hdev k).symm.trans hdk) ?_
    exact (hno j).symm.trans (hb.trans (hno k))
  · intro v dev b j y hv hs
    show j < nbuf ∧ dev = s.dev ∧ (c.buf j).dev = s.dev ∧ (c.buf j).blockno = b
    rw [hdev, hno]
    rcases use_of_set hv with ⟨rfl, rfl⟩ | ⟨hne, hv⟩
    · obtain ⟨rfl, hs⟩ := hm.spot hs
      exact hs
    · exact h.spots hv hs
  · intro v j y hv ho
    show (c.buf j).locked = true
    rcases use_of_set hv with ⟨rfl, rfl⟩ | ⟨hne, hv⟩
    · obtain ⟨dev, b, hs⟩ := Use.spot_of_owns ho
      exact (hm.spot hs).1 ▸ hm.owns j ho
    by_cases hj : j = i
    · subst hj
      rcases hm.lock with hl | ⟨hl, -⟩
      · exact absurd ho (hl hne hv)
      · exact hl.trans (h.locks hv ho)
    · rw [hm.other j hj]
      exact h.locks hv ho
  · intro v j y hv hr
    rcases use_of_set hv with ⟨rfl, rfl⟩ | ⟨hne, hv⟩
    · obtain ⟨dev, b, hs⟩ := Use.spot_of_reads hr
      exact (hm.spot hs).1 ▸ hm.reads j hr
    · exact hvalid j (h.reads hv hr)
  · -- one of the two is the user that moved, or neither is
    have hmoved : ∀ {v j : Nat} {y : Use}, v ≠ u → s.use[v]? = some y →
        x'.owns = some j → y.owns = some j → False := by
      intro v j y hne hv hx' hy
      obtain ⟨dev, b, hs⟩ := Use.spot_of_owns hx'
      obtain ⟨rfl, -⟩ := hm.spot hs
      rcases hm.lock with hl | ⟨-, hl⟩
      · exact hl hne hv hy
      · exact absurd (hl.symm.trans hx') nofun
    intro v w j y z hv hw hy hz
    rcases use_of_set hv with ⟨hvu, hyx⟩ | ⟨hvne, hv'⟩
    · rcases use_of_set hw with ⟨hwu, -⟩ | ⟨hwne, hw'⟩
      · exact hvu.trans hwu.symm
      · exact (hmoved hwne hw' (hyx ▸ hy) hz).elim
    · rcases use_of_set hw with ⟨-, hzx⟩ | ⟨hwne, hw'⟩
      · exact (hmoved hvne hv' (hzx ▸ hz) hy).elim
      · exact h.own hv' hw' hy hz
  · intro j hj
    show (c.buf j).refcnt = _
    have huses := Io.uses_move (y := x') hx j c
    have hpins : (s.move u x' c).pins pinned j = s.pins pinned j := by
      unfold Io.pins
      simp only [Io.move, hdev, hno]
    have hold := h.refs hj
    by_cases hji : j = i
    · subst hji
      have := hm.refcnt
      omega
    have hxj : x.buf ≠ some j := fun hb => hji (hm.before j hb)
    have hx'j : x'.buf ≠ some j := by
      intro hb
      obtain ⟨dev, b, hs⟩ := Use.spot_of_buf hb
      exact hji (hm.spot hs).1
    rw [hm.other j hji]
    simp only [hxj, hx'j, if_false] at huses
    omega
  · intro b hb
    obtain ⟨j, hj, hd, hn, hv⟩ := h.pinned hb
    exact ⟨j, hj, (hdev j).trans hd, (hno j).trans hn, hvalid j hv⟩

-- == bget, unref

theorem cached_some (h : c.cached dev b = some i) :
    i ∈ c.lru ∧ (c.buf i).dev = dev ∧ (c.buf i).blockno = b := by
  have hp := List.find?_some h
  exact ⟨List.mem_of_find?_eq_some h, of_decide_eq_true hp⟩

theorem cached_none (h : c.cached dev b = none) (hi : i ∈ c.lru) :
    ¬ ((c.buf i).dev = dev ∧ (c.buf i).blockno = b) :=
  fun hp => List.find?_eq_none.mp h i hi (decide_eq_true hp)

theorem unused_some (h : c.unused = some i) : i ∈ c.lru ∧ (c.buf i).refcnt = 0 := by
  have hp := List.find?_some h
  exact ⟨List.mem_reverse.mp (List.mem_of_find?_eq_some h), of_decide_eq_true hp⟩

theorem unused_none (h : c.unused = none) (hi : i ∈ c.lru) : 0 < (c.buf i).refcnt :=
  Nat.pos_of_ne_zero fun h0 =>
    List.find?_eq_none.mp h i (List.mem_reverse.mpr hi) (decide_eq_true h0)

/-- A buffer without references has no user and no pin. -/
theorem Books.free (h : Books s pinned) (hi : i < nbuf) (h0 : (s.cache.buf i).refcnt = 0) :
    (∀ {v : Nat} {y : Use}, s.use[v]? = some y → y.buf ≠ some i)
      ∧ ((s.cache.buf i).dev = s.dev → (s.cache.buf i).blockno ∉ pinned) := by
  have hrefs := h.refs hi
  constructor
  · intro v y hv hb
    have := Io.uses_pos hv hb
    omega
  · intro hd hin
    have : s.pins pinned i = 1 := if_pos ⟨hd, hin⟩
    omega

theorem Books.hit (h : Books s pinned) (hx : s.use[u]? = some .idle)
    (hi : i < nbuf) (hd : (s.cache.buf i).dev = s.dev)
    (hn : (s.cache.buf i).blockno = b) :
    Books (s.move u (.waiting s.dev b i) (s.cache.setBuf i
      { s.cache.buf i with refcnt := (s.cache.buf i).refcnt + 1 })) pinned := by
  refine h.move hx
    { lru := fun _ => Iff.rfl
      other := fun j hj => setBuf_of_ne _ _ hj
      dev := by rw [setBuf_self]
      blockno := by rw [setBuf_self]
      refcnt := ?_
      before := nofun
      spot := ?_
      valid := fun hv => by rw [setBuf_self]; exact hv
      reads := nofun
      owns := nofun
      lock := .inr ⟨by rw [setBuf_self], rfl⟩ }
  · have hw : (Use.waiting s.dev b i).buf = some i := rfl
    rw [setBuf_self, if_neg nofun, if_pos hw]
  · rintro dev b' j ⟨⟩
    exact ⟨rfl, hi, rfl, hd, hn⟩

/-- A buffer that nobody has is given to a block that has no buffer. -/
theorem Books.recycle (h : Books s pinned) (hi : i < nbuf)
    (h0 : (s.cache.buf i).refcnt = 0) (bf : Buf β) (hdev : bf.dev = s.dev)
    (href : bf.refcnt = 0) (hnew : ∀ {j}, j < nbuf →
      (s.cache.buf j).dev = s.dev → (s.cache.buf j).blockno ≠ bf.blockno) :
    Books { s with cache := s.cache.setBuf i bf } pinned := by
  obtain ⟨hnouse, hnopin⟩ := h.free hi h0
  have hbuf : ∀ {j}, j ≠ i → (s.cache.setBuf i bf).buf j = s.cache.buf j :=
    fun hj => setBuf_of_ne _ _ hj
  have hself : (s.cache.setBuf i bf).buf i = bf := setBuf_self _ _ _
  have hothers : ∀ {v j : Nat} {y : Use}, s.use[v]? = some y →
      y.buf = some j → (s.cache.setBuf i bf).buf j = s.cache.buf j :=
    fun hv hy => hbuf fun hj => hnouse hv (hj ▸ hy)
  refine ⟨h.dev, h.lru, fun {j} hj => ?_, fun {j k} hj hk hdj hdk hb => ?_,
    fun {v d b' j y} hv hs => ?_, fun {v j y} hv ho => ?_,
    fun {v j y} hv hr => ?_, h.own, fun {j} hj => ?_, fun {b'} hb' => ?_⟩
  · by_cases hji : j = i
    · simp only [hji, hself, hdev, or_true]
    · simp only [hbuf hji]
      exact h.devs hj
  · by_cases hji : j = i <;> by_cases hki : k = i
    · exact hji.trans hki.symm
    · simp only [hji, hself, hbuf hki] at hb hdk
      exact absurd hb.symm (hnew hk hdk)
    · simp only [hki, hself, hbuf hji] at hb hdj
      exact absurd hb (hnew hj hdj)
    · simp only [hbuf hji, hbuf hki] at hb hdj hdk
      exact h.one hj hk hdj hdk hb
  · simp only [hothers hv (Use.buf_of_spot hs)]
    exact h.spots hv hs
  · obtain ⟨d, b', hs⟩ := Use.spot_of_owns ho
    simp only [hothers hv (Use.buf_of_spot hs)]
    exact h.locks hv ho
  · obtain ⟨d, b', hs⟩ := Use.spot_of_reads hr
    simp only [hothers hv (Use.buf_of_spot hs)]
    exact h.reads hv hr
  · have hold := h.refs hj
    unfold Io.pins at hold ⊢
    by_cases hji : j = i
    · -- neither its old block nor its new one is pinned
      have hbnot : bf.blockno ∉ pinned := by
        intro hb
        obtain ⟨k, hk, hd, hn, -⟩ := h.pinned hb
        exact hnew hk hd hn
      subst hji
      rw [if_neg fun hp => hnopin hp.1 hp.2] at hold
      simp only [hself, hbnot, and_false, if_false, href]
      exact h0.symm.trans hold
    · simp only [hbuf hji]
      exact hold
  · obtain ⟨j, hj, hd, hn, hv⟩ := h.pinned hb'
    have hji : j ≠ i := by
      rintro rfl
      exact hnopin hd (hn ▸ hb')
    refine ⟨j, hj, ?_⟩
    simp only [hbuf hji]
    exact ⟨hd, hn, hv⟩

theorem Books.bget (h : Books s pinned) (hx : s.use[u]? = some .idle)
    (hb : Bio.bget s.cache s.dev b = some (i, c)) :
    Books (s.move u (.waiting s.dev b i) c) pinned := by
  unfold Bio.bget at hb
  split at hb
  · rename_i hc
    cases hb
    obtain ⟨hmem, hd, hn⟩ := cached_some hc
    exact h.hit hx ((h.lru i).mp hmem) hd hn
  rename_i hc
  split at hb <;> cases hb
  rename_i hu
  obtain ⟨hmem, h0⟩ := unused_some hu
  have hi : i < nbuf := (h.lru i).mp hmem
  have hr := (h.recycle hi h0 { s.cache.buf i with
      dev := s.dev, blockno := b, valid := false, refcnt := 0 } rfl
    rfl fun hj hd hb => cached_none hc ((h.lru _).mpr hj) ⟨hd, hb⟩).hit hx
      hi (congrArg Buf.dev (setBuf_self ..)) (congrArg Buf.blockno (setBuf_self ..))
  simp only [Io.move, setBuf_self, setBuf_setBuf] at hr
  exact hr

theorem unref_buf (c : Bcache β) (i : Nat) : (Bio.unref c i).buf
    = (c.setBuf i { c.buf i with refcnt := (c.buf i).refcnt - 1 }).buf := by
  unfold Bio.unref
  dsimp only
  split <;> rfl

/-- brelse's second half. -/
theorem Books.unref (h : Books s pinned)
    (hx : s.use[u]? = some (.unlocked dev b i)) :
    Books (s.move u .idle (Bio.unref s.cache i)) pinned := by
  obtain ⟨hi, -⟩ := h.spots hx rfl
  have hmem : i ∈ s.cache.lru := (h.lru i).mpr hi
  have hpos := Io.uses_pos hx (i := i) rfl
  have hrefs := h.refs hi
  have hbuf := unref_buf s.cache i
  have hlru : ∀ j, j ∈ (Bio.unref s.cache i).lru ↔ j ∈ s.cache.lru := by
    intro j
    unfold Bio.unref
    dsimp only
    split
    · by_cases hj : j = i
      · subst hj
        exact iff_of_true List.mem_cons_self hmem
      · rw [List.mem_cons, List.mem_erase_of_ne hj]
        exact or_iff_right hj
    · rfl
  refine h.move hx
    { lru := hlru
      other := fun j hj => by rw [hbuf, setBuf_of_ne _ _ hj]
      dev := by rw [hbuf, setBuf_self]
      blockno := by rw [hbuf, setBuf_self]
      refcnt := ?_
      before := fun j hj => (Option.some.inj hj).symm
      spot := nofun
      valid := fun hv => by rw [hbuf, setBuf_self]; exact hv
      reads := nofun
      owns := nofun
      lock := .inr ⟨by rw [hbuf, setBuf_self], rfl⟩ }
  have hw : (Use.unlocked dev b i).buf = some i := rfl
  rw [hbuf, setBuf_self, if_pos hw]
  exact Nat.sub_add_cancel (by omega)

theorem Books.tweak (h : Books s pinned) (hx : s.use[u]? = some x)
    (hs : x.spot = some (dev, b, i)) (hs' : y.spot = some (dev, b, i))
    {bf : Buf β} (hdev : bf.dev = (s.cache.buf i).dev)
    (hno : bf.blockno = (s.cache.buf i).blockno)
    (href : bf.refcnt = (s.cache.buf i).refcnt)
    (hvalid : (s.cache.buf i).valid = true → bf.valid = true)
    (hread : ∀ j, y.reads = some j → bf.valid = true)
    (hown : ∀ j, y.owns = some j → bf.locked = true)
    (hlock : (∀ {v : Nat} {z : Use}, v ≠ u → s.use[v]? = some z → z.owns ≠ some i)
      ∨ bf.locked = (s.cache.buf i).locked ∧ y.owns = none) :
    Books (s.move u y (s.cache.setBuf i bf)) pinned := by
  obtain ⟨hi, hd, hbd, hbn⟩ := h.spots hx hs
  have hself := setBuf_self s.cache i bf
  refine h.move hx
    { lru := fun _ => Iff.rfl
      other := fun j hj => setBuf_of_ne _ _ hj
      dev := by rw [hself, hdev]
      blockno := by rw [hself, hno]
      refcnt := by
        rw [hself, href, Use.buf_of_spot hs, Use.buf_of_spot hs']
      before := fun j hj =>
        (Option.some.inj ((Use.buf_of_spot hs).symm.trans hj)).symm
      spot := fun hsp => ?_
      valid := fun hv => by rw [hself]; exact hvalid hv
      reads := fun j hj => by rw [hself]; exact hread j hj
      owns := fun j hj => by rw [hself]; exact hown j hj
      lock := by rw [hself]; exact hlock }
  cases hs'.symm.trans hsp
  exact ⟨rfl, hi, hd, hbd, hbn⟩

theorem Books.alone (h : Books s pinned) (hx : s.use[u]? = some x)
    (ho : x.owns = some i) (hne : v ≠ u) (hv : s.use[v]? = some y) : y.owns ≠ some i :=
  fun hy => hne (h.own hv hx hy ho)

/-- A free lock has nobody. -/
theorem Books.unlocked (h : Books s pinned)
    (hl : (s.cache.buf i).locked = false) (hv : s.use[v]? = some y) : y.owns ≠ some i :=
  fun hy => absurd (hl.symm.trans (h.locks hv hy)) nofun

/-- The acts that do not pin. -/
def Act.pins : Act β → Bool
  | .logWrite => true
  | _ => false

/-- An act on the log's device. -/
def Act.onDev (a : Act β) (dev : Nat) : Prop :=
  match a with
  | .bget d _ => d = dev
  | _ => True

theorem Books.toDisk (h : Books s pinned) (b : Nat) (x : β) : Books (s.toDisk b x) pinned :=
  { h with }

/-- A buffer that has been written is no longer dirty. -/
theorem Books.written (h : Books s pinned) {d : Bool} (hx : s.use[u]? = some (.held dev b i d)) :
    Books (s.move u (.held dev b i false) s.cache) pinned := by
  have hm := h.tweak hx (y := .held dev b i false) rfl rfl rfl rfl rfl id
    (fun _ _ => h.reads hx rfl) (fun _ _ => h.locks hx rfl) (.inl (h.alone hx rfl))
  rw [setBuf_buf] at hm
  exact hm

/-- What each act does, when it happens. -/
inductive Io.Acted (s : Io β) (u : Nat) : Act β → Io β → Prop where
  | bget {dev b i : Nat} {c : Bcache β} (hx : s.use[u]? = some .idle)
      (hget : Bio.bget s.cache dev b = some (i, c)) :
      s.Acted u (.bget dev b) (s.move u (.waiting dev b i) c)
  | acquire {dev b i : Nat} (hx : s.use[u]? = some (.waiting dev b i))
      (hfree : (s.cache.buf i).locked = false) :
      s.Acted u .acquire (s.move u (.locked dev b i)
        (s.cache.setBuf i { s.cache.buf i with locked := true }))
  | valid {dev b i : Nat} (hx : s.use[u]? = some (.locked dev b i))
      (hv : (s.cache.buf i).valid = true) :
      s.Acted u .fill (s.move u (.held dev b i false) (s.cache.setBuf i (s.cache.buf i)))
  | fill {dev b i : Nat} (hx : s.use[u]? = some (.locked dev b i))
      (hv : (s.cache.buf i).valid = false) :
      s.Acted u .fill (s.move u (.held dev b i false)
        (s.cache.setBuf i { s.cache.buf i with
          data := s.disk (s.cache.buf i).blockno, valid := true }))
  | modify {dev b i : Nat} {d : Bool} {x : β}
      (hx : s.use[u]? = some (.held dev b i d)) :
      s.Acted u (.modify x) (s.move u (.held dev b i true)
        (s.cache.setBuf i { s.cache.buf i with data := x }))
  | bwrite {dev b i : Nat} {d : Bool}
      (hx : s.use[u]? = some (.held dev b i d)) :
      s.Acted u .bwrite ((s.toDisk (s.cache.buf i).blockno
        (s.cache.buf i).data).move u (.held dev b i false) s.cache)
  | logWrite {dev b i : Nat} {d : Bool}
      (hx : s.use[u]? = some (.held dev b i d))
      (hlen : s.lh.length < logBlocks) (hop : 0 < s.outstanding) :
      s.Acted u .logWrite ((s.record i).move u (.held dev b i false) (s.record i).cache)
  | unlock {dev b i : Nat} (hx : s.use[u]? = some (.held dev b i false)) :
      s.Acted u .unlock (s.move u (.unlocked dev b i)
        (s.cache.setBuf i { s.cache.buf i with locked := false }))
  | unref {dev b i : Nat} (hx : s.use[u]? = some (.unlocked dev b i)) :
      s.Acted u .unref (s.move u .idle (Bio.unref s.cache i))

theorem Io.acted (ha : s.act u a = some s') : s.Acted u a s' := by
  unfold Io.act at ha
  split at ha
  case h_1 hx =>
    obtain ⟨r, hget, rfl⟩ := Option.map_eq_some_iff.mp ha
    exact .bget hx hget
  case h_2 hx =>
    split at ha
    · cases ha
    · rename_i hl
      cases ha
      exact .acquire hx (Bool.eq_false_iff.mpr hl)
  case h_3 i hx =>
    cases ha
    split
    · rename_i hv
      have hm := Io.Acted.valid hx hv
      rw [setBuf_buf] at hm
      exact hm
    · rename_i hv
      exact .fill hx (Bool.eq_false_iff.mpr hv)
  case h_6 hx =>
    split at ha
    · cases ha
    · cases ha
      exact .logWrite hx (by omega) (by omega)
  case h_9 => cases ha
  all_goals cases ha
  case h_4 hx => exact .modify hx
  case h_5 hx => exact .bwrite hx
  case h_7 hx => exact .unlock hx
  case h_8 hx => exact .unref hx

/-- Every act but log_write keeps the books. -/
theorem Books.act (h : Books s pinned)
    (ha : s.act u a = some s') (hdev : a.onDev s.dev) (hp : a.pins = false) : Books s' pinned := by
  cases Io.acted ha with
  | bget hx hget =>
    cases hdev
    exact h.bget hx hget
  | acquire hx hfree =>
    exact h.tweak hx rfl rfl rfl rfl rfl id nofun (fun _ _ => rfl) (.inl fun _ => h.unlocked hfree)
  | valid hx hv =>
    exact h.tweak hx rfl rfl rfl rfl rfl id (fun _ _ => hv)
      (fun _ _ => h.locks hx rfl) (.inl (h.alone hx rfl))
  | fill hx =>
    exact h.tweak hx rfl rfl rfl rfl rfl (fun _ => rfl) (fun _ _ => rfl)
      (fun _ _ => h.locks hx rfl) (.inl (h.alone hx rfl))
  | modify hx =>
    exact h.tweak hx rfl rfl rfl rfl rfl id (fun _ _ => h.reads hx rfl)
      (fun _ _ => h.locks hx rfl) (.inl (h.alone hx rfl))
  | bwrite hx => exact (h.written hx).toDisk _ _
  | logWrite => cases hp
  | unlock hx =>
    exact h.tweak hx rfl rfl rfl rfl rfl id nofun nofun (.inl (h.alone hx rfl))
  | unref hx => exact h.unref hx

-- == pins

theorem Books.recount (h : Books s pinned) {l : List Nat} {n : Nat}
    (hself : n = s.uses i + s.pins pinned' i)
    (hother : ∀ {j}, j < nbuf → j ≠ i → s.pins pinned' j = s.pins pinned j)
    (hpinned : ∀ {b}, b ∈ pinned' → ∃ j, j < nbuf
      ∧ (s.cache.buf j).dev = s.dev ∧ (s.cache.buf j).blockno = b ∧ (s.cache.buf j).valid = true) :
    Books { s with
      cache := s.cache.setBuf i { s.cache.buf i with refcnt := n }, lh := l } pinned' := by
  generalize hc : s.cache.setBuf i { s.cache.buf i with refcnt := n } = c
  have hlru : c.lru = s.cache.lru := hc ▸ rfl
  have hbuf := fun j => hc ▸ setBuf_refcnt s.cache i n j
  have hpins : ∀ m j, Io.pins { s with cache := c, lh := l } m j = s.pins m j := by
    intro m j
    unfold Io.pins
    simp only [hbuf]
  refine ⟨h.dev, fun j => ?_, fun {j} hj => ?_, fun {j k} hj hk hd hd' hb => ?_,
    fun {u dev b j x} hx hs => ?_, fun {u j x} hx ho => ?_,
    fun {u j x} hx ho => ?_, h.own, fun {j} hj => ?_, fun {b} hb => ?_⟩
  · rw [← h.lru j, ← hlru]
  · simp only [hbuf]
    exact h.devs hj
  · simp only [hbuf] at hd hd' hb
    exact h.one hj hk hd hd' hb
  · simp only [hbuf]
    exact h.spots hx hs
  · simp only [hbuf]
    exact h.locks hx ho
  · simp only [hbuf]
    exact h.reads hx ho
  · rw [hpins]
    rw [← hc]
    by_cases hji : j = i
    · rw [hji, setBuf_self]
      exact hself
    · rw [setBuf_of_ne _ _ hji, hother hj hji]
      exact h.refs hj
  · simp only [hbuf]
    exact hpinned hb

theorem Io.pins_self (hd : (s.cache.buf i).dev = s.dev) :
    s.pins pinned i = if (s.cache.buf i).blockno ∈ pinned then 1 else 0 := by
  unfold Io.pins
  simp only [hd, true_and]

/-- The pins of the other buffers, which are of other blocks. -/
theorem Books.pins_of_ne (h : Books s pinned) (hi : i < nbuf)
    (hd : (s.cache.buf i).dev = s.dev)
    (hmem : ∀ b, b ≠ (s.cache.buf i).blockno → (b ∈ pinned' ↔ b ∈ pinned)) {j : Nat}
    (hj : j < nbuf) (hji : j ≠ i) : s.pins pinned' j = s.pins pinned j := by
  refine if_congr (and_congr_right fun hdj => hmem _ ?_) rfl rfl
  exact fun he => hji (h.one hj hi hdj hd he)

/-- log_write's bpin. -/
theorem Books.pin (h : Books s pinned) (hi : i < nbuf)
    (hd : (s.cache.buf i).dev = s.dev) (hv : (s.cache.buf i).valid = true)
    (hnot : (s.cache.buf i).blockno ∉ pinned) (lh : List Nat) :
    Books { s with cache := bpin s.cache i, lh } (pinned ++ [(s.cache.buf i).blockno]) := by
  refine h.recount ?_ (fun {j} hj hji => ?_) (fun {b} hb => ?_)
  · have hold := h.refs hi
    rw [Io.pins_self hd, if_neg hnot] at hold
    rw [Io.pins_self hd, if_pos (by simp)]
    omega
  · exact h.pins_of_ne hi hd (fun b hne => by simp [hne]) hj hji
  · rcases List.mem_append.mp hb with hb | hb
    · exact h.pinned hb
    · exact ⟨i, hi, hd, (List.mem_singleton.mp hb).symm, hv⟩

/-- install_trans's bunpin. -/
theorem Books.unpin (h : Books s pinned) (hi : i < nbuf) (hd : (s.cache.buf i).dev = s.dev)
    (hin : (s.cache.buf i).blockno ∈ pinned) :
    Books { s with cache := Bio.bunpin s.cache i }
      (pinned.filter (· ≠ (s.cache.buf i).blockno)) := by
  refine h.recount ?_ (fun {j} hj hji => ?_) (fun {b} hb => ?_)
  · have hold := h.refs hi
    rw [Io.pins_self hd, if_pos hin] at hold
    rw [Io.pins_self hd, if_neg (by simp)]
    omega
  · exact h.pins_of_ne hi hd (fun b hne => by simp [hne]) hj hji
  · exact h.pinned (List.mem_filter.mp hb).1

-- == buffers in use

/-- The blocks that are pinned or have a user. -/
def Io.inUse (s : Io β) (pinned : List Nat) : List Nat :=
  pinned ++ s.use.filterMap fun x => x.spot.map fun d => d.2.1

theorem Io.exists_user (h : 0 < s.uses i) :
    ∃ (u : Nat) (x : Use), s.use[u]? = some x ∧ x.buf = some i := by
  by_contra hno
  have hzero : s.uses i = 0 := by
    refine List.sum_eq_zero fun n hn => ?_
    obtain ⟨x, hx, rfl⟩ := List.mem_map.mp hn
    obtain ⟨u, hu⟩ := List.mem_iff_getElem?.mp hx
    exact if_neg fun hb => hno ⟨u, x, hu, hb⟩
  omega

theorem mem_inUse : b ∈ s.inUse pinned ↔ b ∈ pinned
    ∨ ∃ (u : Nat) (x : Use) (dev i : Nat), s.use[u]? = some x ∧ x.spot = some (dev, b, i) := by
  rw [Io.inUse, List.mem_append, List.mem_filterMap]
  refine or_congr_right ⟨?_, ?_⟩
  · rintro ⟨x, hx, hs⟩
    obtain ⟨u, hu⟩ := List.mem_iff_getElem?.mp hx
    obtain ⟨⟨dev, b', i⟩, hspot, rfl⟩ := Option.map_eq_some_iff.mp hs
    exact ⟨u, x, dev, i, hu, hspot⟩
  · rintro ⟨u, x, dev, i, hu, hs⟩
    exact ⟨x, List.mem_of_getElem? hu, by rw [hs]; rfl⟩

/-- A block in use has a buffer, with references. -/
theorem Books.inUse_buf (h : Books s pinned) (hb : b ∈ s.inUse pinned) :
    ∃ i, i < nbuf ∧ (s.cache.buf i).dev = s.dev
      ∧ (s.cache.buf i).blockno = b ∧ 0 < (s.cache.buf i).refcnt := by
  rcases mem_inUse.mp hb with hp | ⟨u, x, dev, i, hx, hs⟩
  · obtain ⟨i, hi, hd, hn, -⟩ := h.pinned hp
    have hpin : s.pins pinned i = 1 := if_pos ⟨hd, hn ▸ hp⟩
    exact ⟨i, hi, hd, hn, by rw [h.refs hi]; omega⟩
  · obtain ⟨hi, -, hd, hn⟩ := h.spots hx hs
    have hpos := Io.uses_pos hx (Use.buf_of_spot hs)
    exact ⟨i, hi, hd, hn, by rw [h.refs hi]; omega⟩

/-- A buffer with references is that of a block in use. -/
theorem Books.block_inUse (h : Books s pinned) (hi : i < nbuf)
    (hpos : 0 < (s.cache.buf i).refcnt) : (s.cache.buf i).dev = s.dev
      ∧ (s.cache.buf i).blockno ∈ s.inUse pinned := by
  rw [h.refs hi] at hpos
  by_cases hu : 0 < s.uses i
  · obtain ⟨u, x, hx, hb⟩ := Io.exists_user hu
    obtain ⟨dev, b, hs⟩ := Use.spot_of_buf hb
    obtain ⟨-, -, hd, hn⟩ := h.spots hx hs
    exact ⟨hd, mem_inUse.mpr (.inr ⟨u, x, dev, i, hx, hn ▸ hs⟩)⟩
  have hp : 0 < s.pins pinned i := by omega
  unfold Io.pins at hp
  split at hp
  · rename_i hin
    exact ⟨hin.1, mem_inUse.mpr (.inl hin.2)⟩
  · omega

/-- As many blocks as buffers are in use. -/
theorem Books.inUse_card (h : Books s pinned) :
    ((Finset.range nbuf).filter fun i => 0 < (s.cache.buf i).refcnt).card
      = (s.inUse pinned).dedup.length := by
  rw [← List.card_toFinset]
  refine Finset.card_bij (fun i _ => (s.cache.buf i).blockno) ?_ ?_ ?_
  · intro i hi
    obtain ⟨hi, hpos⟩ := Finset.mem_filter.mp hi
    exact List.mem_toFinset.mpr (h.block_inUse (Finset.mem_range.mp hi) hpos).2
  · intro i hi j hj hb
    obtain ⟨hi, hpi⟩ := Finset.mem_filter.mp hi
    obtain ⟨hj, hpj⟩ := Finset.mem_filter.mp hj
    have hi := Finset.mem_range.mp hi
    have hj := Finset.mem_range.mp hj
    exact h.one hi hj (h.block_inUse hi hpi).1 (h.block_inUse hj hpj).1 hb
  · intro b hb
    obtain ⟨i, hi, -, hn, hpos⟩ := h.inUse_buf (List.mem_toFinset.mp hb)
    exact ⟨i, Finset.mem_filter.mpr ⟨Finset.mem_range.mpr hi, hpos⟩, hn⟩

/-- bget finds a buffer exactly if the block is in use, or fewer than NBUF
blocks are. -/
theorem Books.bget_isSome_iff (h : Books s pinned) (b : Nat) :
    (Bio.bget s.cache s.dev b).isSome = true
      ↔ b ∈ s.inUse pinned ∨ (s.inUse pinned).dedup.length < nbuf := by
  rw [← h.inUse_card]
  unfold Bio.bget
  cases hc : s.cache.cached s.dev b with
  | some i =>
    refine iff_of_true rfl ?_
    obtain ⟨hmem, hd, hn⟩ := cached_some hc
    have hi : i < nbuf := (h.lru i).mp hmem
    by_cases hpos : 0 < (s.cache.buf i).refcnt
    · exact .inl (hn ▸ (h.block_inUse hi hpos).2)
    · refine .inr (Nat.lt_of_lt_of_le (Finset.card_lt_card ?_)
        (Nat.le_of_eq (Finset.card_range nbuf)))
      exact Finset.filter_ssubset.mpr ⟨i, Finset.mem_range.mpr hi, hpos⟩
  | none =>
    have hnot : b ∉ s.inUse pinned := by
      intro hb
      obtain ⟨i, hi, hd, hn, -⟩ := h.inUse_buf hb
      exact cached_none hc ((h.lru i).mpr hi) ⟨hd, hn⟩
    cases hu : s.cache.unused with
    | some i =>
      obtain ⟨hmem, h0⟩ := unused_some hu
      refine iff_of_true rfl (.inr (Nat.lt_of_lt_of_le
        (Finset.card_lt_card ?_) (Nat.le_of_eq (Finset.card_range nbuf))))
      exact Finset.filter_ssubset.mpr ⟨i, Finset.mem_range.mpr ((h.lru i).mp hmem), by omega⟩
    | none =>
      refine iff_of_false nofun (not_or.mpr ⟨hnot, ?_⟩)
      rw [Finset.filter_true_of_mem fun i hi =>
        unused_none hu ((h.lru i).mpr (Finset.mem_range.mp hi))]
      exact Nat.lt_irrefl _

end

end Xv6Labs.Model.Bio
