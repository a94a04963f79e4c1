/-
What the buffers hold, in every run.

`Track` is the state with what was last written to each block (`latest`)
and the blocks that are pinned. `Plan` is what the committing process knows
at each of its calls; `commit_plan` says that it works out over all of
`commit`. That install_trans writes a block home is not counted as a write,
since it must not change what the block holds.
-/
import Xv6Labs.Proofs.BufferBooks

namespace Xv6Labs.Model.Bio

open Lib Function

variable {β : Type}
variable {b dev i start u : Nat} {x' : Use} {c : Bcache β} {a : Act β}
  {s' : Io β} {d : Bool} {l : List Nat} {p : Plan} {x : Spot}
  {latest : Nat → β} {todo : List Call}

-- == history

/-- The state, and what its history says. -/
structure Track (β : Type) where
  s : Io β
  latest : Nat → β
  pinned : List Nat

/-- A user writes what it has in hand. -/
def Track.note (r : Track β) (u : Nat) : Nat → β :=
  match r.s.inHand u with
  | some (b, x) => update r.latest b x
  | none => r.latest

/-- What was last written, after a call of the committing process. -/
def Track.latestCall (r : Track β) : Call → Nat → β
  | .bwrite 0 => r.note 0
  | _ => r.latest

/-- The pinned blocks after a call of the committing process. -/
def Track.pinnedCall (r : Track β) : Call → List Nat
  | .bunpin u =>
    match r.s.inHand u with
    | some (b, _) => r.pinned.filter (· ≠ b)
    | none => r.pinned
  | _ => r.pinned

/-- What was last written to each block, after an event. -/
def Track.latestAfter (r : Track β) : Event β → Nat → β
  | .user u .bwrite => r.note u
  | .user u .logWrite => r.note u
  | .commit => (r.s.todo.head?.map r.latestCall).getD r.latest
  | _ => r.latest

/-- The pinned blocks after an event. -/
def Track.pinnedAfter (r : Track β) : Event β → List Nat
  | .user u .logWrite =>
    match r.s.inHand u with
    | some (b, _) => if b ∈ r.s.lh then r.pinned else r.pinned ++ [b]
    | none => r.pinned
  | .commit => (r.s.todo.head?.map r.pinnedCall).getD r.pinned
  | _ => r.pinned

/-- One event, with the history. -/
def Track.next (h : HeadCodec β) (r : Track β) (e : Event β) : Option (Track β) :=
  (r.s.step h e).map fun s => ⟨s, r.latestAfter e, r.pinnedAfter e⟩

/-- The blocks of the log: its header and its data. -/
def InLog (start b : Nat) : Prop := start ≤ b ∧ b ≤ start + logBlocks

instance (start b : Nat) : Decidable (InLog start b) := inferInstanceAs (Decidable (_ ∧ _))

/-- Processes use the log's device, leave the log's blocks to the log, and
do not call bwrite on a block that is being committed. -/
def Polite (s : Io β) : Event β → Prop
  | .user _ (.bget dev _) => dev = s.dev
  | .user u .logWrite => ∀ d ∈ s.inHand u, ¬ InLog s.start d.1
  | .user u .bwrite => ∀ d ∈ s.inHand u, ¬ InLog s.start d.1 ∧ ¬ (s.committing = true ∧ d.1 ∈ s.lh)
  | _ => True

instance (s : Io β) (e : Event β) : Decidable (Polite s e) := by
  cases e with
  | user u a => cases a <;> unfold Polite <;> infer_instance
  | _ => unfold Polite; infer_instance

/-- A step of a polite run. -/
def PoliteStep (h : HeadCodec β) (r r' : Track β) : Prop := ∃ e, Polite r.s e ∧ r.next h e = some r'

/-- Boot, with nothing written yet. -/
def Track.boot (users dev start : Nat) (disk : Nat → β) : Track β :=
  ⟨.boot users dev start disk, disk, []⟩

-- == contents

/-- What buffers and disk hold. -/
structure Contents (s : Io β) (latest : Nat → β) (pinned : List Nat) : Prop where
  live : ∀ {i}, i < nbuf → (s.cache.buf i).valid = true → (s.cache.buf i).dev = s.dev
  data : ∀ {i}, i < nbuf → (s.cache.buf i).valid = true →
    (∀ {v : Nat} {y : Use}, s.use[v]? = some y → y.dirty ≠ some i) →
    (s.cache.buf i).data = latest (s.cache.buf i).blockno
  disk : ∀ {b}, b ∉ pinned → s.disk b = latest b

theorem Use.owns_of_dirty {x : Use} (h : x.dirty = some i) : x.owns = some i := by
  unfold Use.dirty at h
  split at h
  · exact h
  · cases h

theorem Use.buf_of_owns {x : Use} (h : x.owns = some i) : x.buf = some i := by
  obtain ⟨dev, b, hs⟩ := Use.spot_of_owns h
  exact Use.buf_of_spot hs

section
variable {s : Io β} {latest : Nat → β} {pinned : List Nat} {u : Nat} {x : Use}

theorem Io.use_move (hx : s.use[u]? = some x) : (s.move u x' c).use[u]? = some x' :=
  List.getElem?_set_self (List.getElem?_eq_some_iff.mp hx).1

theorem Contents.move (h : Contents s latest pinned) (hx : s.use[u]? = some x)
    (hbefore : ∀ j, x.buf = some j → j = i) {bf : Buf β} (hc : c.buf = (s.cache.setBuf i bf).buf)
    (hlive : i < nbuf → bf.valid = true → bf.dev = s.dev)
    (hself : i < nbuf → bf.valid = true → x'.dirty ≠ some i →
      (∀ {v : Nat} {y : Use}, v ≠ u → s.use[v]? = some y →
        y.dirty ≠ some i) → bf.data = latest bf.blockno) :
    Contents (s.move u x' c) latest pinned := by
  have hrest : ∀ {v}, v ≠ u → (s.move u x' c).use[v]? = s.use[v]? :=
    fun hne => List.getElem?_set_ne (Ne.symm hne)
  refine ⟨fun {j} hj hv => ?_, fun {j} hj hv hd => ?_, h.disk⟩
  all_goals
    simp only [Io.move, hc] at hv ⊢
    by_cases hji : j = i
  · rw [hji, setBuf_self] at hv ⊢
    exact hlive (hji ▸ hj) hv
  · rw [setBuf_of_ne _ _ hji] at hv ⊢
    exact h.live hj hv
  · subst hji
    rw [setBuf_self] at hv ⊢
    exact hself hj hv (hd (Io.use_move hx)) fun hne hy =>
      hd ((hrest hne).trans hy)
  rw [setBuf_of_ne _ _ hji] at hv ⊢
  refine h.data hj hv fun {v y} hy hdy => ?_
  by_cases hvu : v = u
  · subst hvu
    cases hx.symm.trans hy
    exact hji (hbefore j (Use.buf_of_owns (Use.owns_of_dirty hdy)))
  · exact hd ((hrest hvu).trans hy) hdy

theorem Contents.keep (h : Contents s latest pinned) (hx : s.use[u]? = some x)
    (hbefore : ∀ j, x.buf = some j → j = i) (hclean : x.dirty = none)
    {bf : Buf β} (hc : c.buf = (s.cache.setBuf i bf).buf) (hdev : bf.dev = (s.cache.buf i).dev)
    (hno : bf.blockno = (s.cache.buf i).blockno) (hvalid : bf.valid = (s.cache.buf i).valid)
    (hdata : bf.data = (s.cache.buf i).data) : Contents (s.move u x' c) latest pinned := by
  refine h.move hx hbefore hc (fun hi hv => ?_) fun hi hv _ hd => ?_
  · rw [hdev]
    exact h.live hi (hvalid ▸ hv)
  rw [hdata, hno]
  refine h.data hi (hvalid ▸ hv) fun {v y} hy hdy => ?_
  by_cases hvu : v = u
  · subst hvu
    cases hx.symm.trans hy
    exact absurd (hclean.symm.trans hdy) nofun
  · exact hd hvu hy hdy

/-- Reading a block that is not in a valid buffer. -/
theorem Contents.disk_of_invalid (h : Contents s latest pinned)
    (hb : Books s pinned) (hi : i < nbuf) (hd : (s.cache.buf i).dev = s.dev)
    (hv : (s.cache.buf i).valid = false) :
    s.disk (s.cache.buf i).blockno = latest (s.cache.buf i).blockno := by
  refine h.disk fun hin => ?_
  obtain ⟨j, hj, hdj, hnj, hvj⟩ := hb.pinned hin
  cases hb.one hj hi hdj hd hnj
  exact absurd (hv.symm.trans hvj) nofun

/-- The acts that write a block. -/
def Act.writes : Act β → Bool
  | .bwrite => true
  | .logWrite => true
  | _ => false

theorem Contents.act (h : Contents s latest pinned) (hb : Books s pinned)
    (ha : s.act u a = some s') (hdev : a.onDev s.dev) (hw : a.writes = false) :
    Contents s' latest pinned := by
  have hmine : ∀ {i j : Nat}, some i = some j → j = i := fun he => (Option.some.inj he).symm
  cases Io.acted ha with
  | bget hx hget =>
    cases hdev
    unfold bget at hget
    split at hget
    · cases hget
      exact h.keep hx (fun _ he => by cases he) rfl rfl rfl rfl rfl rfl
    · split at hget <;> cases hget
      exact h.move hx (fun _ he => by cases he) rfl (fun _ hv => absurd hv Bool.false_ne_true)
        fun _ hv => absurd hv Bool.false_ne_true
  | acquire hx => exact h.keep hx (fun _ => hmine) rfl rfl rfl rfl rfl rfl
  | valid hx => exact h.keep hx (fun _ => hmine) rfl rfl rfl rfl rfl rfl
  | fill hx hv =>
    obtain ⟨hi, -, hd, -⟩ := hb.spots hx rfl
    exact h.move hx (fun _ => hmine) rfl (fun _ _ => hd)
      fun _ _ _ _ => h.disk_of_invalid hb hi hd hv
  | modify hx =>
    exact h.move hx (fun _ => hmine) rfl
      (fun _ _ => (hb.spots hx rfl).2.2.1) fun _ _ hd => absurd rfl hd
  | bwrite => cases hw
  | logWrite => cases hw
  | unlock hx => exact h.keep hx (fun _ => hmine) rfl rfl rfl rfl rfl rfl
  | unref hx =>
    exact h.keep hx (fun _ => hmine) rfl (unref_buf ..) rfl rfl rfl rfl

/-- A user writes its buffer: nobody else has the block. -/
theorem Contents.write (h : Contents s latest pinned) (hb : Books s pinned)
    (hx : s.use[u]? = some (.held dev b i d)) {f : Nat → β}
    (hdisk : ∀ b', b' ∉ l → f b' = update latest b (s.cache.buf i).data b') :
    Contents { s.move u (.held dev b i false) s.cache with disk := f }
      (update latest b (s.cache.buf i).data) l := by
  obtain ⟨hi, -, hdev, hno⟩ := hb.spots hx rfl
  refine ⟨fun hj hv => h.live hj hv, fun {j} hj hv hd => ?_, hdisk _⟩
  by_cases hji : j = i
  · subst hji
    simp only [Io.move, hno, update_self]
  have hne : (s.cache.buf j).blockno ≠ b := fun he =>
    hji (hb.one hj hi (h.live hj hv) hdev (he.trans hno.symm))
  simp only [Io.move, update_of_ne hne]
  refine h.data hj hv fun {v y} hy hdy => ?_
  by_cases hvu : v = u
  · subst hvu
    cases hx.symm.trans hy
    exact hji (Option.some.inj (Use.owns_of_dirty hdy)).symm
  · refine hd (v := v) ?_ hdy
    exact (List.getElem?_set_ne (Ne.symm hvu)).trans hy

/-- bwrite writes it home as well. -/
theorem Contents.written (h : Contents s latest pinned) (hb : Books s pinned)
    (hx : s.use[u]? = some (.held dev b i d)) :
    Contents ((s.toDisk (s.cache.buf i).blockno (s.cache.buf i).data).move u
        (.held dev b i false) s.cache)
      (update latest b (s.cache.buf i).data) pinned := by
  refine h.write hb hx fun b' hb' => ?_
  simp only [Io.toDisk, (hb.spots hx rfl).2.2.2]
  by_cases hbb : b' = b
  · rw [hbb, update_self, update_self]
  · rw [update_of_ne hbb, update_of_ne hbb]
    exact h.disk hb'

/-- A change to a reference count and to the pinned blocks. -/
theorem Contents.recount (h : Contents s latest pinned) {n : Nat}
    {pinned' : List Nat} (hsub : ∀ b, b ∉ pinned' → b ∉ pinned ∨ s.disk b = latest b) :
    Contents { s with
      cache := s.cache.setBuf i { s.cache.buf i with refcnt := n }, lh := l } latest pinned' := by
  have hbuf := setBuf_refcnt s.cache i n
  refine ⟨fun {j} hj hv => ?_, fun {j} hj hv hd => ?_, fun {b} hb => ?_⟩
  · simp only [hbuf] at hv ⊢
    exact h.live hj hv
  · simp only [hbuf] at hv ⊢
    exact h.data hj hv hd
  · rcases hsub b hb with hb | hb
    · exact h.disk hb
    · exact hb

-- == one user

/-- What an act leaves alone. -/
structure Aside (s s' : Io β) (u : Nat) : Prop where
  dev : s'.dev = s.dev
  start : s'.start = s.start
  outstanding : s'.outstanding = s.outstanding
  committing : s'.committing = s.committing
  todo : s'.todo = s.todo
  use : ∀ {v}, v ≠ u → s'.use[v]? = s.use[v]?
  data : ∀ {v i : Nat} {y : Use}, v ≠ u → s.use[v]? = some y →
    y.owns = some i → (s'.cache.buf i).data = (s.cache.buf i).data

theorem Aside.move (hb : Books s pinned) (hx : s.use[u]? = some x)
    {bf : Buf β} (hc : c.buf = (s.cache.setBuf i bf).buf)
    (hdata : bf.data = (s.cache.buf i).data ∨ x.owns = some i) : Aside s (s.move u x' c) u := by
  refine ⟨rfl, rfl, rfl, rfl, rfl, fun hne => List.getElem?_set_ne (Ne.symm hne), ?_⟩
  intro v j y hne hy ho
  simp only [Io.move, hc]
  by_cases hji : j = i
  · subst hji
    rw [setBuf_self]
    exact hdata.resolve_right fun hox => hb.alone hx hox hne hy ho
  · rw [setBuf_of_ne _ _ hji]

theorem Io.act_aside (hb : Books s pinned) (ha : s.act u a = some s') : Aside s s' u := by
  cases Io.acted ha with
  | bget hx hget =>
    unfold bget at hget
    split at hget
    · cases hget
      exact .move hb hx rfl (.inl rfl)
    · split at hget <;> cases hget
      exact .move hb hx rfl (.inl rfl)
  | acquire hx => exact .move hb hx rfl (.inl rfl)
  | valid hx => exact .move hb hx rfl (.inl rfl)
  | fill hx => exact .move hb hx rfl (.inr rfl)
  | modify hx => exact .move hb hx rfl (.inr rfl)
  | bwrite => exact ⟨rfl, rfl, rfl, rfl, rfl,
      fun hne => List.getElem?_set_ne (Ne.symm hne), fun _ _ _ => rfl⟩
  | @logWrite dev b i d hx =>
    unfold Io.record
    split
    · exact ⟨rfl, rfl, rfl, rfl, rfl,
        fun hne => List.getElem?_set_ne (Ne.symm hne), fun _ _ _ => rfl⟩
    · have hm : Aside s (s.move u (.held dev b i false) (bpin s.cache i)) u :=
        .move hb hx rfl (.inl rfl)
      exact { hm with }
  | unlock hx => exact .move hb hx rfl (.inl rfl)
  | unref hx => exact .move hb hx (unref_buf ..) (.inl rfl)

theorem Io.act_lh (ha : s.act u a = some s') (hp : a.pins = false) : s'.lh = s.lh := by
  cases Io.acted ha with
  | logWrite => cases hp
  | _ => rfl

theorem Io.act_disk (ha : s.act u a = some s') (hw : a.writes = false) : s'.disk = s.disk := by
  cases Io.acted ha with
  | bwrite => cases hw
  | logWrite => cases hw
  | _ => rfl

theorem Io.inHand_held (hx : s.use[u]? = some (.held dev b i d)) :
    s.inHand u = some ((s.cache.buf i).blockno, (s.cache.buf i).data) := by
  rw [Io.inHand, hx]

-- == the plan

/-- Where one of the committing process's users is. -/
inductive Spot where
  | idle
  | waiting (b : Nat)
  | locked (b : Nat)
  | held (b : Nat)
  /-- the data is a copy of block `x` -/
  | copy (b x : Nat)
  | edited (b : Nat)
  | unlocked (b : Nat)
deriving DecidableEq

/-- What the committing process knows. -/
structure Plan where
  at0 : Spot
  at1 : Spot
  /-- the home block that a log block is a copy of -/
  copied : Nat → Option Nat
  /-- the last block that was written home -/
  home : Option Nat
  pinned : List Nat
  lh : List Nat

/-- Where a user is. -/
def Plan.spot (p : Plan) : Nat → Spot
  | 0 => p.at0
  | 1 => p.at1
  | _ => .idle

/-- Move a user. -/
def Plan.set (p : Plan) : Nat → Spot → Plan
  | 0, x => { p with at0 := x }
  | _, x => { p with at1 := x }

/-- What a call makes of the plan, if it may be made. -/
def Plan.call (start : Nat) (p : Plan) : Call → Option Plan
  | .bget u b =>
    if u < 2 ∧ p.spot u = .idle
        ∧ (p.at0 = .idle ∧ p.at1 = .idle ∨ b ∈ p.pinned) then
      some (p.set u (.waiting b))
    else none
  | .acquire u =>
    match p.spot u with
    | .waiting b => some (p.set u (.locked b))
    | _ => none
  | .fill u =>
    match p.spot u with
    | .locked b => some (p.set u (.held b))
    | _ => none
  | .memmove dst src =>
    match p.spot dst, p.spot src with
    | .held b, .held x =>
      if x ∈ p.lh ∨ InLog start x then some (p.set dst (.copy b x))
      else none
    | _, _ => none
  | .header u _ =>
    match p.spot u with
    | .held b => some (p.set u (.edited b))
    | _ => none
  | .bwrite 0 =>
    match p.at0, p.at1 with
    | .copy b x, .held _ =>
      if InLog start b ∧ x ∈ p.lh then
        some { p with at0 := .held b
                      copied := update p.copied b (some x) }
      else none
    | .edited b, .idle =>
      if InLog start b then
        some { p with at0 := .held b
                      copied := update p.copied b none }
      else none
    | _, _ => none
  | .bwrite 1 =>
    match p.at1 with
    | .copy b x =>
      if p.copied x = some b then
        some { p with at1 := .held b, home := some b }
      else none
    | _ => none
  | .bwrite _ => none
  | .bunpin u =>
    match p.spot u with
    | .held b =>
      if p.home = some b ∧ b ∈ p.pinned then
        some { p with pinned := p.pinned.filter (· ≠ b) }
      else none
    | _ => none
  | .unlock u =>
    match p.spot u with
    | .held b => some (p.set u (.unlocked b))
    | _ => none
  | .unref u =>
    match p.spot u with
    | .unlocked _ => some (p.set u .idle)
    | _ => none
  | .clear =>
    if p.pinned = [] ∧ p.at0 = .idle ∧ p.at1 = .idle then
      some { p with copied := fun _ => none, home := none, lh := [] }
    else none

/-- The plan over some calls. -/
def Plan.run (start : Nat) : Plan → List Call → Option Plan
  | p, [] => some p
  | p, c :: cs => (p.call start c).bind fun p => p.run start cs

/-- The plan before and after a commit. -/
def Plan.rest (lh : List Nat) : Plan :=
  { at0 := .idle, at1 := .idle, copied := fun _ => none, home := none, pinned := lh, lh }

end

/-- Both users have nothing. -/
structure Plan.Free (p : Plan) : Prop where
  at0 : p.at0 = .idle
  at1 : p.at1 = .idle

theorem Plan.Free.spot (h : p.Free) (u : Nat) : p.spot u = .idle := by
  match u with
  | 0 => exact h.at0
  | 1 => exact h.at1
  | _ + 2 => rfl

theorem Plan.set_set {y : Spot} : (p.set u x).set u y = p.set u y := by
  match u with
  | 0 => rfl
  | _ + 1 => rfl

theorem Plan.spot_set_self (hu : u < 2) : (p.set u x).spot u = x := by
  match u, hu with
  | 0, _ => rfl
  | 1, _ => rfl

/-- All of bread. -/
theorem bread_plan {cs : List Call} (hu : u < 2) (hidle : p.spot u = .idle)
    (hok : p.at0 = .idle ∧ p.at1 = .idle ∨ b ∈ p.pinned) :
    p.run start (breadCalls u b ++ cs) = (p.set u (.held b)).run start cs := by
  have hget : p.call start (.bget u b) = some (p.set u (.waiting b)) := if_pos ⟨hu, hidle, hok⟩
  show (p.call start (.bget u b)).bind (fun p => p.run start (.acquire u :: .fill u :: cs)) = _
  rw [hget]
  simp only [Plan.run, Plan.call, Plan.spot_set_self hu, Plan.set_set, Option.bind_some]

theorem turn_plan (start tail : Nat) (hp : p.Free) (hb : b ∈ p.pinned) (cs : List Call) :
    p.run start (breadCalls 0 (start + tail + 1) ++ (breadCalls 1 b ++ cs))
      = Plan.run start { p with
        at0 := .held (start + tail + 1), at1 := .held b } cs := by
  rw [bread_plan (u := 0) (by decide) hp.at0 (.inl ⟨hp.at0, hp.at1⟩)]
  exact bread_plan (by decide) hp.at1 (.inr hb)

theorem inLog_tail (start : Nat) {tail : Nat} (h : tail < logBlocks) :
    InLog start (start + tail + 1) := by
  unfold InLog
  omega

theorem writeLogTurn_plan (start tail : Nat) (hp : p.Free) (hb : b ∈ p.pinned)
    (hlh : b ∈ p.lh) (htail : tail < logBlocks) (cs : List Call) :
    p.run start (writeLogTurn start tail b ++ cs) = Plan.run start { p with
      copied := update p.copied (start + tail + 1) (some b) } cs := by
  simp only [writeLogTurn, List.append_assoc]
  rw [turn_plan start tail hp hb]
  simp only [List.cons_append, List.nil_append, Plan.run, Plan.call, Plan.set,
    Plan.spot, hlh, inLog_tail start htail, true_or, and_self, if_true,
    Option.bind_some, brelseCalls, hp.at0, hp.at1]

theorem installTurn_plan (start tail : Nat) (hp : p.Free) (hb : b ∈ p.pinned)
    (htail : tail < logBlocks) (hc : p.copied (start + tail + 1) = some b) (cs : List Call) :
    p.run start (installTurn start tail b ++ cs) = Plan.run start { p with
      home := some b, pinned := p.pinned.filter (· ≠ b) } cs := by
  simp only [installTurn, List.append_assoc]
  rw [turn_plan start tail hp hb]
  simp only [List.cons_append, List.nil_append, Plan.run, Plan.call, Plan.set,
    Plan.spot, hb, hc, inLog_tail start htail, or_true, and_self, if_true,
    Option.bind_some, brelseCalls, hp.at0, hp.at1]

theorem writeHead_plan (hp : p.Free) (cs : List Call) :
    p.run start (writeHead start l ++ cs) = Plan.run start { p with
      copied := update p.copied start none } cs := by
  obtain ⟨at0, at1, copied, home, pinned, lh⟩ := p
  obtain ⟨rfl, rfl⟩ := hp
  have hin : InLog start start := by
    unfold InLog
    omega
  simp only [writeHead, List.append_assoc]
  rw [bread_plan (by decide) rfl (.inl ⟨rfl, rfl⟩)]
  simp only [List.cons_append, List.nil_append, Plan.run, Plan.call, Plan.set,
    Plan.spot, hin, if_true, Option.bind_some]
  rfl

/-- write_log makes every log block a copy. -/
theorem writeLog_plan (start tail : Nat) (hp : p.Free)
    (hpin : ∀ b ∈ l, b ∈ p.pinned) (hlh : ∀ b ∈ l, b ∈ p.lh) (hlen : tail + l.length ≤ logBlocks) :
    ∃ copied, (∀ cs, p.run start (writeLog start tail l ++ cs)
        = Plan.run start { p with copied } cs)
      ∧ (∀ k, k < l.length → copied (start + tail + 1 + k) = l[k]?)
      ∧ ∀ x, x ≤ start + tail → copied x = p.copied x := by
  induction l generalizing tail p with
  | nil => exact ⟨p.copied, fun _ => rfl, nofun, fun _ _ => rfl⟩
  | cons b l ih =>
    have hturn := writeLogTurn_plan start tail hp
      (hpin b (by simp)) (hlh b (by simp)) (by simp at hlen; omega)
    obtain ⟨copied, hrun, hcop, hlow⟩ := ih (tail + 1) (p := { p with
        copied := update p.copied (start + tail + 1) (some b) })
      ⟨hp.at0, hp.at1⟩ (fun x hx => hpin x (by simp [hx]))
      (fun x hx => hlh x (by simp [hx])) (by simp at hlen ⊢; omega)
    refine ⟨copied, ?_, ?_, ?_⟩
    · intro cs
      rw [writeLog, List.append_assoc, hturn]
      exact hrun cs
    · intro k hk
      cases k with
      | zero =>
        rw [hlow _ (by omega)]
        exact update_self ..
      | succ k =>
        have := hcop k (by simp at hk; omega)
        rw [show start + tail + 1 + (k + 1) = start + (tail + 1) + 1 + k by
          omega, this]
        rfl
    · intro x hx
      rw [hlow x (by omega)]
      exact update_of_ne (by omega) ..

/-- install_trans unpins every block. -/
theorem installTrans_plan (start tail : Nat) (hp : p.Free)
    (hpin : ∀ b ∈ l, b ∈ p.pinned) (hnodup : l.Nodup) (hlen : tail + l.length ≤ logBlocks)
    (hcop : ∀ k, k < l.length → p.copied (start + tail + 1 + k) = l[k]?) :
    ∃ home, ∀ cs, p.run start (installTrans start tail l ++ cs)
      = Plan.run start { p with
        home, pinned := p.pinned.filter (· ∉ l) } cs := by
  induction l generalizing tail p with
  | nil =>
    have hfilter : p.pinned.filter (· ∉ ([] : List Nat)) = p.pinned := by
      simp
    exact ⟨p.home, fun cs => by rw [hfilter]; rfl⟩
  | cons b l ih =>
    have hturn := installTurn_plan start tail hp
      (hpin b (by simp)) (by simp at hlen; omega) (hcop 0 (by simp))
    obtain ⟨hbl, hnodup⟩ := List.nodup_cons.mp hnodup
    have hpin' : ∀ x ∈ l, x ∈ p.pinned.filter (· ≠ b) := by
      intro x hx
      refine List.mem_filter.mpr ⟨hpin x (by simp [hx]), ?_⟩
      simp only [decide_eq_true_eq]
      rintro rfl
      exact hbl hx
    have hcop' : ∀ k, k < l.length → p.copied (start + (tail + 1) + 1 + k) = l[k]? := by
      intro k hk
      have := hcop (k + 1) (by simp; omega)
      rw [show start + (tail + 1) + 1 + k = start + tail + 1 + (k + 1) by
        omega]
      exact this
    have hfilter : (p.pinned.filter (· ≠ b)).filter (· ∉ l) = p.pinned.filter (· ∉ b :: l) := by
      rw [List.filter_filter]
      refine List.filter_congr fun x _ => ?_
      by_cases hxb : x = b <;> by_cases hxl : x ∈ l <;> simp [hxb, hxl]
    obtain ⟨home, hrun⟩ := ih (tail + 1) (p := { p with
        home := some b, pinned := p.pinned.filter (· ≠ b) })
      ⟨hp.at0, hp.at1⟩ hpin' hnodup (by simp at hlen ⊢; omega) hcop'
    refine ⟨home, fun cs => ?_⟩
    rw [installTrans, List.append_assoc, hturn, ← hfilter]
    exact hrun cs

/-- The plan works out over all of commit. -/
theorem commit_plan (start : Nat) {lh : List Nat} (hnodup : lh.Nodup)
    (hlen : lh.length ≤ logBlocks) :
    ∃ p, (Plan.rest lh).run start (commit start lh) = some p ∧ p.Free
      ∧ p.pinned = [] ∧ p.lh = [] := by
  unfold commit
  split
  case isFalse h =>
    cases lh with
    | nil => exact ⟨_, rfl, ⟨rfl, rfl⟩, rfl, rfl⟩
    | cons b l => exact absurd (by simp) h
  case isTrue h =>
    obtain ⟨copied, hlog, hcop, -⟩ := writeLog_plan start 0
      (l := lh) (p := .rest lh) ⟨rfl, rfl⟩ (fun _ hb => hb) (fun _ hb => hb) (by omega)
    obtain ⟨home, hinst⟩ := installTrans_plan start 0
      (l := lh) (p := { Plan.rest lh with
        copied := update copied start none })
      ⟨rfl, rfl⟩ (fun _ hb => hb) hnodup (by omega) (fun k hk => by
        rw [← hcop k hk]
        exact update_of_ne (by omega) ..)
    have hnone : (Plan.rest lh).pinned.filter (· ∉ lh) = [] := by
      refine List.filter_eq_nil_iff.mpr fun b hb => ?_
      simpa using (show b ∈ lh from hb)
    rw [hnone] at hinst
    refine ⟨{ Plan.rest [] with
      copied := update (fun _ => none) start none }, ?_, ⟨rfl, rfl⟩, rfl, rfl⟩
    simp only [List.append_assoc]
    rw [hlog, writeHead_plan ⟨rfl, rfl⟩, hinst]
    exact (congrArg (Plan.run start (Plan.rest []))
      (List.append_nil _).symm).trans (writeHead_plan ⟨rfl, rfl⟩ [])

-- == the plan and the state

/-- A user of the committing process is where the plan says. -/
def Spot.Is (r : Track β) (u : Nat) : Spot → Prop
  | .idle => r.s.use[u]? = some .idle
  | .waiting b => ∃ i, r.s.use[u]? = some (.waiting r.s.dev b i)
  | .locked b => ∃ i, r.s.use[u]? = some (.locked r.s.dev b i)
  | .held b => ∃ i, r.s.use[u]? = some (.held r.s.dev b i false)
  | .copy b x => ∃ i, r.s.use[u]? = some (.held r.s.dev b i true)
      ∧ (r.s.cache.buf i).data = r.latest x
      ∧ (x ∈ r.s.lh ∨ InLog r.s.start x)
  | .edited b => ∃ i, r.s.use[u]? = some (.held r.s.dev b i true)
  | .unlocked b => ∃ i, r.s.use[u]? = some (.unlocked r.s.dev b i)

/-- What the plan says is so. -/
structure Agrees (p : Plan) (r : Track β) : Prop where
  spots : ∀ {u}, u < 2 → (p.spot u).Is r u
  copied : ∀ {l b}, p.copied l = some b → InLog r.s.start l ∧ b ∈ r.s.lh ∧ r.latest l = r.latest b
  home : ∀ {b}, p.home = some b → b ∈ r.s.lh ∧ r.s.disk b = r.latest b
  pinned : p.pinned = r.pinned
  lh : p.lh = r.s.lh
  sub : ∀ {b}, b ∈ p.pinned → b ∈ p.lh

section
variable {p : Plan} {r : Track β} {s' : Io β} {u v : Nat}

theorem Spot.Is.aside (hx : x.Is r v) (ha : Aside r.s s' u) (hne : v ≠ u)
    (hlh : s'.lh = r.s.lh) {pinned : List Nat}
    (hlatest : ∀ b, b ∈ r.s.lh ∨ InLog r.s.start b →
      latest b = r.latest b) : x.Is ⟨s', latest, pinned⟩ v := by
  cases x with
  | copy b x =>
    obtain ⟨i, hi, hd, hx⟩ := hx
    refine ⟨i, ?_, ?_, ?_⟩
    · rw [ha.use hne, ha.dev]
      exact hi
    · exact (ha.data hne hi rfl).trans (hd.trans (hlatest x hx).symm)
    · rw [hlh, ha.start]
      exact hx
  | idle => exact (ha.use hne).trans hx
  | _ =>
    obtain ⟨i, hi⟩ := hx
    refine ⟨i, ?_⟩
    rw [ha.use hne, ha.dev]
    exact hi

theorem Agrees.aside (h : Agrees p r) (ha : Aside r.s s' u) (hu : 2 ≤ u)
    (hlh : s'.lh = r.s.lh)
    (hlatest : ∀ b, b ∈ r.s.lh ∨ InLog r.s.start b → latest b = r.latest b)
    (hdisk : ∀ b, b ∈ r.s.lh → s'.disk b = r.s.disk b) :
    Agrees p ⟨s', latest, r.pinned⟩ where
  spots hv := (h.spots hv).aside ha (by omega) hlh hlatest
  copied {l b} hc := by
    obtain ⟨hl, hb, heq⟩ := h.copied hc
    dsimp only
    rw [ha.start, hlh, hlatest l (.inr hl), hlatest b (.inl hb)]
    exact ⟨hl, hb, heq⟩
  home {b} hb := by
    obtain ⟨hin, heq⟩ := h.home hb
    dsimp only
    rw [hlh, hdisk b hin, hlatest b (.inl hin)]
    exact ⟨hin, heq⟩
  pinned := h.pinned
  lh := h.lh.trans hlh.symm
  sub := h.sub

theorem Plan.spot_set_of_ne (hu : u < 2) (hv : v < 2) (hne : v ≠ u) :
    (p.set u x).spot v = p.spot v := by
  match u, v, hu, hv with
  | 0, 0, _, _ => exact absurd rfl hne
  | 0, 1, _, _ => rfl
  | 1, 0, _, _ => rfl
  | 1, 1, _, _ => exact absurd rfl hne

/-- One of the committing process's users acts, without writing. -/
theorem Agrees.act (h : Agrees p r) (hb : Books r.s r.pinned) (hu : u < 2)
    (ha : r.s.act u a = some s') (hw : a.writes = false) (hx : x.Is ⟨s', r.latest, r.pinned⟩ u) :
    Agrees (p.set u x) ⟨s', r.latest, r.pinned⟩ := by
  have haside := Io.act_aside hb ha
  have hlh : s'.lh = r.s.lh := Io.act_lh ha (by
    cases a <;> first | rfl | cases hw)
  have hset : (p.set u x).copied = p.copied ∧ (p.set u x).home = p.home
      ∧ (p.set u x).pinned = p.pinned ∧ (p.set u x).lh = p.lh := by
    match u, hu with
    | 0, _ => exact ⟨rfl, rfl, rfl, rfl⟩
    | 1, _ => exact ⟨rfl, rfl, rfl, rfl⟩
  obtain ⟨h1, h2, h3, h4⟩ := hset
  refine ⟨fun {v} hv => ?_, fun {l b} hc => ?_, fun {b} hh => ?_,
    h3.trans h.pinned, h4.trans (h.lh.trans hlh.symm),
    fun hb => h4 ▸ h.sub (h3 ▸ hb)⟩
  · by_cases hvu : v = u
    · subst hvu
      rw [Plan.spot_set_self hu]
      exact hx
    · rw [Plan.spot_set_of_ne hu hv hvu]
      exact (h.spots hv).aside haside hvu hlh fun _ _ => rfl
  · dsimp only
    rw [hlh, haside.start]
    exact h.copied (h1 ▸ hc)
  · dsimp only
    rw [hlh, Io.act_disk ha hw]
    exact h.home (h2 ▸ hh)

end

-- == calls

/-- The books, the contents and the plan. -/
structure Sound (p : Plan) (r : Track β) : Prop where
  books : Books r.s r.pinned
  contents : Contents r.s r.latest r.pinned
  agrees : Agrees p r

section
variable {p : Plan} {r : Track β} {s' : Io β} {u : Nat}

/-- What a user with a buffer writes. -/
theorem Sound.note (h : Sound p r) (hx : r.s.use[u]? = some (.held dev b i d)) :
    r.note u = update r.latest b (r.s.cache.buf i).data := by
  rw [Track.note, Io.inHand_held hx, (h.books.spots hx rfl).2.2.2]

theorem Sound.act (h : Sound p r) (hu : u < 2) (ha : r.s.act u a = some s')
    (hdev : a.onDev r.s.dev) (hw : a.writes = false)
    (hx : x.Is ⟨s', r.latest, r.pinned⟩ u) :
    Sound (p.set u x) ⟨s', r.latest, r.pinned⟩ where
  books := h.books.act ha hdev (by cases a <;> first | rfl | cases hw)
  contents := h.contents.act h.books ha hdev hw
  agrees := h.agrees.act h.books hu ha hw hx

/-- A user with a buffer is one of the two, and where the plan says. -/
theorem Sound.spot (h : Sound p r) (hs : p.spot u = x) (hx : x ≠ .idle) : u < 2 ∧ x.Is r u := by
  have hu : u < 2 := by
    match u with
    | 0 => omega
    | 1 => omega
    | _ + 2 => exact absurd hs.symm hx
  exact ⟨hu, hs ▸ h.agrees.spots hu⟩

theorem Sound.free_use (h : Sound p r) (hp : p.Free) (hu : u < 2) : r.s.use[u]? = some .idle := by
  have hspot := h.agrees.spots hu
  rw [hp.spot] at hspot
  exact hspot

theorem Sound.bget (h : Sound p r) (hu : u < 2) (hidle : p.spot u = .idle)
    (ha : r.s.act u (.bget r.s.dev b) = some s') :
    Sound (p.set u (.waiting b)) ⟨s', r.latest, r.pinned⟩ := by
  refine h.act hu ha rfl rfl ?_
  have hx : Spot.idle.Is r u := hidle ▸ h.agrees.spots hu
  simp only [Spot.Is] at hx
  simp only [Io.act, hx] at ha
  obtain ⟨⟨i, c⟩, -, rfl⟩ := Option.map_eq_some_iff.mp ha
  exact ⟨i, Io.use_move hx⟩

/-- A user that has not changed its buffer holds what was last written. -/
theorem Sound.clean (h : Sound p r) (hx : r.s.use[u]? = some (.held dev b i false)) :
    (r.s.cache.buf i).data = r.latest b := by
  obtain ⟨hi, -, -, hno⟩ := h.books.spots hx rfl
  rw [← hno]
  refine h.contents.data hi (h.books.reads hx rfl) fun {v y} hy hd => ?_
  have hvu := h.books.own hy hx (Use.owns_of_dirty hd) rfl
  subst hvu
  cases hx.symm.trans hy
  cases hd

theorem Sound.memmove (h : Sound p r) {dst src x : Nat} {d : Nat × β}
    (hd : p.spot dst = .held b) (hs : p.spot src = .held x)
    (hin : x ∈ r.s.lh ∨ InLog r.s.start x) (hhand : r.s.inHand src = some d)
    (ha : r.s.act dst (.modify d.2) = some s') :
    Sound (p.set dst (.copy b x)) ⟨s', r.latest, r.pinned⟩ := by
  obtain ⟨hu, i, hx⟩ := h.spot hd nofun
  obtain ⟨-, j, hy⟩ := h.spot hs nofun
  refine h.act hu ha trivial rfl ?_
  rw [Io.inHand_held hy] at hhand
  cases hhand
  simp only [Io.act, hx] at ha
  cases ha
  refine ⟨i, Io.use_move hx, ?_, hin⟩
  simp only [Io.move, setBuf_self]
  exact h.clean hy

/-- The log writes one of its own blocks. -/
theorem Sound.writeLog (h : Sound p r) (c : Option Nat)
    (hout : ∀ x, x ∈ r.s.lh → ¬ InLog r.s.start x)
    (hx : r.s.use[0]? = some (.held r.s.dev b i true))
    (h1 : ∀ b' x', p.at1 ≠ .copy b' x') (hb : InLog r.s.start b)
    (hc : ∀ x, c = some x → x ∈ r.s.lh ∧ (r.s.cache.buf i).data = r.latest x)
    (ha : r.s.act 0 .bwrite = some s') :
    Sound { p with at0 := .held b, copied := update p.copied b c } ⟨s', r.note 0, r.pinned⟩ := by
  have haside := Io.act_aside h.books ha
  obtain ⟨-, -, -, hno⟩ := h.books.spots hx rfl
  have hne : ∀ {x}, x ∈ r.s.lh → x ≠ b := fun hx he => hout _ hx (he ▸ hb)
  have hbooks := h.books.act ha trivial rfl
  have hlh := Io.act_lh ha rfl
  simp only [Io.act, hx] at ha
  cases ha
  rw [h.note hx]
  refine ⟨hbooks, h.contents.written h.books hx, fun {v} hv => ?_,
    fun {l x} hl => ?_, fun {x} hhome => ?_,
    h.agrees.pinned, h.agrees.lh.trans hlh.symm, h.agrees.sub⟩
  · match v, hv with
    | 0, _ => exact ⟨i, Io.use_move hx⟩
    | 1, hv =>
      have hspot := h.agrees.spots hv
      have hat : p.spot 1 = p.at1 := rfl
      rw [hat] at hspot
      cases hp : p.at1 with
      | copy b' x' => exact absurd hp (h1 b' x')
      | idle =>
        rw [hp] at hspot
        exact (haside.use (by decide)).trans hspot
      | _ =>
        rw [hp] at hspot
        obtain ⟨j, hj⟩ := hspot
        exact ⟨j, (haside.use (by decide)).trans hj⟩
  · show InLog r.s.start l ∧ x ∈ r.s.lh
      ∧ update r.latest b (r.s.cache.buf i).data l = update r.latest b (r.s.cache.buf i).data x
    dsimp only at hl
    by_cases hlb : l = b
    · subst hlb
      rw [update_self] at hl
      obtain ⟨hin, hdata⟩ := hc x hl
      rw [update_self, update_of_ne (hne hin)]
      exact ⟨hb, hin, hdata⟩
    · rw [update_of_ne hlb] at hl
      obtain ⟨hlog, hin, heq⟩ := h.agrees.copied hl
      rw [update_of_ne hlb, update_of_ne (hne hin)]
      exact ⟨hlog, hin, heq⟩
  · obtain ⟨hin, heq⟩ := h.agrees.home hhome
    simp only [Io.move, Io.toDisk, hno]
    rw [update_of_ne (hne hin), update_of_ne (hne hin)]
    exact ⟨hin, heq⟩

/-- The log writes a block home. -/
theorem Sound.writeHome (h : Sound p r) {x : Nat} (hs : p.spot 1 = .copy b x)
    (hc : p.copied x = some b) (ha : r.s.act 1 .bwrite = some s') :
    Sound { p with at1 := .held b, home := some b } ⟨s', r.latest, r.pinned⟩ := by
  obtain ⟨hu, i, hx, hdata, -⟩ := h.spot hs nofun
  obtain ⟨hlog, hin, heq⟩ := h.agrees.copied hc
  have haside := Io.act_aside h.books ha
  obtain ⟨-, -, -, hno⟩ := h.books.spots hx rfl
  have hsame : update r.latest b (r.s.cache.buf i).data = r.latest := by
    rw [hdata, heq, update_eq_self]
  have hbooks := h.books.act ha trivial rfl
  have hlh := Io.act_lh ha rfl
  simp only [Io.act, hx] at ha
  cases ha
  have hcont := h.contents.written h.books hx
  rw [hsame] at hcont
  refine ⟨hbooks, hcont, fun {v} hv => ?_, h.agrees.copied, fun {y} hy => ?_,
    h.agrees.pinned, h.agrees.lh.trans hlh.symm, h.agrees.sub⟩
  · match v, hv with
    | 0, hv =>
      exact (h.agrees.spots hv).aside haside (by decide) hlh fun _ _ => rfl
    | 1, _ => exact ⟨i, Io.use_move hx⟩
  · cases hy
    simp only [Io.move, Io.toDisk, hno, update_self]
    exact ⟨hin, hdata.trans heq⟩

theorem Sound.bunpin (h : Sound p r) (hx : r.s.use[u]? = some (.held r.s.dev b i false))
    (hhome : p.home = some b) (hin : b ∈ p.pinned) :
    Sound { p with pinned := p.pinned.filter (· ≠ b) }
      ⟨{ r.s with cache := Bio.bunpin r.s.cache i }, r.latest, r.pinned.filter (· ≠ b)⟩ := by
  obtain ⟨hi, -, hdev, hno⟩ := h.books.spots hx rfl
  have hpin := h.agrees.pinned
  have hbooks := h.books.unpin hi hdev (by rw [hno, ← hpin]; exact hin)
  rw [hno] at hbooks
  have hdata : ∀ j, ((Bio.bunpin r.s.cache i).buf j).data
      = (r.s.cache.buf j).data := fun j => (setBuf_refcnt _ i _ j).2.2.2.2
  refine ⟨hbooks, h.contents.recount fun b' hb' => ?_,
    fun {v} hv => ?_, h.agrees.copied, h.agrees.home, by rw [← hpin],
    h.agrees.lh, fun hb => h.agrees.sub (List.mem_filter.mp hb).1⟩
  · by_cases hbb : b' = b
    · exact .inr (hbb ▸ (h.agrees.home hhome).2)
    · refine .inl fun hmem => hb' (List.mem_filter.mpr ⟨hmem, ?_⟩)
      exact decide_eq_true hbb
  have hspot : (p.spot v).Is r v := h.agrees.spots hv
  show (p.spot v).Is _ v
  cases hp : p.spot v with
  | copy b' x' =>
    rw [hp] at hspot
    obtain ⟨j, hj, hd, hx'⟩ := hspot
    exact ⟨j, hj, (hdata j).trans hd, hx'⟩
  | _ =>
    rw [hp] at hspot
    exact hspot

/-- What a call of the commit leaves alone. -/
structure Steady (s s' : Io β) : Prop where
  dev : s'.dev = s.dev
  start : s'.start = s.start
  outstanding : s'.outstanding = s.outstanding
  committing : s'.committing = s.committing
  todo : s'.todo = s.todo
  use : ∀ {v}, 2 ≤ v → s'.use[v]? = s.use[v]?
  lh : s'.lh = s.lh ∨ s'.lh = []

theorem Aside.steady {s : Io β} (h : Aside s s' u) (hu : u < 2)
    (hlh : s'.lh = s.lh) : Steady s s' :=
  ⟨h.dev, h.start, h.outstanding, h.committing, h.todo, fun hv => h.use (by omega), .inl hlh⟩

/-- Where the acts on one's own buffer take a user. -/
def Spot.after : Act β → Spot → Option Spot
  | .acquire, .waiting b => some (.locked b)
  | .fill, .locked b => some (.held b)
  | .modify _, .held b => some (.edited b)
  | .unlock, .held b => some (.unlocked b)
  | .unref, .unlocked _ => some .idle
  | _, _ => none

theorem Sound.own (h : Sound p r) {y : Spot} (hs : p.spot u = x)
    (ha : r.s.act u a = some s') (hy : x.after a = some y) :
    Sound (p.set u y) ⟨s', r.latest, r.pinned⟩ ∧ Steady r.s s' := by
  have haside := Io.act_aside h.books ha
  unfold Spot.after at hy
  split at hy <;> cases hy
  all_goals
    obtain ⟨hu, i, hx⟩ := h.spot hs nofun
    refine ⟨h.act hu ha trivial rfl ?_, haside.steady hu (Io.act_lh ha rfl)⟩
    simp only [Io.act, hx] at ha
    first | cases ha | (split at ha <;> cases ha)
    first | exact ⟨i, Io.use_move hx⟩ | exact Io.use_move hx

/-- Every call of the commit does what the plan says. -/
theorem Sound.call (h : Sound p r) (hd : HeadCodec β) {c : Call} {p' : Plan}
    (hout : ∀ x, x ∈ r.s.lh → ¬ InLog r.s.start x)
    (hp : p.call r.s.start c = some p') (ha : r.s.call hd c = some s') :
    Sound p' ⟨s', r.latestCall c, r.pinnedCall c⟩ ∧ Steady r.s s' := by
  have hsteady : ∀ {u} {a : Act β}, u < 2 → a.pins = false →
      r.s.act u a = some s' → Steady r.s s' := fun hu hpin hact =>
    (Io.act_aside h.books hact).steady hu (Io.act_lh hact hpin)
  cases c with
  | bget u b =>
    simp only [Plan.call] at hp
    split at hp <;> cases hp
    rename_i hc
    exact ⟨h.bget hc.1 hc.2.1 ha, hsteady hc.1 rfl ha⟩
  | memmove dst src =>
    simp only [Plan.call] at hp
    obtain ⟨d, hhand, hact⟩ := Option.bind_eq_some_iff.mp ha
    split at hp
    · rename_i b x hdst hsrc
      obtain ⟨hin, ⟨⟩⟩ := Option.ite_none_right_eq_some.mp hp
      exact ⟨h.memmove hdst hsrc (h.agrees.lh ▸ hin) hhand hact,
        hsteady (h.spot hdst nofun).1 rfl hact⟩
    · cases hp
  | header u l =>
    simp only [Plan.call] at hp
    obtain ⟨d, hhand, hact⟩ := Option.bind_eq_some_iff.mp ha
    split at hp <;> cases hp
    rename_i b hs
    exact h.own hs hact rfl
  | bwrite u =>
    match u with
    | 0 =>
      simp only [Plan.call] at hp
      have hst : Steady r.s s' := hsteady (by decide) rfl ha
      split at hp
      · rename_i b x y hs h1
        obtain ⟨hin, ⟨⟩⟩ := Option.ite_none_right_eq_some.mp hp
        obtain ⟨-, i, hx, hdata, -⟩ := h.spot (u := 0) hs nofun
        refine ⟨h.writeLog (some x) hout hx (by rw [h1]; exact nofun) hin.1
          (fun y hy => ?_) ha, hst⟩
        cases hy
        exact ⟨h.agrees.lh ▸ hin.2, hdata⟩
      · rename_i b hs h1
        obtain ⟨hin, ⟨⟩⟩ := Option.ite_none_right_eq_some.mp hp
        obtain ⟨-, i, hx⟩ := h.spot (u := 0) hs nofun
        exact ⟨h.writeLog none hout hx (by rw [h1]; exact nofun) hin nofun ha, hst⟩
      · cases hp
    | 1 =>
      simp only [Plan.call] at hp
      split at hp
      · rename_i b x hs
        obtain ⟨hc, ⟨⟩⟩ := Option.ite_none_right_eq_some.mp hp
        exact ⟨h.writeHome hs hc ha, hsteady (by decide) rfl ha⟩
      · cases hp
    | _ + 2 => cases hp
  | bunpin u =>
    simp only [Plan.call] at hp
    split at hp
    · rename_i b hs
      obtain ⟨hin, ⟨⟩⟩ := Option.ite_none_right_eq_some.mp hp
      obtain ⟨hu, i, hx⟩ := h.spot hs nofun
      simp only [Io.call, hx] at ha
      cases ha
      have hno := (h.books.spots hx rfl).2.2.2
      have hpin : r.pinnedCall (.bunpin u) = r.pinned.filter (· ≠ b) := by
        simp only [Track.pinnedCall, Io.inHand_held hx, hno]
      rw [hpin]
      exact ⟨h.bunpin hx hin.1 hin.2, rfl, rfl, rfl, rfl, rfl,
        fun _ => rfl, .inl rfl⟩
    · cases hp
  | clear =>
    obtain ⟨⟨hnone, h0, h1⟩, ⟨⟩⟩ := Option.ite_none_right_eq_some.mp hp
    cases ha
    refine ⟨⟨{ h.books with }, { h.contents with }, fun {v} hv => ?_, nofun,
      nofun, h.agrees.pinned, rfl, fun hb => hnone ▸ hb⟩,
      rfl, rfl, rfl, rfl, rfl, fun _ => rfl, .inr rfl⟩
    show (p.spot v).Is _ v
    rw [Plan.Free.spot ⟨h0, h1⟩]
    exact h.free_use ⟨h0, h1⟩ hv
  | _ =>
    simp only [Plan.call] at hp
    split at hp <;> cases hp
    rename_i b hs
    exact h.own hs ha rfl

end

-- == the runs

/-- What every polite run keeps. -/
structure Coherent (r : Track β) : Prop where
  nodup : r.s.lh.Nodup
  fits : r.s.lh.length ≤ logBlocks
  out : ∀ b, b ∈ r.s.lh → ¬ InLog r.s.start b
  idle : r.s.committing = false → r.s.todo = [] ∧ Sound (.rest r.s.lh) r
  busy : r.s.committing = true → r.s.outstanding = 0
    ∧ ∃ p q, Sound p r ∧ p.run r.s.start r.s.todo = some q ∧ q.Free ∧ q.pinned = [] ∧ q.lh = []

section
variable {r r' : Track β} {h : HeadCodec β} {u : Nat}

theorem Coherent.sound (hr : Coherent r) : ∃ p, Sound p r := by
  cases hc : r.s.committing with
  | false => exact ⟨_, (hr.idle hc).2⟩
  | true =>
    obtain ⟨-, p, q, hp, -⟩ := hr.busy hc
    exact ⟨p, hp⟩

theorem Polite.onDev (hp : Polite r.s (.user u a)) : a.onDev r.s.dev := by
  cases a with
  | bget dev b => exact hp
  | _ => trivial

theorem Track.latestAfter_reads (r : Track β) (u : Nat)
    (hw : a.writes = false) : r.latestAfter (.user u a) = r.latest := by
  cases a <;> first | rfl | cases hw

theorem Sound.user_contents (hs : Sound p r) (hp : Polite r.s (.user u a))
    (hpin : a.pins = false) (ha : r.s.act u a = some s') :
    Books s' r.pinned ∧ Contents s' (r.latestAfter (.user u a)) r.pinned := by
  refine ⟨hs.books.act ha hp.onDev hpin, ?_⟩
  cases hw : a.writes with
  | false =>
    rw [Track.latestAfter_reads r u hw]
    exact hs.contents.act hs.books ha hp.onDev hw
  | true =>
    cases Io.acted ha with
    | bwrite hx =>
      have hnote : r.latestAfter (.user u .bwrite) = _ := hs.note hx
      rw [hnote]
      exact hs.contents.written hs.books hx
    | logWrite => cases hpin
    | _ => cases hw

/-- A process's act during a commit. -/
theorem Sound.user_busy (hs : Sound p r) (hu : 2 ≤ u)
    (hp : Polite r.s (.user u a)) (hpin : a.pins = false)
    (hc : r.s.committing = true) (ha : r.s.act u a = some s') :
    Sound p ⟨s', r.latestAfter (.user u a), r.pinned⟩ := by
  obtain ⟨hb, hcont⟩ := hs.user_contents hp hpin ha
  refine ⟨hb, hcont, ?_⟩
  have haside := Io.act_aside hs.books ha
  have hlh := Io.act_lh ha hpin
  cases hw : a.writes with
  | false =>
    rw [Track.latestAfter_reads r u hw]
    refine hs.agrees.aside haside hu hlh (fun _ _ => rfl) fun b _ => ?_
    rw [Io.act_disk ha hw]
  | true =>
    cases Io.acted ha with
    | @bwrite _ b i _ hx =>
      have hno := (hs.books.spots hx rfl).2.2.2
      obtain ⟨hlog, hin⟩ := hp _ (Io.inHand_held hx)
      rw [hno] at hlog hin
      have hne : ∀ {x}, x ∈ r.s.lh ∨ InLog r.s.start x → x ≠ b := by
        rintro x (hxl | hxl) rfl
        · exact hin ⟨hc, hxl⟩
        · exact hlog hxl
      have hnote : r.latestAfter (.user u .bwrite) = _ := hs.note hx
      rw [hnote]
      refine hs.agrees.aside haside hu hlh (fun x hx => update_of_ne (hne hx) ..) fun x hx => ?_
      simp only [Io.move, Io.toDisk, hno]
      exact update_of_ne (hne (.inl hx)) ..
    | logWrite => cases hpin
    | _ => cases hw

/-- Between commits the plan says that the two users have nothing, and that
every logged block is pinned. -/
theorem agrees_rest {s : Io β} (h0 : s.use[0]? = some .idle)
    (h1 : s.use[1]? = some .idle) : Agrees (.rest s.lh) ⟨s, latest, s.lh⟩ where
  spots {u} hu := by
    match u, hu with
    | 0, _ => exact h0
    | 1, _ => exact h1
  copied := nofun
  home := nofun
  pinned := rfl
  lh := rfl
  sub := id

/-- And it says so after another user has acted. -/
theorem Sound.rest_after (hs : Sound (.rest l) r) (ha : Aside r.s s' u)
    (hu : 2 ≤ u) : Agrees (.rest s'.lh) ⟨s', latest, s'.lh⟩ :=
  agrees_rest ((ha.use (by omega)).trans (hs.free_use ⟨rfl, rfl⟩ (by decide)))
    ((ha.use (by omega)).trans (hs.free_use ⟨rfl, rfl⟩ (by decide)))

/-- A process's act between commits, other than log_write. -/
theorem Sound.user_idle (hs : Sound (.rest r.s.lh) r) (hu : 2 ≤ u)
    (hp : Polite r.s (.user u a)) (hpin : a.pins = false) (ha : r.s.act u a = some s') :
    Sound (.rest s'.lh) ⟨s', r.latestAfter (.user u a), r.pinned⟩ := by
  obtain ⟨hb, hcont⟩ := hs.user_contents hp hpin ha
  have haside := Io.act_aside hs.books ha
  have hpinned : r.pinned = s'.lh := hs.agrees.pinned.symm.trans (Io.act_lh ha hpin).symm
  refine ⟨hb, hcont, ?_⟩
  rw [hpinned]
  exact hs.rest_after haside hu

/-- log_write's bookkeeping. -/
theorem Sound.record (hs : Sound (.rest r.s.lh) r) (hx : r.s.use[u]? = some (.held dev b i d)) :
    Books (r.s.record i) (r.s.record i).lh
      ∧ Contents (r.s.record i) r.latest (r.s.record i).lh := by
  obtain ⟨hi, -, hdev, -⟩ := hs.books.spots hx rfl
  have hpin : r.pinned = r.s.lh := hs.agrees.pinned.symm
  have hb := hs.books
  have hc := hs.contents
  rw [hpin] at hb hc
  unfold Io.record
  split
  · exact ⟨hb, hc⟩
  · rename_i hnot
    refine ⟨hb.pin hi hdev (hb.reads hx rfl) hnot _, hc.recount ?_⟩
    exact fun b' hb' => .inl fun hin => hb' (List.mem_append_left _ hin)

theorem Sound.logWrite (hs : Sound (.rest r.s.lh) r) (hu : 2 ≤ u)
    (ha : r.s.act u .logWrite = some s') :
    Sound (.rest s'.lh) ⟨s', r.latestAfter (.user u .logWrite),
      r.pinnedAfter (.user u .logWrite)⟩ := by
  have haside := Io.act_aside hs.books ha
  cases Io.acted ha with | @logWrite dev b i d hx => ?_
  have hno := (hs.books.spots hx rfl).2.2.2
  have hpin : r.pinned = r.s.lh := hs.agrees.pinned.symm
  have hlatest : r.latestAfter (.user u .logWrite) = _ := hs.note hx
  have hrec : r.pinnedAfter (.user u .logWrite) = (r.s.record i).lh
      ∧ (r.s.record i).use = r.s.use ∧ b ∈ (r.s.record i).lh
      ∧ ((r.s.record i).cache.buf i).data = (r.s.cache.buf i).data := by
    simp only [Track.pinnedAfter, Io.inHand_held hx, Io.record, hno, hpin]
    split
    · rename_i hin
      exact ⟨rfl, rfl, hin, rfl⟩
    · refine ⟨rfl, rfl, by simp, ?_⟩
      simp only [bpin, setBuf_self]
  obtain ⟨hpinned, huse, hin, hdata⟩ := hrec
  obtain ⟨hb, hc⟩ := hs.record hx
  rw [← huse] at hx
  have hcm := hc.write hb hx (f := (r.s.record i).disk) fun b' hb' => by
      have hne : b' ≠ b := fun he => hb' (he ▸ hin)
      rw [update_of_ne hne]
      exact hc.disk hb'
  rw [hdata] at hcm
  rw [hlatest, hpinned]
  exact ⟨hb.written hx, hcm, hs.rest_after haside hu⟩

/-- The parts of the log that the books do not speak of. -/
theorem Sound.relabel (hs : Sound p r) (o : Nat) (c : Bool) (t : List Call) :
    Sound p { r with
      s := { r.s with outstanding := o, committing := c, todo := t } } where
  books := { hs.books with }
  contents := { hs.contents with }
  agrees := by
    refine { hs.agrees with spots := fun {v} hv => ?_ }
    have hspot := hs.agrees.spots hv
    cases hp : p.spot v with
    | _ =>
      rw [hp] at hspot
      exact hspot

/-- log_write adds one new block, that is not the log's. -/
theorem Coherent.log_lh (hr : Coherent r) (hp : Polite r.s (.user u .logWrite))
    (ha : r.s.act u .logWrite = some s') : s'.lh.Nodup
      ∧ s'.lh.length ≤ logBlocks ∧ ∀ b, b ∈ s'.lh → ¬ InLog s'.start b := by
  cases Io.acted ha with | logWrite hx hlen => ?_
  have hlog := hp _ (Io.inHand_held hx)
  simp only [Io.move, Io.record]
  split
  · exact ⟨hr.nodup, hr.fits, hr.out⟩
  rename_i hnot
  refine ⟨?_, ?_, fun b' hb' => ?_⟩
  · exact List.nodup_append.mpr ⟨hr.nodup, List.nodup_singleton _,
      fun x hx y hy hxy => hnot (List.mem_singleton.mp hy ▸ hxy ▸ hx)⟩
  · rw [List.length_append]
    exact hlen
  · rcases List.mem_append.mp hb' with hb' | hb'
    · exact hr.out b' hb'
    · rw [List.mem_singleton.mp hb']
      exact hlog

theorem Coherent.user (hr : Coherent r) (hu : 2 ≤ u)
    (hp : Polite r.s (.user u a)) (ha : r.s.act u a = some s') :
    Coherent ⟨s', r.latestAfter (.user u a), r.pinnedAfter (.user u a)⟩ := by
  obtain ⟨p, hs⟩ := hr.sound
  have haside := Io.act_aside hs.books ha
  cases hpin : a.pins with
  | true =>
    have ha' : a = .logWrite := by
      cases a <;> first | rfl | cases hpin
    subst ha'
    -- begin_op waits while a commit runs, so nobody is in an operation
    have hidle : r.s.committing = false := by
      refine Bool.eq_false_iff.mpr fun hc => ?_
      cases Io.acted ha with | logWrite _ _ hpos => ?_
      have := (hr.busy hc).1
      omega
    obtain ⟨hn, hf, ho⟩ := hr.log_lh hp ha
    refine ⟨hn, hf, ho, fun _ => ?_, fun hc => ?_⟩
    · exact ⟨haside.todo.trans (hr.idle hidle).1, (hr.idle hidle).2.logWrite hu ha⟩
    · exact absurd ((haside.committing.symm.trans hc).symm.trans hidle) nofun
  | false =>
    have hlh := Io.act_lh ha hpin
    have hpinned : r.pinnedAfter (.user u a) = r.pinned := by
      cases a <;> first | rfl | cases hpin
    rw [hpinned]
    refine ⟨hlh ▸ hr.nodup, hlh ▸ hr.fits, ?_, fun hc => ?_, fun hc => ?_⟩
    · intro b hb
      rw [haside.start]
      exact hr.out b (hlh ▸ hb)
    · have hidle := haside.committing.symm.trans hc
      exact ⟨haside.todo.trans (hr.idle hidle).1, (hr.idle hidle).2.user_idle hu hp hpin ha⟩
    have hbusy := haside.committing.symm.trans hc
    obtain ⟨h0, p, q, hs, hrun, hq⟩ := hr.busy hbusy
    refine ⟨haside.outstanding.trans h0, p, q, hs.user_busy hu hp hpin hbusy ha, ?_, hq⟩
    rw [haside.start, haside.todo]
    exact hrun

/-- The next call of the commit, and the plan for it. -/
theorem Coherent.next (hr : Coherent r) {c : Call}
    (htodo : r.s.todo = c :: todo) : r.s.committing = true
      ∧ r.s.outstanding = 0 ∧ ∃ p p' q, Sound p r
        ∧ p.call r.s.start c = some p' ∧ p'.run r.s.start todo = some q
        ∧ q.Free ∧ q.pinned = [] ∧ q.lh = [] := by
  have hbusy : r.s.committing = true := by
    by_contra hc
    rw [(hr.idle (Bool.eq_false_iff.mpr hc)).1] at htodo
    cases htodo
  obtain ⟨h0, p, q, hs, hrun, hq⟩ := hr.busy hbusy
  rw [htodo] at hrun
  obtain ⟨p', hcall, hrun⟩ := Option.bind_eq_some_iff.mp hrun
  exact ⟨hbusy, h0, p, p', q, hs, hcall, hrun, hq⟩

theorem Coherent.steady (hr : Coherent r) {c : Call} (htodo : r.s.todo = c :: todo)
    (ha : Io.call h { r.s with todo } c = some s') : Steady { r.s with todo } s' := by
  obtain ⟨-, -, p, p', q, hs, hcall, -⟩ := hr.next htodo
  exact ((hs.relabel r.s.outstanding r.s.committing todo).call h hr.out hcall ha).2

theorem Coherent.commit (hr : Coherent r) {c : Call} (htodo : r.s.todo = c :: todo)
    (ha : Io.call h { r.s with todo } c = some s') :
    Coherent ⟨s', r.latestCall c, r.pinnedCall c⟩ := by
  obtain ⟨hbusy, h0, p, p', q, hs, hcall, hrun, hq⟩ := hr.next htodo
  obtain ⟨hs', hst⟩ := (hs.relabel r.s.outstanding r.s.committing todo).call h hr.out hcall ha
  have hbusy' : s'.committing = true := hst.committing.trans hbusy
  have hlh : s'.lh.Nodup ∧ s'.lh.length ≤ logBlocks ∧ ∀ b, b ∈ s'.lh → ¬ InLog s'.start b := by
    rw [hst.start]
    rcases hst.lh with hl | hl
    · rw [hl]
      exact ⟨hr.nodup, hr.fits, hr.out⟩
    · rw [hl]
      exact ⟨List.nodup_nil, Nat.zero_le _, nofun⟩
  refine ⟨hlh.1, hlh.2.1, hlh.2.2, fun hc => ?_, fun _ => ?_⟩
  · exact absurd (hbusy'.symm.trans hc) nofun
  refine ⟨hst.outstanding.trans h0, p', q, hs', ?_, hq⟩
  rw [hst.start, hst.todo]
  exact hrun

theorem Coherent.endOp (hr : Coherent r) (ha : r.s.endOp = some s') :
    Coherent ⟨s', r.latest, r.pinned⟩ := by
  unfold Io.endOp at ha
  split at ha
  · cases ha
  rename_i hno
  have hidle := Bool.eq_false_iff.mpr fun hc => hno (.inr hc)
  obtain ⟨htodo, hs⟩ := hr.idle hidle
  split at ha
  · cases ha
    refine ⟨hr.nodup, hr.fits, hr.out, nofun, fun _ => ?_⟩
    obtain ⟨q, hq⟩ := commit_plan r.s.start hr.nodup hr.fits
    exact ⟨rfl, _, q, hs.relabel 0 true _, hq⟩
  cases ha
  refine { hr with
    idle := fun _ => ⟨htodo, hs.relabel _ r.s.committing r.s.todo⟩
    busy := fun hc => ?_ }
  exact absurd (hc.symm.trans hidle) nofun

/-- Every event of a polite run keeps it coherent. -/
theorem Coherent.step (hr : Coherent r) (hstep : PoliteStep h r r') : Coherent r' := by
  obtain ⟨e, hp, he⟩ := hstep
  obtain ⟨s', ha, rfl⟩ := Option.map_eq_some_iff.mp he
  cases e with
  | user u a =>
    simp only [Io.step] at ha
    split at ha
    · rename_i hu
      exact hr.user hu hp ha
    · cases ha
  | beginOp =>
    simp only [Io.step, Io.beginOp] at ha
    split at ha
    · cases ha
    rename_i hc
    split at ha
    · cases ha
    cases ha
    refine ⟨hr.nodup, hr.fits, hr.out, fun hc => ?_, fun hb => ?_⟩
    · obtain ⟨htodo, hs⟩ := hr.idle hc
      exact ⟨htodo, hs.relabel _ r.s.committing r.s.todo⟩
    · exact absurd hb hc
  | endOp => exact hr.endOp ha
  | commit =>
    simp only [Io.step] at ha
    split at ha
    · cases ha
    · next c todo htodo =>
      simp only [Track.latestAfter, Track.pinnedAfter, htodo]
      exact hr.commit htodo ha
  | commitEnd =>
    obtain ⟨hc, ⟨⟩⟩ := Option.ite_none_right_eq_some.mp ha
    obtain ⟨-, p, q, hs, hrun, hfree, hpin, hlh⟩ := hr.busy hc.1
    rw [hc.2] at hrun
    cases hrun
    have hempty : r.s.lh = [] := hs.agrees.lh.symm.trans hlh
    have hnopin : r.pinned = [] := hs.agrees.pinned.symm.trans hpin
    refine ⟨hr.nodup, hr.fits, hr.out, fun _ => ⟨hc.2, ?_⟩, nofun⟩
    have hs' := hs.relabel r.s.outstanding false r.s.todo
    refine ⟨hs'.books, hs'.contents, ?_⟩
    show Agrees (.rest r.s.lh) ⟨_, r.latest, r.pinned⟩
    rw [hnopin.trans hempty.symm]
    exact agrees_rest (s := { r.s with committing := false })
      (hs.free_use hfree (by decide)) (hs.free_use hfree (by decide))

theorem coherent_boot (users : Nat) (start : Nat) (hdev : dev ≠ 0)
    (disk : Nat → β) : Coherent (.boot users dev start disk) := by
  have huse : ∀ {u : Nat} {x : Use},
      (List.replicate (users + 2) Use.idle)[u]? = some x → x = .idle := by
    intro u x hx
    exact List.eq_of_mem_replicate (List.mem_of_getElem? hx)
  refine ⟨List.nodup_nil, Nat.zero_le _, nofun, fun _ => ⟨rfl, ?_⟩, nofun⟩
  refine ⟨⟨hdev, fun i => ?_, fun _ => .inl rfl, ?_, ?_, ?_, ?_, ?_, ?_,
    nofun⟩, ⟨nofun, fun _ hv => absurd hv nofun, fun _ => rfl⟩, agrees_rest rfl rfl⟩
  · exact List.mem_reverse.trans List.mem_range
  · exact fun _ _ hd => absurd hd.symm hdev
  · intro u d b i x hx hs
    cases huse hx
    cases hs
  · intro u i x hx ho
    cases huse hx
    cases ho
  · intro u i x hx ho
    cases huse hx
    cases ho
  · intro u v i x y hx _ ho
    cases huse hx
    cases ho
  intro i _
  have huses : (Track.boot users dev start disk).s.uses i = 0 := by
    refine List.sum_eq_zero fun n hn => ?_
    obtain ⟨x, hx, rfl⟩ := List.mem_map.mp hn
    cases List.eq_of_mem_replicate hx
    rfl
  have hpins : (Track.boot users dev start disk).s.pins [] i = 0 :=
    if_neg fun hp => absurd hp.2 List.not_mem_nil
  exact (congrArg₂ (· + ·) huses hpins).symm

theorem coherent_of_reaches {users : Nat} {disk : Nat → β} (hdev : dev ≠ 0)
    (hr : Reaches (PoliteStep h) (.boot users dev start disk) r) : Coherent r :=
  hr.inv (coherent_boot users start hdev disk) fun _ _ hc hs => hc.step hs

end

/-- In every polite run of processes and commits, with any evictions: a
user that got its buffer from bread and has not changed it holds what was
last written to the block; a block is in one buffer; and a buffer that bget
recycles has its contents at home. -/
theorem cache_is_transparent {h : HeadCodec β} {users dev start : Nat}
    {disk : Nat → β} (hdev : dev ≠ 0) {r : Track β}
    (hr : Reaches (PoliteStep h) (.boot users dev start disk) r) :
    (∀ u d b i : Nat, r.s.use[u]? = some (.held d b i false) →
      (r.s.cache.buf i).data = r.latest b)
    ∧ (∀ i j, i < nbuf → j < nbuf → (r.s.cache.buf i).dev ≠ 0 →
      (r.s.cache.buf i).dev = (r.s.cache.buf j).dev →
      (r.s.cache.buf i).blockno = (r.s.cache.buf j).blockno → i = j)
    ∧ (∀ b i c, bget r.s.cache r.s.dev b = some (i, c) →
      (r.s.cache.buf i).dev ≠ 0 → (r.s.cache.buf i).blockno ≠ b →
      r.s.disk (r.s.cache.buf i).blockno
        = r.latest (r.s.cache.buf i).blockno) := by
  obtain ⟨p, hs⟩ := (coherent_of_reaches hdev hr).sound
  refine ⟨fun u d b i hx => hs.clean hx, fun i j hi hj hd heq hb => ?_,
    fun b i c hget hd hne => ?_⟩
  · have hdi := (hs.books.devs hi).resolve_left hd
    exact hs.books.one hi hj hdi (heq.symm.trans hdi) hb
  unfold bget at hget
  split at hget
  · rename_i hc
    cases hget
    exact absurd (cached_some hc).2.2 hne
  split at hget
  · rename_i hu
    cases hget
    obtain ⟨hmem, h0⟩ := unused_some hu
    have hi := (hs.books.lru i).mp hmem
    exact hs.contents.disk
      ((hs.books.free hi h0).2 ((hs.books.devs hi).resolve_left hd))
  · cases hget

/-- A block is logged and released, and read again. -/
theorem cache_is_transparent_log : ∃ r : Track (Fin 256 → UInt32),
    Reaches (PoliteStep logHeader) (.boot 1 1 2 fun _ _ => 0) r
      ∧ r.s.use[2]? = some (.held 1 40 0 false)
      ∧ (r.s.cache.buf 0).data = r.latest 40 ∧ r.latest 40 0 = 7 := by
  have hrun : Reaches (PoliteStep logHeader) (.boot 1 1 2 fun _ _ => 0) _ :=
    (((((((((((Reaches.refl _).step
      ⟨.beginOp, trivial, rfl⟩).step ⟨.user 2 (.bget 1 40), rfl, rfl⟩).step
      ⟨.user 2 .acquire, trivial, rfl⟩).step
      ⟨.user 2 .fill, trivial, rfl⟩).step
      ⟨.user 2 (.modify fun _ => 7), trivial, rfl⟩).step
      ⟨.user 2 .logWrite, fun _ hb => by cases hb; decide, rfl⟩).step
      ⟨.user 2 .unlock, trivial, rfl⟩).step
      ⟨.user 2 .unref, trivial, rfl⟩).step
      ⟨.user 2 (.bget 1 40), rfl, rfl⟩).step
      ⟨.user 2 .acquire, trivial, rfl⟩).step ⟨.user 2 .fill, trivial, rfl⟩
  exact ⟨_, hrun, rfl, (cache_is_transparent (by decide) hrun).1 2 1 40 0 rfl,
    rfl⟩

/-- A process reads a block. -/
def readBlock (dev b : Nat) : List (Event (Fin 256 → UInt32)) :=
  [.user 2 (.bget dev b), .user 2 .acquire, .user 2 .fill]

/-- A process changes a block and writes it. -/
def editBlock (dev b : Nat) (x : UInt32) (write : Act (Fin 256 → UInt32)) :
    List (Event (Fin 256 → UInt32)) :=
  readBlock dev b ++ [.user 2 (.modify fun _ => x), .user 2 write, .user 2 .unlock, .user 2 .unref]

/-- A block is logged, and a process gets between write_log and
install_trans, before block 40 is read again. -/
def editInCommit (e : List (Event (Fin 256 → UInt32))) : List (Event (Fin 256 → UInt32)) :=
  .beginOp :: editBlock 1 40 1 .logWrite ++ .endOp ::
    List.replicate 12 .commit ++ e ++ List.replicate 20 .commit
    ++ readBlock 1 40

/-- What the three conditions are for. A bwrite on a block that is being
committed is lost: install_trans puts the older contents back. A bwrite on
the log's copy goes home in the place of what was logged. And what was
written to a block of device 2 is read from device 1. -/
theorem impolite_writes_show :
    (∃ r i, play (Track.next logHeader) (.boot 1 1 2 fun _ _ => 0)
        (editInCommit (editBlock 1 40 2 .bwrite)) = some r
      ∧ r.s.use[2]? = some (.held 1 40 i false)
      ∧ (r.s.cache.buf i).data 0 = 1 ∧ r.latest 40 0 = 2)
    ∧ (∃ r i, play (Track.next logHeader) (.boot 1 1 2 fun _ _ => 0)
        (editInCommit (editBlock 1 3 9 .bwrite)) = some r
      ∧ r.s.use[2]? = some (.held 1 40 i false)
      ∧ (r.s.cache.buf i).data 0 = 9 ∧ r.latest 40 0 = 1)
    ∧ ∃ r i, play (Track.next logHeader) (.boot 1 1 2 fun _ _ => 0)
        (editBlock 2 40 5 .bwrite ++ readBlock 1 40) = some r
      ∧ r.s.use[2]? = some (.held 1 40 i false)
      ∧ (r.s.cache.buf i).data 0 = 5 :=
  ⟨⟨_, _, rfl, rfl, rfl, rfl⟩, ⟨_, _, rfl, rfl, rfl, rfl⟩, _, _, rfl, rfl,
    rfl⟩

end Xv6Labs.Model.Bio
