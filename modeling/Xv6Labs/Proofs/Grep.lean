/-
What grep matches and what it writes.

The matcher takes a text exactly if a piece of it lies in the language of
the pattern (`match_iff_language`). grep writes the matching lines up to
the first one that it never sees as a whole (`grepFrom_output`), however
the reads cut the input.
-/
import Mathlib.Computability.Language
import Xv6Labs.Model.Grep

namespace Xv6Labs.Model.Grep

open Computability

variable {c : UInt8} {re text u v w : List UInt8}

-- == patterns

/-- The pattern character `c` stands for `t`. -/
def Fits (c t : UInt8) : Prop := c = dot ∨ c = t

inductive Item where
  | one (c : UInt8)
  | many (c : UInt8)

/-- The pattern read left to right. -/
def items : List UInt8 → List Item
  | [] => []
  | [c] => [.one c]
  | c :: d :: re =>
    if d = star then .many c :: items re else .one c :: items (d :: re)

/-- The texts of one character that `c` stands for. -/
def charLang (c : UInt8) : Language UInt8 := {w | ∃ t, w = [t] ∧ Fits c t}

def Item.lang : Item → Language UInt8
  | .one c => charLang c
  | .many c => (charLang c)∗

/-- The language of a list of items. -/
def lang (is : List Item) : Language UInt8 := (is.map Item.lang).prod

/-- A pattern without the `$` at its end. -/
def stem (re : List UInt8) : List UInt8 := if re.getLast? = some dollar then re.dropLast else re

/-- The items of a pattern between its anchors. -/
def core (re : List UInt8) : List Item :=
  items (stem (if re.head? = some caret then re.tail else re))

-- == languages

theorem mem_lang_nil : w ∈ lang [] ↔ w = [] := Iff.rfl

theorem mem_charLang_mul {L : Language UInt8} :
    w ∈ charLang c * L ↔ ∃ t v, w = t :: v ∧ Fits c t ∧ v ∈ L := by
  rw [Language.mem_mul]
  constructor
  · rintro ⟨_, ⟨t, rfl, ht⟩, v, hv, rfl⟩
    exact ⟨t, v, rfl, ht, hv⟩
  · rintro ⟨t, v, rfl, ht, hv⟩
    exact ⟨[t], ⟨t, rfl, ht⟩, v, hv, rfl⟩

theorem mem_lang_one {is : List Item} :
    w ∈ lang (.one c :: is) ↔ ∃ t v, w = t :: v ∧ Fits c t ∧ v ∈ lang is :=
  mem_charLang_mul

/-- A star goes on as long as its character fits. -/
theorem mem_lang_many {is : List Item} :
    w ∈ lang (.many c :: is) ↔ w ∈ lang is
      ∨ ∃ t v, w = t :: v ∧ Fits c t ∧ v ∈ lang (.many c :: is) := by
  have hunfold : lang (.many c :: is) = lang is + charLang c * lang (.many c :: is) := by
    show (charLang c)∗ * lang is = _ + _ * ((charLang c)∗ * lang is)
    nth_rewrite 1 [← Language.one_add_self_mul_kstar_eq_kstar]
    rw [add_mul, one_mul, mul_assoc]
  nth_rewrite 1 [hunfold]
  rw [Language.mem_add, mem_charLang_mul]

-- == the matcher

/-- The pattern matches a beginning of the text, all of it if the pattern
ends in `$`. -/
def Here (re text : List UInt8) : Prop :=
  ∃ mid post, text = mid ++ post ∧ (re.getLast? = some dollar → post = [])
    ∧ mid ∈ lang (items (stem re))

theorem here_nil (text : List UInt8) : Here [] text := ⟨[], text, rfl, nofun, rfl⟩

theorem here_dollar : Here [dollar] text ↔ text = [] := by
  constructor
  · rintro ⟨mid, post, rfl, hpost, hmid⟩
    rw [hpost rfl, mem_lang_nil.mp hmid]
    rfl
  · rintro rfl
    exact ⟨[], [], rfl, fun _ => rfl, rfl⟩

theorem stem_cons (h : ¬(c = dollar ∧ re = [])) : stem (c :: re) = c :: stem re := by
  cases re with
  | nil =>
    have hc : c ≠ dollar := fun hc => h ⟨hc, rfl⟩
    simp [stem, hc]
  | cons d re =>
    unfold stem
    rw [List.getLast?_cons_cons]
    split
    · rfl
    · rfl

theorem getLast?_cons_dollar (h : ¬(c = dollar ∧ re = [])) :
    (c :: re).getLast? = some dollar ↔ re.getLast? = some dollar := by
  cases re with
  | nil =>
    have hc : c ≠ dollar := fun hc => h ⟨hc, rfl⟩
    simp [hc]
  | cons d re => rw [List.getLast?_cons_cons]

theorem stem_head (h : re.head? ≠ some star) : (stem re).head? ≠ some star := by
  unfold stem
  split
  · cases re with
    | nil => exact h
    | cons d re =>
      cases re with
      | nil => exact nofun
      | cons e re => exact h
  · exact h

theorem items_one (h : re.head? ≠ some star) : items (c :: re) = .one c :: items re := by
  cases re with
  | nil => rfl
  | cons d re =>
    have hd : d ≠ star := fun hd => h (by rw [hd]; rfl)
    rw [items, if_neg hd]

theorem here_one (hc : ¬(c = dollar ∧ re = [])) (h : re.head? ≠ some star) :
    Here (c :: re) text ↔ ∃ t v, text = t :: v ∧ Fits c t ∧ Here re v := by
  unfold Here
  rw [getLast?_cons_dollar hc, stem_cons hc, items_one (stem_head h)]
  constructor
  · rintro ⟨mid, post, rfl, hpost, hmid⟩
    obtain ⟨t, v, rfl, ht, hv⟩ := mem_lang_one.mp hmid
    exact ⟨t, v ++ post, rfl, ht, v, post, rfl, hpost, hv⟩
  · rintro ⟨t, _, rfl, ht, v, post, rfl, hpost, hv⟩
    exact ⟨t :: v, post, rfl, hpost, mem_lang_one.mpr ⟨t, v, rfl, ht, hv⟩⟩

theorem here_many : Here (c :: star :: re) text ↔ Here re text
    ∨ ∃ t v, text = t :: v ∧ Fits c t ∧ Here (c :: star :: re) v := by
  have hs : ¬(star = dollar ∧ re = []) := fun h => absurd h.1 (by decide)
  have hitems : items (stem (c :: star :: re)) = .many c :: items (stem re) := by
    rw [stem_cons (by simp), stem_cons hs, items, if_pos rfl]
  unfold Here
  rw [hitems, List.getLast?_cons_cons, getLast?_cons_dollar hs]
  constructor
  · rintro ⟨mid, post, rfl, hpost, hmid⟩
    obtain hv | ⟨t, v, rfl, ht, hv⟩ := mem_lang_many.mp hmid
    · exact .inl ⟨mid, post, rfl, hpost, hv⟩
    · exact .inr ⟨t, v ++ post, rfl, ht, v, post, rfl, hpost, hv⟩
  · rintro (⟨mid, post, rfl, hpost, hmid⟩ | ⟨t, _, rfl, ht, v, post, rfl, hpost, hv⟩)
    · exact ⟨mid, post, rfl, hpost, mem_lang_many.mpr (.inl hmid)⟩
    · exact ⟨t :: v, post, rfl, hpost, mem_lang_many.mpr (.inr ⟨t, v, rfl, ht, hv⟩)⟩

theorem matchstar_iff (h : ∀ text, matchhere re text = true ↔ Here re text) :
    matchstar c re text = true ↔ Here (c :: star :: re) text := by
  induction text with
  | nil =>
    rw [matchstar, here_many, Bool.or_eq_true, h]
    simp
  | cons t text ih =>
    have hfits : (t = c || c = dot) = true ↔ Fits c t := by
      rw [Bool.or_eq_true, decide_eq_true_iff, decide_eq_true_iff, or_comm, Fits, eq_comm (a := t)]
    rw [matchstar, here_many, Bool.or_eq_true, Bool.and_eq_true, ih, h, hfits]
    simp

/-- Induction on the pattern: a star takes two characters off it. -/
theorem matchhere_iff (re text : List UInt8) : matchhere re text = true ↔ Here re text := by
  induction hn : re.length using Nat.strong_induction_on generalizing re text with
  | h n ih =>
  cases re with
  | nil => simp [matchhere, here_nil]
  | cons c re =>
    subst hn
    rw [matchhere.eq_def]
    dsimp only
    split_ifs with hstar hend
    · obtain ⟨re, rfl⟩ : ∃ re', re = star :: re' := by
        cases re with
        | nil => cases hstar
        | cons d re => exact ⟨re, by rw [Option.some.inj hstar]⟩
      exact matchstar_iff fun text =>
        ih re.length (by simp only [List.length_cons]; omega) re text rfl
    · rw [hend.1, hend.2, here_dollar, List.isEmpty_iff]
    rw [here_one hend hstar]
    cases text with
    | nil => simp
    | cons t text =>
      rw [Bool.and_eq_true, ih re.length (by simp) re text rfl]
      simp [Fits]

theorem matchFrom_iff : matchFrom re text = true ↔
    ∃ pre rest, text = pre ++ rest ∧ Here re rest := by
  induction text with
  | nil =>
    rw [matchFrom, matchhere_iff]
    constructor
    · exact fun h => ⟨[], [], rfl, h⟩
    · rintro ⟨pre, rest, heq, h⟩
      rw [(List.append_eq_nil_iff.mp heq.symm).2] at h
      exact h
  | cons t text ih =>
    rw [matchFrom, Bool.or_eq_true, matchhere_iff, ih]
    constructor
    · rintro (h | ⟨pre, rest, rfl, h⟩)
      · exact ⟨[], t :: text, rfl, h⟩
      · exact ⟨t :: pre, rest, rfl, h⟩
    rintro ⟨pre, rest, heq, h⟩
    cases pre with
    | nil => exact .inl (heq ▸ h)
    | cons x pre =>
      obtain ⟨rfl, rfl⟩ := List.cons.inj heq
      exact .inr ⟨pre, rest, rfl, h⟩

/-- match finds a piece of the text in the language of the pattern: a
beginning of the text after `^`, an end of it before `$`. -/
theorem match_iff_language (re text : List UInt8) :
    matchText re text = true ↔
      ∃ pre mid post, text = pre ++ mid ++ post
        ∧ (re.head? = some caret → pre = [])
        ∧ (re.getLast? = some dollar → post = []) ∧ mid ∈ lang (core re) := by
  unfold matchText core
  split
  · next hcaret =>
    obtain ⟨re, rfl⟩ : ∃ re', re = caret :: re' := by
      cases re with
      | nil => cases hcaret
      | cons d re => exact ⟨re, by rw [Option.some.inj hcaret]⟩
    have hlast : (caret :: re).getLast? = some dollar ↔
        re.getLast? = some dollar :=
      getLast?_cons_dollar fun h => absurd h.1 (by decide)
    rw [matchhere_iff, hlast]
    constructor
    · rintro ⟨mid, post, rfl, hpost, hmid⟩
      exact ⟨[], mid, post, rfl, fun _ => rfl, hpost, hmid⟩
    · rintro ⟨pre, mid, post, rfl, hpre, hpost, hmid⟩
      rw [hpre rfl]
      exact ⟨mid, post, rfl, hpost, hmid⟩
  · next hcaret =>
    rw [matchFrom_iff]
    constructor
    · rintro ⟨pre, _, rfl, mid, post, rfl, hpost, hmid⟩
      exact ⟨pre, mid, post, (List.append_assoc ..).symm,
        fun h => absurd h hcaret, hpost, hmid⟩
    · rintro ⟨pre, mid, post, rfl, _, hpost, hmid⟩
      exact ⟨pre, mid ++ post, List.append_assoc .., mid, post, rfl, hpost,
        hmid⟩

-- == lines

/-- The lines of a file, each with its newline; the last may have none. -/
def lines : List UInt8 → List (List UInt8)
  | [] => []
  | x :: s =>
    if x = nl then [x] :: lines s
    else
      match lines s with
      | [] => [[x]]
      | l :: ls => (x :: l) :: ls

theorem lines_append_nl (hu : nl ∉ u) : lines (u ++ nl :: v) = (u ++ [nl]) :: lines v := by
  induction u with
  | nil => rfl
  | cons x u ih =>
    rw [List.mem_cons, not_or] at hu
    rw [List.cons_append, lines, if_neg (Ne.symm hu.1), ih hu.2]
    rfl

/-- A line begins with what comes before it ends. -/
theorem lines_append (hu : nl ∉ u) (hne : u ≠ []) :
    ∃ l ls, lines (u ++ v) = (u ++ l) :: ls ∧ (v = [] → l = []) := by
  induction u with
  | nil => exact absurd rfl hne
  | cons x u ih =>
    rw [List.mem_cons, not_or] at hu
    rw [List.cons_append, lines, if_neg (Ne.symm hu.1)]
    by_cases h : u = []
    · subst h
      rw [List.nil_append]
      cases hl : lines v with
      | nil => exact ⟨[], [], rfl, fun _ => rfl⟩
      | cons l ls => exact ⟨l, ls, rfl, fun hv => by subst hv; cases hl⟩
    · obtain ⟨l, ls, hl, hv⟩ := ih hu.2 h
      rw [hl]
      exact ⟨l, ls, rfl, hv⟩

theorem ne_nil_of_mem_lines {l : List UInt8} (h : l ∈ lines v) : l ≠ [] := by
  induction v generalizing l with
  | nil => cases h
  | cons x v ih =>
    rw [lines] at h
    split_ifs at h
    · obtain rfl | h := List.mem_cons.mp h
      · exact nofun
      · exact ih h
    cases hl : lines v with
    | nil =>
      rw [hl] at h
      rw [List.mem_singleton.mp h]
      exact nofun
    | cons l' ls =>
      rw [hl] at h
      obtain rfl | h := List.mem_cons.mp h
      · exact nofun
      · exact ih (by rw [hl]; exact List.mem_cons_of_mem _ h)

/-- A line fits the buffer with its newline and the NUL. -/
def Whole (l : List UInt8) : Bool := l.getLast? = some nl && l.length < bufSize

/-- The pattern matches a line, apart from its newline. -/
def Hits (pattern l : List UInt8) : Bool := matchText pattern (l.takeWhile (· != nl))

theorem hits_line (pattern : List UInt8) (hu : nl ∉ u) :
    Hits pattern (u ++ [nl]) = matchText pattern u := by
  have htake : (u ++ [nl]).takeWhile (· != nl) = u := by
    rw [List.takeWhile_append_of_pos fun x hx => ?_]
    · simp
    · rw [bne_iff_ne]
      rintro rfl
      exact hu hx
  rw [Hits, htake]

theorem strchr_none (h0 : (0 : UInt8) ∉ v) (h : strchr c v = none) : c ∉ v := by
  induction v with
  | nil => exact List.not_mem_nil
  | cons x v ih =>
    rw [List.mem_cons, not_or] at h0 ⊢
    rw [strchr, if_neg (Ne.symm h0.1)] at h
    split_ifs at h with hx
    exact ⟨Ne.symm hx, ih h0.2 (Option.map_eq_none_iff.mp h)⟩

/-- The inner loop writes the matching ones of the lines that are in the
buffer as a whole, and leaves the rest. -/
theorem scan_lines (pattern : List UInt8) (h0 : (0 : UInt8) ∉ u)
    (hlen : u.length < bufSize) (v : List UInt8) :
    ∃ ls rest, scan pattern u = (rest, (ls.filter (Hits pattern)).flatten)
      ∧ lines (u ++ v) = ls ++ lines (rest ++ v) ∧ (∀ l ∈ ls, Whole l)
      ∧ nl ∉ rest ∧ (0 : UInt8) ∉ rest ∧ rest.length ≤ u.length := by
  fun_induction scan pattern u with
  | case1 p h =>
    exact ⟨[], p, rfl, rfl, nofun, strchr_none h0 h, h0, le_rfl⟩
  | case2 p q h line out rest outs heq ih =>
    obtain ⟨u, w, rfl, rfl, hu⟩ := strchr_some h
    have hdrop : (u ++ nl :: w).drop (u.length + 1) = w := by simp
    have hline : line = u := List.take_left ..
    rw [hdrop] at ih heq
    simp only [List.length_append, List.length_cons] at hlen
    simp only [List.mem_append, List.mem_cons, not_or] at h0
    obtain ⟨ls, rest', hscan, hls, hwhole, hrest⟩ := ih h0.2.2 (by omega)
    rw [heq] at hscan
    obtain ⟨rfl, rfl⟩ := Prod.mk.inj hscan
    refine ⟨(u ++ [nl]) :: ls, rest, ?_, ?_, ?_, hrest.1, hrest.2.1, ?_⟩
    · rw [List.filter_cons, hits_line pattern hu]
      congr 1
      unfold out
      split <;> simp_all
    · rw [List.append_assoc, List.cons_append, lines_append_nl hu, hls]
      rfl
    · rintro l hl
      obtain rfl | hl := List.mem_cons.mp hl
      · simp [Whole]
        omega
      · exact hwhole l hl
    · simp only [List.length_append, List.length_cons]
      omega

/-- grep's turn with `buf` kept writes the matching ones of the lines up to
the first that it does not see as a whole. -/
theorem grepFrom_output (pattern : List UInt8) (reads : Nat → Nat) (k : Nat)
    (h0 : (0 : UInt8) ∉ u ++ v) (hu : nl ∉ u) (hlen : u.length < bufSize) :
    grepFrom pattern reads k u v
      = (((lines (u ++ v)).takeWhile Whole).filter (Hits pattern)).flatten := by
  fun_induction grepFrom pattern reads k u v with
  | case1 k u v n hn rest out heq ih =>
    have hsplit : u ++ v = (u ++ v.take n) ++ v.drop n := by
      rw [List.append_assoc, List.take_append_drop]
    rw [hsplit] at h0 ⊢
    rw [List.mem_append, not_or] at h0
    obtain ⟨ls, rest', hscan, hls, hwhole, hnl, h0', hle⟩ :=
      scan_lines pattern h0.1 (by simp; omega) (v.drop n)
    rw [heq] at hscan
    obtain ⟨rfl, rfl⟩ := Prod.mk.inj hscan
    rw [hls, List.takeWhile_append_of_pos hwhole, List.filter_append,
      List.flatten_append, ih _ hnl _]
    · rw [List.mem_append, not_or]
      exact ⟨h0', h0.2⟩
    · simp at hle
      omega
  | case2 k u v n hn =>
    -- the file is at its end, or the buffer is full without a newline
    by_cases hne : u = []
    · subst hne
      have hv : v = [] := by
        rw [← List.length_eq_zero_iff]
        simp only [n, bufSize, List.length_nil] at hn
        omega
      rw [hv]
      rfl
    obtain ⟨l, ls, hls, hl⟩ := lines_append (v := v) hu hne
    have hnot : Whole (u ++ l) = false := by
      rw [Whole, Bool.and_eq_false_iff, decide_eq_false_iff_not, decide_eq_false_iff_not]
      by_cases hlnil : l = []
      · left
        rw [hlnil, List.append_nil]
        exact fun h => hu (List.mem_of_getLast? h)
      right
      have hvpos := List.length_pos_iff.mpr fun hv => hlnil (hl hv)
      have hlpos := List.length_pos_iff.mpr hlnil
      rw [List.length_append]
      omega
    rw [hls, List.takeWhile_cons, hnot]
    rfl

/-- The matching lines of a file. -/
def wanted (pattern file : List UInt8) : List UInt8 := ((lines file).filter (Hits pattern)).flatten

/-- grep writes the matching lines exactly if none of them is the first
line that it does not see as a whole, or comes after that line. -/
theorem grep_writes_matching_iff (pattern : List UInt8) (reads : Nat → Nat)
    {file : List UInt8} (h0 : (0 : UInt8) ∉ file) :
    grep pattern reads file = wanted pattern file ↔
      ∀ l ∈ (lines file).dropWhile Whole, Hits pattern l = false := by
  have hout : grep pattern reads file
      = (((lines file).takeWhile Whole).filter (Hits pattern)).flatten :=
    grepFrom_output pattern reads 0 h0 List.not_mem_nil (by decide)
  have hsplit : wanted pattern file = grep pattern reads file
      ++ (((lines file).dropWhile Whole).filter (Hits pattern)).flatten := by
    rw [hout, ← List.flatten_append, ← List.filter_append,
      List.takeWhile_append_dropWhile, wanted]
  rw [hsplit, List.self_eq_append_right, List.flatten_eq_nil_iff]
  refine ⟨fun h l hl => ?_, fun h l hl => ?_⟩
  · by_contra hhit
    rw [Bool.not_eq_false] at hhit
    exact ne_nil_of_mem_lines ((List.dropWhile_suffix _).mem hl)
      (h l (List.mem_filter.mpr ⟨hl, hhit⟩))
  · obtain ⟨hl, hhit⟩ := List.mem_filter.mp hl
    rw [h l hl] at hhit
    cases hhit

theorem grep_writes_matching_small :
    grep [97] (fun _ => 1) [97, 98, nl, nl] = wanted [97] [97, 98, nl, nl] :=
  (grep_writes_matching_iff [97] (fun _ => 1) (by decide)).mpr (by decide)

/-- The last line has no newline. -/
theorem grep_drops_last_line :
    grep [97] (fun _ => 0) [97] = [] ∧ wanted [97] [97] = [97] := by
  have hhit : Hits [97] [97] = true := by
    simp [Hits, matchText, matchFrom, matchhere, nl, caret, dollar]
  constructor
  · exact grepFrom_output [97] (fun _ => 0) 0 (by decide) (by decide) (by decide)
  · simp [wanted, lines, nl, hhit]

end Xv6Labs.Model.Grep
