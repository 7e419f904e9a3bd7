import Mathlib.Data.List.Basic

/-!
# Cmd.Match — the regular expressions of `grep`

`match`, `matchhere` and `matchstar` of `cmd/grep.c`. A NUL-terminated string
is the list of the bytes in front of its NUL.
-/

namespace Rxv64.Cmd.Grep

abbrev Str := List UInt8

/-- `'^'`. -/
abbrev caret : UInt8 := 94

/-- `'$'`. -/
abbrev dollar : UInt8 := 36

/-- `'*'`. -/
abbrev asterisk : UInt8 := 42

/-- `'.'`. -/
abbrev period : UInt8 := 46

/-- The loop of `matchstar`, with `here` for `matchhere(re, ·)`. -/
def matchstar (here : Str → Bool) (c : UInt8) : Str → Bool
  | [] => here []
  | t :: text =>
      if here (t :: text) then true
      else if t = c ∨ c = period then matchstar here c text
      else false

/-- `matchhere`. -/
def matchhere : (re text : Str) → Bool
  | [], _ => true
  | [c], text =>
      if c = dollar then text.isEmpty
      else
        match text with
        | [] => false
        | t :: text => if c = period ∨ c = t then matchhere [] text else false
  | c :: d :: re, text =>
      if d = asterisk then matchstar (fun text => matchhere re text) c text
      else
        match text with
        | [] => false
        | t :: text => if c = period ∨ c = t then matchhere (d :: re) text else false

/-- The loop of `match`. -/
def matchloop (re : Str) : Str → Bool
  | [] => matchhere re []
  | t :: text => if matchhere re (t :: text) then true else matchloop re text

/-- `match`. -/
def matchRe (re text : Str) : Bool :=
  match re with
  | [] => matchloop [] text
  | c :: re => if c = caret then matchhere re text else matchloop (c :: re) text

/-! ## What a pattern means -/

/-- A pattern is a sequence of items. -/
inductive Item where
  | star (c : UInt8)
  | eol
  | one (c : UInt8)

/-- How a pattern is read: a byte and a `*` behind it, a `$` at the end, any
other byte. -/
def items : Str → List Item
  | [] => []
  | [c] => if c = dollar then [.eol] else [.one c]
  | c :: d :: re => if d = asterisk then .star c :: items re else .one c :: items (d :: re)

/-- The byte `b` is one that `c` stands for. -/
def Stands (c b : UInt8) : Prop := c = period ∨ c = b

/-- The items match `pre`, with `rest` behind it in the text. -/
inductive Matches : List Item → (pre rest : Str) → Prop
  | nil {rest : Str} : Matches [] [] rest
  | star {c : UInt8} {l : List Item} {bs pre rest : Str} :
      (∀ b ∈ bs, Stands c b) → Matches l pre rest → Matches (.star c :: l) (bs ++ pre) rest
  | eol {l : List Item} : Matches l [] [] → Matches (.eol :: l) [] []
  | one {c b : UInt8} {l : List Item} {pre rest : Str} :
      Stands c b → Matches l pre rest → Matches (.one c :: l) (b :: pre) rest

/-- A prefix of the text matches. -/
def MatchesHere (l : List Item) (text : Str) : Prop :=
  ∃ pre rest, text = pre ++ rest ∧ Matches l pre rest

/-- The text matches the pattern, anchored or in some suffix. -/
def MatchesText (re text : Str) : Prop :=
  (∃ tail, re = caret :: tail ∧ MatchesHere (items tail) text) ∨
    (re.head? ≠ some caret ∧ ∃ skipped suffix, text = skipped ++ suffix ∧
      MatchesHere (items re) suffix)

/-! ## One item at a time -/

variable {c : UInt8} {l : List Item} {text : Str}

theorem matchesHere_nil : MatchesHere [] text := ⟨[], text, rfl, .nil⟩

theorem matchesHere_eol : MatchesHere [.eol] text ↔ text = [] := by
  constructor
  · intro ⟨pre, rest, htext, h⟩
    cases h
    exact htext
  · intro htext
    exact ⟨[], [], htext, .eol .nil⟩

theorem matchesHere_one_nil : ¬MatchesHere (.one c :: l) [] := by
  intro ⟨pre, rest, htext, h⟩
  cases h
  cases htext

theorem matchesHere_one_cons {t : UInt8} :
    MatchesHere (.one c :: l) (t :: text) ↔ Stands c t ∧ MatchesHere l text := by
  constructor
  · intro ⟨pre, rest, htext, h⟩
    cases h with
    | one hc hl =>
        obtain ⟨rfl, rfl⟩ := List.cons.inj htext
        exact ⟨hc, _, _, rfl, hl⟩
  · intro ⟨hc, pre, rest, htext, hl⟩
    exact ⟨t :: pre, rest, by rw [htext, List.cons_append], .one hc hl⟩

/-- A starred item skips bytes it stands for. -/
theorem matchesHere_star :
    MatchesHere (.star c :: l) text ↔
      ∃ bs rest, text = bs ++ rest ∧ (∀ b ∈ bs, Stands c b) ∧ MatchesHere l rest := by
  constructor
  · intro ⟨pre, rest, htext, h⟩
    cases h with
    | @star _ _ bs tail _ hbs hl =>
        exact ⟨bs, tail ++ rest, by rw [htext, List.append_assoc], hbs, tail, rest, rfl, hl⟩
  · intro ⟨bs, rest, htext, hbs, pre, rest', hrest, hl⟩
    exact ⟨bs ++ pre, rest', by rw [htext, hrest, List.append_assoc], .star hbs hl⟩

/-! ## The functions decide it -/

/-- The do-while loop of `matchstar` tries after every number of bytes. -/
theorem matchstar_iff {here : Str → Bool} :
    matchstar here c text = true ↔
      ∃ bs rest, text = bs ++ rest ∧ (∀ b ∈ bs, Stands c b) ∧ here rest = true := by
  induction text with
  | nil =>
      rw [matchstar]
      constructor
      · intro h
        exact ⟨[], [], rfl, by simp, h⟩
      · intro ⟨bs, rest, htext, _, h⟩
        obtain ⟨rfl, rfl⟩ := List.append_eq_nil_iff.mp htext.symm
        exact h
  | cons t text ih =>
      rw [matchstar]
      constructor
      · intro h
        by_cases hhere : here (t :: text) = true
        · exact ⟨[], t :: text, rfl, by simp, hhere⟩
        · rw [if_neg hhere] at h
          by_cases hc : t = c ∨ c = period
          · rw [if_pos hc] at h
            obtain ⟨bs, rest, htext, hbs, hrest⟩ := ih.mp h
            refine ⟨t :: bs, rest, by rw [htext, List.cons_append], ?_, hrest⟩
            rw [List.forall_mem_cons]
            exact ⟨hc.elim (fun heq => .inr heq.symm) .inl, hbs⟩
          · rw [if_neg hc] at h
            cases h
      · intro ⟨bs, rest, htext, hbs, hrest⟩
        by_cases hhere : here (t :: text) = true
        · rw [if_pos hhere]
        · rw [if_neg hhere]
          cases bs with
          | nil =>
              rw [List.nil_append] at htext
              exact absurd (htext ▸ hrest) hhere
          | cons b bs =>
              obtain ⟨rfl, rfl⟩ := List.cons.inj htext
              obtain ⟨hb, hbs⟩ := List.forall_mem_cons.mp hbs
              rw [if_pos (hb.elim .inr fun heq => .inl heq.symm)]
              exact ih.mpr ⟨bs, rest, rfl, hbs, hrest⟩

theorem matchhere_iff (re text : Str) :
    matchhere re text = true ↔ MatchesHere (items re) text := by
  fun_induction items re generalizing text with
  | case1 => simp [matchhere, matchesHere_nil]
  | case2 =>
      rw [matchesHere_eol]
      simp [matchhere]
  | case3 c hc =>
      cases text with
      | nil => simp [matchhere, hc, matchesHere_one_nil]
      | cons t text =>
          rw [matchesHere_one_cons]
          simp [matchhere, hc, Stands, matchesHere_nil]
  | case4 c re ih =>
      have hloop : matchhere (c :: asterisk :: re) text = matchstar (matchhere re) c text := by
        simp [matchhere]
      rw [hloop, matchstar_iff, matchesHere_star]
      simp only [ih]
  | case5 c d re hd ih =>
      cases text with
      | nil => simp [matchhere, hd, matchesHere_one_nil]
      | cons t text =>
          rw [matchesHere_one_cons, ← ih]
          simp [matchhere, hd, Stands]

/-- The loop of `match` tries every suffix, the empty one included. -/
theorem matchloop_iff {re : Str} :
    matchloop re text = true ↔
      ∃ skipped suffix, text = skipped ++ suffix ∧ matchhere re suffix = true := by
  induction text with
  | nil =>
      rw [matchloop]
      constructor
      · intro h
        exact ⟨[], [], rfl, h⟩
      · intro ⟨skipped, suffix, htext, h⟩
        obtain ⟨rfl, rfl⟩ := List.append_eq_nil_iff.mp htext.symm
        exact h
  | cons t text ih =>
      rw [matchloop]
      by_cases hhere : matchhere re (t :: text) = true
      · rw [if_pos hhere]
        simp only [true_iff]
        exact ⟨[], t :: text, rfl, hhere⟩
      · rw [if_neg hhere, ih]
        constructor
        · intro ⟨skipped, suffix, htext, h⟩
          exact ⟨t :: skipped, suffix, by rw [htext, List.cons_append], h⟩
        · intro ⟨skipped, suffix, htext, h⟩
          cases skipped with
          | nil =>
              rw [List.nil_append] at htext
              exact absurd (htext ▸ h) hhere
          | cons s skipped =>
              obtain ⟨rfl, rfl⟩ := List.cons.inj htext
              exact ⟨skipped, suffix, rfl, h⟩

/-- **The matcher is right**: it answers yes exactly for the texts a pattern
means. -/
theorem matchRe_iff (re text : Str) : matchRe re text = true ↔ MatchesText re text := by
  unfold MatchesText
  simp only [← matchhere_iff]
  cases re with
  | nil => simp [matchRe, matchloop_iff]
  | cons c re =>
      by_cases hc : c = caret
      · simp [matchRe, hc]
      · simp [matchRe, hc, matchloop_iff]

example : matchRe [caret, 97, asterisk, dollar] [97, 97] = true := by decide

end Rxv64.Cmd.Grep
