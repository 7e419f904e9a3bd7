import Mathlib.Data.List.GetD
import Mathlib.Data.List.TakeWhile
import Mathlib.Tactic.ByContra
import Rxv64.Cmd.Shell

/-!
# Cmd.Tokens — the parser ends, and its tokens survive `nulterminate`

A token is a maximal run of word characters, so the byte behind it is no part of
another one. Each function of the parser moves forward, and by one byte at least
where it calls itself again.
-/

namespace Rxv64.Cmd.Sh

open Prog

variable {text : Text} {s s' i n : Nat} {p : UInt8 → Bool} {toks : List UInt8}

/-! ## Moving over the text -/

theorem charAt_eq (text : Text) (s : Nat) : charAt text s = (text.drop s).headD 0 := by
  rw [charAt, List.getD_eq_getElem?_getD, ← List.head?_drop, List.headD_eq_head?_getD]

theorem charAt_of_le (h : text.length ≤ s) : charAt text s = 0 := by
  rw [charAt, List.getD_eq_default _ _ h]

theorem lt_of_charAt (h : charAt text s ≠ 0) : s < text.length := by
  by_contra hge
  exact h (charAt_of_le (Nat.le_of_not_lt hge))

theorem drop_advance (p : UInt8 → Bool) (text : Text) (s : Nat) :
    text.drop (advance p text s) = (text.drop s).dropWhile p := by
  have happ : (text.drop s).takeWhile p ++ (text.drop s).dropWhile p = text.drop s :=
    List.takeWhile_append_dropWhile
  rw [advance, ← List.drop_drop]
  exact (congrArg (List.drop _) happ.symm).trans List.drop_left

theorem le_advance : s ≤ advance p text s := Nat.le_add_right _ _

theorem advance_le (h : s ≤ text.length) : advance p text s ≤ text.length := by
  have hle := (List.takeWhile_prefix p (l := text.drop s)).length_le
  rw [List.length_drop] at hle
  rw [advance]
  omega

/-- Everything on the way satisfies `p`. -/
theorem advance_all (h : s ≤ i) (hi : i < advance p text s) : p (charAt text i) = true := by
  have hlt : i - s < ((text.drop s).takeWhile p).length := by
    rw [advance] at hi
    omega
  have hdrop : i - s < (text.drop s).length :=
    Nat.lt_of_lt_of_le hlt (List.takeWhile_prefix p).length_le
  have htext : i < text.length := by
    rw [List.length_drop] at hdrop
    omega
  have hget : ((text.drop s).takeWhile p)[i - s] = text[i] := by
    rw [(List.takeWhile_prefix p).getElem hlt, List.getElem_drop]
    congr 1
    omega
  rw [charAt, List.getD_eq_getElem _ _ htext, ← hget]
  exact List.mem_takeWhile_imp (List.getElem_mem hlt)

/-- What comes next does not. -/
theorem advance_stop (h : advance p text s < text.length) :
    p (charAt text (advance p text s)) = false := by
  rw [charAt_eq, drop_advance]
  have hne : (text.drop s).dropWhile p ≠ [] := by
    intro hnil
    rw [← drop_advance, List.drop_eq_nil_iff] at hnil
    omega
  have hhead := List.head_dropWhile_not p hne
  cases hd : (text.drop s).dropWhile p with
  | nil => exact absurd hd hne
  | cons c l =>
      simp only [hd, List.head_cons] at hhead
      exact hhead

theorem advance_eq_self (h : s < text.length → p (charAt text s) = false) :
    advance p text s = s := by
  have htake : (text.drop s).takeWhile p = [] := by
    cases hd : text.drop s with
    | nil => rfl
    | cons c l =>
        have hlt : s < text.length := by
          by_contra hge
          rw [List.drop_eq_nil_of_le (Nat.le_of_not_lt hge)] at hd
          cases hd
        have hc := h hlt
        rw [charAt_eq, hd, List.headD_cons] at hc
        rw [List.takeWhile_cons, hc]
        rfl
  rw [advance, htake]
  rfl

theorem skip_skip (text : Text) (s : Nat) : skip text (skip text s) = skip text s :=
  advance_eq_self fun h => advance_stop h

theorem le_skip : s ≤ skip text s := le_advance

theorem skip_le (h : s ≤ text.length) : skip text s ≤ text.length := advance_le h

/-! ## Tokens -/

/-- A maximal run of word characters, which is not empty. -/
structure Delimited (text : Text) (w : Span) : Prop where
  lt : w.start < w.stop
  le : w.stop ≤ text.length
  inside : ∀ i, w.start ≤ i → i < w.stop → isWord (charAt text i) = true
  behind : w.stop < text.length → isWord (charAt text w.stop) = false

/-- What is no symbol and no white space starts a word. -/
theorem isWord_of_not {c : UInt8} (hs : strchr whitespace c = false)
    (h : c ∉ [bar, lparen, rparen, semicolon, ampersand, less]) (hg : c ≠ greater) :
    isWord c = true := by
  simp only [List.mem_cons, List.not_mem_nil, or_false, not_or] at h
  obtain ⟨hbar, hl, hr, hsemi, hamp, hless⟩ := h
  have hsym : strchr symbols c = false := by
    simp [strchr, symbols, hbar, hl, hr, hsemi, hamp, hless, hg]
  rw [isWord, hs, hsym]
  rfl

theorem lt_advance (hs : s < text.length) (h : p (charAt text s) = true) : s < advance p text s := by
  refine Nat.lt_of_le_of_ne le_advance fun he => ?_
  have hstop : p (charAt text (advance p text s)) = false := advance_stop (by rwa [← he])
  rw [← he, h] at hstop
  cases hstop

/-- The `switch` at a byte that is not white space. -/
theorem lex_spec (hs : s ≤ text.length)
    (hstop : s < text.length → strchr whitespace (charAt text s) = false) :
    s ≤ (lex text s).2 ∧ (lex text s).2 ≤ text.length ∧
      (charAt text s ≠ 0 → s < (lex text s).2 ∧ (lex text s).1 ≠ 0) ∧
      ((lex text s).1 = aWord → Delimited text ⟨s, (lex text s).2⟩) := by
  have hplus : plus ≠ 0 ∧ plus ≠ aWord := by decide
  have hgreater : greater ≠ 0 ∧ greater ≠ aWord := by decide
  have hend : (0 : UInt8) ≠ aWord := by decide
  by_cases h0 : charAt text s = 0
  · rw [lex, if_pos h0]
    exact ⟨Nat.le_refl _, hs, fun hne => absurd h0 hne, fun h => absurd h hend⟩
  have hlt : s < text.length := lt_of_charAt h0
  by_cases hsym : charAt text s ∈ [bar, lparen, rparen, semicolon, ampersand, less]
  · rw [lex, if_neg h0, if_pos hsym]
    refine ⟨Nat.le_succ s, hlt, fun _ => ⟨Nat.lt_succ_self s, h0⟩, fun h => ?_⟩
    change charAt text s = aWord at h
    rw [h] at hsym
    exact absurd hsym (by decide)
  by_cases hg : charAt text s = greater
  · by_cases hgg : charAt text (s + 1) = greater
    · have hlt' : s + 1 < text.length := lt_of_charAt (by rw [hgg]; decide)
      rw [lex, if_neg h0, if_neg hsym, if_pos hg, if_pos hgg]
      exact ⟨Nat.le_add_right s 2, hlt', fun _ => ⟨by omega, hplus.1⟩, fun h => absurd h hplus.2⟩
    · rw [lex, if_neg h0, if_neg hsym, if_pos hg, if_neg hgg]
      exact ⟨Nat.le_succ s, hlt, fun _ => ⟨Nat.lt_succ_self s, hgreater.1⟩,
        fun h => absurd h hgreater.2⟩
  · have hadv : s < advance isWord text s := lt_advance hlt (isWord_of_not (hstop hlt) hsym hg)
    rw [lex, if_neg h0, if_neg hsym, if_neg hg]
    exact ⟨hadv.le, advance_le hs, fun _ => ⟨hadv, hend.symm⟩, fun _ => ⟨hadv, advance_le hs,
      fun _ hle hi => advance_all hle hi, advance_stop⟩⟩

/-! ## The parser ends -/

/-- The messages of a line that is refused. -/
def syntaxErrors : List String :=
  ["syntax", "syntax - missing )", "missing file for redirection", "too many args"]

/-- The message is one of these. -/
abbrev Refused (m : String) : Prop := m ∈ syntaxErrors

theorem peek_ends (toks : List UInt8) (hs : s ≤ text.length) :
    Ends (peek toks text s) (fun b s' => s ≤ s' ∧ s' ≤ text.length ∧ skip text s' = s' ∧
      (b = true → charAt text s' ≠ 0 ∧ charAt text s' ∈ toks)) Refused := by
  refine Ends.ok rfl ⟨le_skip, skip_le hs, skip_skip text s, fun hb => ?_⟩
  simpa [strchr] using hb

theorem gettoken_ends (hs : s ≤ text.length) :
    Ends (gettoken text s) (fun tok s' => s ≤ s' ∧ s' ≤ text.length ∧
      (charAt text (skip text s) ≠ 0 ∨ tok.ret ≠ 0 → s < s') ∧
      (tok.ret = aWord → Delimited text tok.word)) Refused := by
  obtain ⟨hle, hlen, hlt, hword⟩ := lex_spec (skip_le hs) fun h => advance_stop (p := strchr whitespace) h
  refine Ends.ok rfl ⟨?_, skip_le hlen, fun h => ?_, hword⟩
  · exact Nat.le_trans le_skip (Nat.le_trans hle le_skip)
  · have h0 : charAt text (skip text s) ≠ 0 := by
      rcases h with h | h
      · exact h
      · intro h0
        simp only [lex, h0, if_true] at h
        exact h rfl
    exact Nat.lt_of_le_of_lt le_skip (Nat.lt_of_lt_of_le (hlt h0).1 le_skip)

/-- From `s` to `s'` a tree was read, of whole tokens. -/
structure Parsed (text : Text) (s : Nat) (cmd : Command Span) (s' : Nat) : Prop where
  le : s ≤ s'
  length : s' ≤ text.length
  words : ∀ w ∈ cmd.words, Delimited text w

theorem Parsed.from {cmd : Command Span} {s₀ : Nat} (h : Parsed text s cmd s') (hle : s₀ ≤ s) :
    Parsed text s₀ cmd s' := ⟨Nat.le_trans hle h.le, h.length, h.words⟩

theorem words_redirect {cmd : Command Span} {tok : UInt8} {file w : Span}
    (h : w ∈ (redirect cmd tok file).words) : w ∈ cmd.words ∨ w = file := by
  unfold redirect at h
  split at h
  · simpa [Command.words] using h
  · split at h
    · simpa [Command.words] using h
    · split at h
      · simpa [Command.words] using h
      · exact .inl h

theorem words_addArg {cmd : Command Span} {q w : Span} (h : w ∈ (cmd.addArg q).words) :
    w ∈ cmd.words ∨ w = q := by
  induction cmd with
  | exec argv => simpa [Command.addArg, Command.words] using h
  | redir cmd file mode fd ih =>
      simp only [Command.addArg, Command.words, List.mem_append, List.mem_singleton] at h ⊢
      rcases h with h | h
      · rcases ih h with h | h
        · exact .inl (.inl h)
        · exact .inr h
      · exact .inl (.inr h)
  | pipe left right => exact .inl h
  | list left right => exact .inl h
  | back cmd => exact .inl h

/-- A symbol that was seen is read. -/
theorem symbol_ends (hs : s ≤ text.length) (hskip : skip text s = s) (h0 : charAt text s ≠ 0) :
    Ends (gettoken text s) (fun _ s' => s < s' ∧ s' ≤ text.length) Refused :=
  (gettoken_ends hs).imp fun _ _ h => ⟨h.2.2.1 (.inl (by rwa [hskip])), h.2.1⟩

theorem parseredirs_ends (n : Nat) {s : Nat} {cmd : Command Span} (hs : s ≤ text.length)
    (hn : text.length - s < n) (hcmd : ∀ w ∈ cmd.words, Delimited text w) :
    Ends (parseredirs n cmd text s) (Parsed text s) Refused := by
  induction n generalizing s cmd with
  | zero => omega
  | succ n ih =>
      unfold parseredirs
      refine (peek_ends _ hs).bind fun b s₁ hp => ?_
      obtain ⟨hle₁, hlen₁, hskip, htok⟩ := hp
      refine Ends.ite (fun hb => ?_) fun _ => Ends.pure ⟨hle₁, hlen₁, hcmd⟩
      refine (symbol_ends hlen₁ hskip (htok hb).1).bind fun tok s₂ ht => ?_
      refine (gettoken_ends ht.2).bind fun file s₃ hf => ?_
      obtain ⟨hle₃, hlen₃, -, hword⟩ := hf
      refine Ends.ite (fun _ => Ends.abort (by simp [Refused, syntaxErrors])) fun hret => ?_
      refine (ih hlen₃ (by omega) fun w hw => ?_).imp fun _ _ h => h.from (by omega)
      rcases words_redirect hw with hw | hw
      · exact hcmd w hw
      · rw [hw]
        exact hword (not_not.mp hret)

theorem parsebacks_ends (n : Nat) {s : Nat} {cmd : Command Span} (hs : s ≤ text.length)
    (hn : text.length - s < n) (hcmd : ∀ w ∈ cmd.words, Delimited text w) :
    Ends (parsebacks n cmd text s) (Parsed text s) Refused := by
  induction n generalizing s cmd with
  | zero => omega
  | succ n ih =>
      unfold parsebacks
      refine (peek_ends _ hs).bind fun b s₁ hp => ?_
      obtain ⟨hle₁, hlen₁, hskip, htok⟩ := hp
      refine Ends.ite (fun hb => ?_) fun _ => Ends.pure ⟨hle₁, hlen₁, hcmd⟩
      refine (symbol_ends hlen₁ hskip (htok hb).1).bind fun tok s₂ ht => ?_
      have hle₂ := ht.1
      exact (ih ht.2 (by omega) (by exact hcmd)).imp fun _ _ h => h.from (by omega)

theorem parseargs_ends (n : Nat) {s argc : Nat} {ret : Command Span} (hs : s ≤ text.length)
    (hn : text.length - s < n) (hret : ∀ w ∈ ret.words, Delimited text w) :
    Ends (parseargs n argc ret text s) (Parsed text s) Refused := by
  induction n generalizing s argc ret with
  | zero => omega
  | succ n ih =>
      unfold parseargs
      refine (peek_ends _ hs).bind fun b s₁ hp => ?_
      obtain ⟨hle₁, hlen₁, -, -⟩ := hp
      refine Ends.ite (fun _ => Ends.pure ⟨hle₁, hlen₁, hret⟩) fun _ => ?_
      refine (gettoken_ends hlen₁).bind fun tok s₂ ht => ?_
      obtain ⟨hle₂, hlen₂, hlt, hword⟩ := ht
      refine Ends.ite (fun _ => Ends.pure ⟨by omega, hlen₂, hret⟩) fun h0 => ?_
      have hlt₂ := hlt (.inr h0)
      refine Ends.ite (fun _ => Ends.abort (by simp [Refused, syntaxErrors])) fun ha => ?_
      refine Ends.ite (fun _ => Ends.abort (by simp [Refused, syntaxErrors])) fun _ => ?_
      have hargs : ∀ w ∈ (ret.addArg tok.word).words, Delimited text w := by
        intro w hw
        rcases words_addArg hw with hw | hw
        · exact hret w hw
        · rw [hw]
          exact hword (not_not.mp ha)
      refine (parseredirs_ends n hlen₂ (by omega) hargs).bind fun cmd s₃ hr => ?_
      have hle₃ := hr.le
      exact (ih hr.length (by omega) hr.words).imp fun _ _ h => h.from (by omega)

/-- Four calls for each byte that is left. -/
structure ParserEnds (text : Text) (n : Nat) : Prop where
  line : ∀ s ≤ text.length, 4 * (text.length - s) + 4 ≤ n →
    Ends (parseline n text s) (Parsed text s) Refused
  pipe : ∀ s ≤ text.length, 4 * (text.length - s) + 3 ≤ n →
    Ends (parsepipe n text s) (Parsed text s) Refused
  exec : ∀ s ≤ text.length, 4 * (text.length - s) + 2 ≤ n →
    Ends (parseexec n text s) (Parsed text s) Refused
  block : ∀ s ≤ text.length, 4 * (text.length - s) + 1 ≤ n → skip text s = s →
    charAt text s = lparen → Ends (parseblock n text s) (Parsed text s) Refused

namespace ParserEnds

theorem line_succ (h : ParserEnds text n) (hs : s ≤ text.length)
    (hn : 4 * (text.length - s) + 4 ≤ n + 1) :
    Ends (parseline (n + 1) text s) (Parsed text s) Refused := by
  unfold parseline
  refine (h.pipe s hs (by omega)).bind fun cmd s₁ h₁ => ?_
  have hle₁ := h₁.le
  refine (parsebacks_ends n h₁.length (by omega) h₁.words).bind fun cmd s₂ h₂ => ?_
  have hle₂ := h₂.le
  refine (peek_ends _ h₂.length).bind fun b s₃ hp => ?_
  obtain ⟨hle₃, hlen₃, hskip, htok⟩ := hp
  refine Ends.ite (fun hb => ?_) fun _ => Ends.pure ⟨by omega, hlen₃, h₂.words⟩
  refine (symbol_ends hlen₃ hskip (htok hb).1).bind fun tok s₄ ht => ?_
  refine (h.line s₄ ht.2 (by omega)).bind fun right s₅ h₅ => ?_
  have hle₅ := h₅.le
  refine Ends.pure ⟨by omega, h₅.length, fun w hw => ?_⟩
  exact (List.mem_append.mp hw).elim (h₂.words w) (h₅.words w)

theorem pipe_succ (h : ParserEnds text n) (hs : s ≤ text.length)
    (hn : 4 * (text.length - s) + 3 ≤ n + 1) :
    Ends (parsepipe (n + 1) text s) (Parsed text s) Refused := by
  unfold parsepipe
  refine (h.exec s hs (by omega)).bind fun cmd s₁ h₁ => ?_
  have hle₁ := h₁.le
  refine (peek_ends _ h₁.length).bind fun b s₂ hp => ?_
  obtain ⟨hle₂, hlen₂, hskip, htok⟩ := hp
  refine Ends.ite (fun hb => ?_) fun _ => Ends.pure ⟨by omega, hlen₂, h₁.words⟩
  refine (symbol_ends hlen₂ hskip (htok hb).1).bind fun tok s₃ ht => ?_
  refine (h.pipe s₃ ht.2 (by omega)).bind fun right s₄ h₄ => ?_
  have hle₄ := h₄.le
  refine Ends.pure ⟨by omega, h₄.length, fun w hw => ?_⟩
  exact (List.mem_append.mp hw).elim (h₁.words w) (h₄.words w)

theorem exec_succ (h : ParserEnds text n) (hs : s ≤ text.length)
    (hn : 4 * (text.length - s) + 2 ≤ n + 1) :
    Ends (parseexec (n + 1) text s) (Parsed text s) Refused := by
  unfold parseexec
  refine (peek_ends _ hs).bind fun b s₁ hp => ?_
  obtain ⟨hle₁, hlen₁, hskip, htok⟩ := hp
  refine Ends.ite (fun hb => ?_) fun _ => ?_
  · have hparen := List.mem_singleton.mp (htok hb).2
    exact (h.block s₁ hlen₁ (by omega) hskip hparen).imp fun _ _ h => h.from hle₁
  · refine (parseredirs_ends n hlen₁ (by omega) fun w hw => ?_).bind fun ret s₂ h₂ => ?_
    · cases hw
    · have hle₂ := h₂.le
      exact (parseargs_ends n h₂.length (by omega) h₂.words).imp fun _ _ h => h.from (by omega)

/-- The `(` was seen by `parseexec`, so "parseblock" is never printed. -/
theorem block_succ (h : ParserEnds text n) (hs : s ≤ text.length)
    (hn : 4 * (text.length - s) + 1 ≤ n + 1) (hskip : skip text s = s)
    (hparen : charAt text s = lparen) :
    Ends (parseblock (n + 1) text s) (Parsed text s) Refused := by
  have h0 : charAt text s ≠ 0 := by
    rw [hparen]
    decide
  have hlt := lt_of_charAt h0
  have hpeek : peek [lparen] text s = .ok true s := by
    rw [peek, hskip, hparen]
    rfl
  unfold parseblock
  rw [bind_ok hpeek]
  refine Ends.ite (fun _ => ?_) fun hno => absurd rfl hno
  refine (symbol_ends hs hskip h0).bind fun tok s₁ ht => ?_
  refine (h.line s₁ ht.2 (by omega)).bind fun cmd s₂ h₂ => ?_
  have hle₂ := h₂.le
  refine (peek_ends _ h₂.length).bind fun b s₃ hp => ?_
  obtain ⟨hle₃, hlen₃, hskip₃, htok⟩ := hp
  refine Ends.ite (fun hb => ?_) fun _ => Ends.abort (by simp [Refused, syntaxErrors])
  refine (symbol_ends hlen₃ hskip₃ (htok hb).1).bind fun tok s₄ ht' => ?_
  exact (parseredirs_ends n ht'.2 (by omega) h₂.words).imp fun _ _ h => h.from (by omega)

end ParserEnds

theorem parser_ends (text : Text) (n : Nat) : ParserEnds text n := by
  induction n with
  | zero =>
      refine ⟨?_, ?_, ?_, ?_⟩ <;> intros <;> omega
  | succ n ih =>
      exact ⟨fun _ hs hn => ih.line_succ hs hn, fun _ hs hn => ih.pipe_succ hs hn,
        fun _ hs hn => ih.exec_succ hs hn, fun _ hs hn hskip hp => ih.block_succ hs hn hskip hp⟩

/-! ## C strings -/

/-- The bytes between two pointers. -/
def slice (text : Text) (w : Span) : Text := (text.drop w.start).take (w.stop - w.start)

/-- A NUL is written at each of these places. -/
def nuls (buf : Buffer) (stops : List Nat) : Buffer := stops.foldl (fun buf i => buf.set i 0) buf

theorem nulterminate_eq (cmd : Command Span) (buf : Buffer) :
    nulterminate cmd buf = nuls buf (cmd.words.map Span.stop) := by
  induction cmd generalizing buf with
  | exec argv => rw [nulterminate, nuls, Command.words, List.foldl_map]
  | redir cmd file mode fd ih =>
      rw [nulterminate, ih, Command.words, List.map_append, nuls, nuls, List.foldl_append]
      rfl
  | pipe left right ihl ihr =>
      rw [nulterminate, ihl, ihr, Command.words, List.map_append, nuls, nuls, nuls, List.foldl_append]
  | list left right ihl ihr =>
      rw [nulterminate, ihl, ihr, Command.words, List.map_append, nuls, nuls, nuls, List.foldl_append]
  | back cmd ih => rw [nulterminate, ih, Command.words]

theorem charAt_set (buf : Buffer) (i j : Nat) :
    charAt (buf.set i 0) j = if j = i then 0 else charAt buf j := by
  rw [charAt, charAt, List.getD_eq_getElem?_getD, List.getD_eq_getElem?_getD, List.getElem?_set]
  by_cases h : j = i
  · rw [if_pos h, if_pos h.symm]
    split <;> rfl
  · rw [if_neg h, if_neg (Ne.symm h)]

theorem charAt_nuls (buf : Buffer) (stops : List Nat) (i : Nat) :
    charAt (nuls buf stops) i = if i ∈ stops then 0 else charAt buf i := by
  induction stops generalizing buf with
  | nil => rfl
  | cons j stops ih =>
      have hrest : charAt (nuls (buf.set j 0) stops) i = _ := ih (buf.set j 0)
      rw [charAt_set] at hrest
      by_cases hi : i ∈ stops
      · rw [if_pos hi] at hrest
        rw [if_pos (List.mem_cons_of_mem j hi)]
        exact hrest
      · rw [if_neg hi] at hrest
        by_cases hij : i = j
        · rw [if_pos hij] at hrest
          rw [if_pos (hij ▸ List.mem_cons_self)]
          exact hrest
        · rw [if_neg hij] at hrest
          rw [if_neg (by simp [hij, hi])]
          exact hrest

theorem drop_cons (h : s < text.length) : text.drop s = charAt text s :: text.drop (s + 1) := by
  rw [List.drop_eq_getElem_cons h, charAt, List.getD_eq_getElem _ _ h]

/-- The string at `s` ends at the first NUL. -/
theorem cstr_drop {buf : Buffer} {k : Nat} (hlen : s + k ≤ text.length)
    (hin : ∀ i, s ≤ i → i < s + k → charAt buf i = charAt text i ∧ charAt text i ≠ 0)
    (hend : charAt buf (s + k) = 0) : cstr (buf.drop s) = (text.drop s).take k := by
  induction k generalizing s with
  | zero =>
      rw [Nat.add_zero, charAt_eq] at hend
      rw [List.take_zero]
      cases hd : buf.drop s with
      | nil => rfl
      | cons c l =>
          rw [hd, List.headD_cons] at hend
          rw [hend]
          rfl
  | succ k ih =>
      obtain ⟨heq, h0⟩ := hin s (Nat.le_refl s) (by omega)
      have hbuf : s < List.length buf := lt_of_charAt (by rw [heq]; exact h0)
      have hrest := ih (s := s + 1) (by omega) (fun i hle hlt => hin i (by omega) (by omega))
        (by rwa [show s + 1 + k = s + (k + 1) by omega])
      rw [drop_cons hbuf, drop_cons (show s < text.length by omega), List.take_succ_cons, ← hrest,
        heq, cstr, cstr, List.takeWhile_cons, if_pos (decide_eq_true h0)]

theorem charAt_cstr {buf : Buffer} (h : i < (cstr buf).length) : charAt (cstr buf) i ≠ 0 := by
  have hp : decide ((cstr buf)[i] ≠ 0) = true :=
    List.mem_takeWhile_imp (p := fun c => decide (c ≠ 0)) (List.getElem_mem h)
  rw [charAt, List.getD_eq_getElem _ _ h]
  exact of_decide_eq_true hp

/-- A NUL behind a token hits no other token. -/
theorem Delimited.cstr_nuls {ws : List Span} {w : Span} (h : Delimited text w)
    (hnul : ∀ i < text.length, charAt text i ≠ 0) (hw : w ∈ ws)
    (hws : ∀ w' ∈ ws, Delimited text w') :
    cstr ((nuls (text ++ [0]) (ws.map Span.stop)).drop w.start) = slice text w := by
  have hlt := h.lt
  have hle := h.le
  refine cstr_drop (by omega) (fun i hi hi' => ⟨?_, hnul i (by omega)⟩) ?_
  · have hout : i ∉ ws.map Span.stop := by
      intro hmem
      obtain ⟨w', hw', rfl⟩ := List.mem_map.mp hmem
      have hin := h.inside w'.stop hi (by omega)
      rw [(hws w' hw').behind (by omega)] at hin
      cases hin
    rw [charAt_nuls, if_neg hout, charAt, List.getD_append _ _ _ _ (by omega), charAt]
  · rw [charAt_nuls, if_pos]
    rw [show w.start + (w.stop - w.start) = w.stop by omega]
    exact List.mem_map_of_mem hw

/-! ## `parsecmd` -/

/-- A whole line: a tree of its tokens, or a syntax error. -/
theorem parsecmd_ends (s : Buffer) :
    Ends (parsecmd s) (fun r _ => (∀ w ∈ r.1.words, Delimited (cstr s) w) ∧
      r.2 = nuls (cstr s ++ [0]) (r.1.words.map Span.stop)) Refused := by
  unfold parsecmd parseall
  refine ((parser_ends (cstr s) _).line 0 (Nat.zero_le _) (by omega)).bind fun cmd s₁ h => ?_
  refine (peek_ends [] h.length).bind fun b s₂ _ => ?_
  change Ends ((if s₂ ≠ (cstr s).length then abort "syntax" else
    pure (cmd, nulterminate cmd (cstr s ++ [0])) : ParseM (Command Span × Buffer)) (cstr s) s₂) _ _
  refine Ends.ite (fun _ => Ends.abort (by simp [Refused, syntaxErrors])) fun _ => ?_
  exact Ends.pure ⟨h.words, nulterminate_eq cmd _⟩

/-- **`nulterminate` damages no token**: its writes are in the buffer, and each
string of the tree is the token that was read for it. -/
theorem nulterminate_keeps_tokens {s : Buffer} {cmd : Command Span} {buf : Buffer} {s' : Nat}
    (h : parsecmd s = .ok (cmd, buf) s') :
    buf = nuls (cstr s ++ [0]) (cmd.words.map Span.stop) ∧
      ∀ w ∈ cmd.words, w.stop < (cstr s ++ [0]).length ∧ Delimited (cstr s) w ∧
        cstr (buf.drop w.start) = slice (cstr s) w := by
  obtain ⟨hwords, hbuf⟩ := (parsecmd_ends s).of_ok h
  refine ⟨hbuf, fun w hw => ?_⟩
  have hd := hwords w hw
  have hle := hd.le
  refine ⟨?_, hd, ?_⟩
  · rw [List.length_append, List.length_singleton]
    omega
  · change buf = _ at hbuf
    rw [hbuf]
    exact hd.cstr_nuls (fun i hi => charAt_cstr hi) hw hwords

/-- `a>b|c`: the `>` and the `|` are overwritten. -/
theorem nulterminate_keeps_adjacent : ∃ cmd buf s',
    parsecmd [97, 62, 98, 124, 99] = .ok (cmd, buf) s' ∧
      (buf = nuls (cstr [97, 62, 98, 124, 99] ++ [0]) (cmd.words.map Span.stop) ∧
        ∀ w ∈ cmd.words, w.stop < (cstr [97, 62, 98, 124, 99] ++ [0]).length ∧
          Delimited (cstr [97, 62, 98, 124, 99]) w ∧
          cstr (buf.drop w.start) = slice (cstr [97, 62, 98, 124, 99]) w) := by
  have hrun : ((parsecmd [97, 62, 98, 124, 99]).result?.map fun r => r.1.2) =
      some [97, 0, 98, 0, 99, 0] := by decide +kernel
  obtain ⟨⟨cmd, buf⟩, s', hok, -⟩ := Outcome.ok_of_map hrun
  exact ⟨cmd, buf, s', hok, nulterminate_keeps_tokens hok⟩

end Rxv64.Cmd.Sh
