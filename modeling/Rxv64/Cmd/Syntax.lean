import Rxv64.Cmd.Tokens

/-!
# Cmd.Syntax — the grammar of the shell

    line = pipe '&'* [';' line]
    pipe = exec ['|' pipe]
    exec = words and redirs, or '(' line ')' redirs

A tree is printed as tokens, with parentheses where it stands in the place of
something that binds tighter. The tokens may be written with any white space
between them.
-/

namespace Rxv64.Cmd.Sh

open Prog

variable {text l : Text} {s s' n : Nat} {toks : List UInt8}

/-! ## More fuel -/

theorem parseredirs_le (n : Nat) (cmd : Command Span) :
    Le (parseredirs n cmd) (parseredirs (n + 1) cmd) := by
  induction n generalizing cmd with
  | zero => exact Le.block
  | succ n ih =>
      refine Le.bind Le.refl fun _ => Le.ite (Le.bind Le.refl fun _ => Le.bind Le.refl fun _ =>
        Le.ite Le.refl (ih _)) Le.refl

theorem parsebacks_le (n : Nat) (cmd : Command Span) :
    Le (parsebacks n cmd) (parsebacks (n + 1) cmd) := by
  induction n generalizing cmd with
  | zero => exact Le.block
  | succ n ih =>
      exact Le.bind Le.refl fun _ => Le.ite (Le.bind Le.refl fun _ => ih _) Le.refl

theorem parseargs_le (n argc : Nat) (ret : Command Span) :
    Le (parseargs n argc ret) (parseargs (n + 1) argc ret) := by
  induction n generalizing argc ret with
  | zero => exact Le.block
  | succ n ih =>
      exact Le.bind Le.refl fun _ => Le.ite Le.refl (Le.bind Le.refl fun _ => Le.ite Le.refl
        (Le.ite Le.refl (Le.ite Le.refl (Le.bind (parseredirs_le n _) fun _ => ih _ _))))

/-- All four at once: they call each other. -/
theorem parser_le (n : Nat) :
    Le (parseline n) (parseline (n + 1)) ∧ Le (parsepipe n) (parsepipe (n + 1)) ∧
      Le (parseblock n) (parseblock (n + 1)) ∧ Le (parseexec n) (parseexec (n + 1)) := by
  induction n with
  | zero => exact ⟨Le.block, Le.block, Le.block, Le.block⟩
  | succ n ih =>
      obtain ⟨hline, hpipe, hblock, hexec⟩ := ih
      refine ⟨?_, ?_, ?_, ?_⟩
      · exact Le.bind hpipe fun _ => Le.bind (parsebacks_le n _) fun _ => Le.bind Le.refl fun _ =>
          Le.ite (Le.bind Le.refl fun _ => Le.bind hline fun _ => Le.refl) Le.refl
      · exact Le.bind hexec fun _ => Le.bind Le.refl fun _ =>
          Le.ite (Le.bind Le.refl fun _ => Le.bind hpipe fun _ => Le.refl) Le.refl
      · exact Le.bind Le.refl fun _ => Le.ite (Le.bind Le.refl fun _ => Le.bind hline fun _ =>
          Le.bind Le.refl fun _ => Le.ite (Le.bind Le.refl fun _ => parseredirs_le n _) Le.refl)
          Le.refl
      · exact Le.bind Le.refl fun _ => Le.ite hblock
          (Le.bind (parseredirs_le n _) fun _ => parseargs_le n _ _)

/-! ## Text and tokens -/

/-- A token of a printed line. -/
inductive Tok where
  | word (w : Text)
  | sym (c : UInt8)

/-- A string that is one token. -/
def Word (w : Text) : Prop := w ≠ [] ∧ ∀ c ∈ w, isWord c = true ∧ c ≠ 0

def Blank (ws : Text) : Prop := ∀ c ∈ ws, strchr whitespace c = true

/-- The text has these tokens. Words do not touch, and no `>` touches the next one. -/
inductive Renders : List Tok → Text → Prop
  | nil {ws : Text} (hws : Blank ws) : Renders [] ws
  | word {ws w rest : Text} {ts : List Tok} (hws : Blank ws) (hw : Word w)
      (hsep : ∀ c ∈ rest.head?, isWord c = false) (hrest : Renders ts rest) :
      Renders (.word w :: ts) (ws ++ (w ++ rest))
  | sym {ws rest : Text} {c : UInt8} {ts : List Tok} (hws : Blank ws) (hc : c ∈ symbols)
      (hsep : c = greater → rest.head? ≠ some greater) (hrest : Renders ts rest) :
      Renders (.sym c :: ts) (ws ++ (c :: rest))

/-- Is the first token one of these symbols. -/
def starts (toks : List UInt8) : List Tok → Bool
  | .sym c :: _ => strchr toks c
  | _ => false

theorem dropWhile_blank {ws : Text} (hws : Blank ws) (rest : Text) :
    (ws ++ rest).dropWhile (strchr whitespace) = rest.dropWhile (strchr whitespace) :=
  List.dropWhile_append_of_pos hws

theorem dropWhile_of_head {c : UInt8} {rest : Text} (h : strchr whitespace c = false) :
    (c :: rest).dropWhile (strchr whitespace) = c :: rest := by
  rw [List.dropWhile_cons, h]
  rfl

/-- Symbols are neither white space nor NUL nor part of a word. -/
theorem symbol_facts {c : UInt8} (h : c ∈ symbols) :
    strchr whitespace c = false ∧ c ≠ 0 ∧ isWord c = false := by
  have hall : (symbols.all fun c => !strchr whitespace c && decide (c ≠ 0) && !isWord c) = true := by
    decide
  have hc := List.all_eq_true.mp hall c h
  rw [Bool.and_eq_true, Bool.and_eq_true, Bool.not_eq_true', decide_eq_true_iff,
    Bool.not_eq_true'] at hc
  exact ⟨hc.1.1, hc.1.2, hc.2⟩

theorem word_head {w : Text} (hw : Word w) : ∃ c tl, w = c :: tl ∧ strchr whitespace c = false ∧
    strchr symbols c = false ∧ c ≠ 0 := by
  obtain ⟨hne, hall⟩ := hw
  cases w with
  | nil => exact absurd rfl hne
  | cons c tl =>
      obtain ⟨hc, h0⟩ := hall c List.mem_cons_self
      rw [isWord, Bool.and_eq_true, Bool.not_eq_true', Bool.not_eq_true'] at hc
      exact ⟨c, tl, rfl, hc.1, hc.2, h0⟩

theorem Renders.word_inv {w : Text} {ts : List Tok} (h : Renders (.word w :: ts) l) :
    ∃ rest, l.dropWhile (strchr whitespace) = w ++ rest ∧ Word w ∧
      (∀ c ∈ rest.head?, isWord c = false) ∧ Renders ts rest := by
  cases h with
  | word hws hw hsep hrest =>
      obtain ⟨c, tl, rfl, hc, -, -⟩ := word_head hw
      exact ⟨_, by rw [dropWhile_blank hws, List.cons_append, dropWhile_of_head hc], hw, hsep, hrest⟩

theorem Renders.sym_inv {c : UInt8} {ts : List Tok} (h : Renders (.sym c :: ts) l) :
    ∃ rest, l.dropWhile (strchr whitespace) = c :: rest ∧ c ∈ symbols ∧
      (c = greater → rest.head? ≠ some greater) ∧ Renders ts rest := by
  cases h with
  | sym hws hc hsep hrest =>
      exact ⟨_, by rw [dropWhile_blank hws, dropWhile_of_head (symbol_facts hc).1], hc, hsep, hrest⟩

theorem Renders.nil_inv (h : Renders [] l) : l.dropWhile (strchr whitespace) = [] := by
  cases h with
  | nil hws =>
      have hdrop := dropWhile_blank hws []
      rwa [List.append_nil] at hdrop

/-- White space in front does not matter. -/
theorem Renders.skip {ts : List Tok} (h : Renders ts (text.drop s)) :
    Renders ts (text.drop (skip text s)) := by
  rw [Sh.skip, drop_advance]
  have hnone : Blank [] := fun _ hc => absurd hc List.not_mem_nil
  cases ts with
  | nil =>
      rw [h.nil_inv]
      exact .nil hnone
  | cons t ts =>
      cases t with
      | word w =>
          obtain ⟨rest, heq, hw, hsep, hrest⟩ := h.word_inv
          rw [heq]
          exact .word hnone hw hsep hrest
      | sym c =>
          obtain ⟨rest, heq, hc, hsep, hrest⟩ := h.sym_inv
          rw [heq]
          exact .sym hnone hc hsep hrest

theorem charAt_skip (text : Text) (s : Nat) :
    charAt text (Sh.skip text s) = ((text.drop s).dropWhile (strchr whitespace)).headD 0 := by
  rw [charAt_eq, Sh.skip, drop_advance]

/-! ## What `peek` and `gettoken` see -/

theorem peek_at {ts : List Tok} (htoks : toks.all (strchr symbols) = true) (h : Renders ts (text.drop s)) :
    peek toks text s = .ok (starts toks ts) (skip text s) := by
  have hsee : (decide (charAt text (skip text s) ≠ 0) && strchr toks (charAt text (skip text s))) =
      starts toks ts := by
    rw [charAt_skip]
    cases ts with
    | nil =>
        rw [h.nil_inv]
        rfl
    | cons t ts =>
        cases t with
        | word w =>
            obtain ⟨rest, heq, hw, -, -⟩ := h.word_inv
            obtain ⟨c, tl, rfl, -, hc, -⟩ := word_head hw
            have hno : strchr toks c = false := by
              refine decide_eq_false fun hmem => ?_
              rw [List.all_eq_true.mp htoks c hmem] at hc
              cases hc
            rw [heq, List.cons_append, List.headD_cons, hno, Bool.and_false]
            rfl
        | sym c =>
            obtain ⟨rest, heq, hc, -, -⟩ := h.sym_inv
            rw [heq, List.headD_cons, decide_eq_true (symbol_facts hc).2.1, Bool.true_and]
            rfl
  rw [peek, hsee]

/-- What is left of the text is behind the token and the white space after it. -/
theorem gettoken_at {tok : UInt8} {stop : Nat} {ts : List Tok} {rest : Text}
    (hlex : lex text (skip text s) = (tok, stop)) (hrest : text.drop stop = rest)
    (h : Renders ts rest) : ∃ s', gettoken text s = .ok ⟨tok, skip text s, stop⟩ s' ∧
      Renders ts (text.drop s') := by
  refine ⟨skip text stop, ?_, ?_⟩
  · rw [gettoken, hlex]
  · subst hrest
    exact h.skip

theorem gettoken_word {w : Text} {ts : List Tok} (h : Renders (.word w :: ts) (text.drop s)) :
    ∃ sp s', gettoken text s = .ok ⟨aWord, sp⟩ s' ∧ slice text sp = w ∧
      Renders ts (text.drop s') := by
  obtain ⟨rest, heq, hw, hsep, hrest⟩ := h.word_inv
  have hdrop : text.drop (skip text s) = w ++ rest := by rw [skip, drop_advance, heq]
  have htake : (w ++ rest).takeWhile isWord = w := by
    rw [List.takeWhile_append_of_pos fun c hc => (hw.2 c hc).1]
    cases rest with
    | nil => rw [List.takeWhile_nil, List.append_nil]
    | cons c tl => rw [List.takeWhile_cons, hsep c rfl, if_neg Bool.false_ne_true, List.append_nil]
  have hadv : advance isWord text (skip text s) = skip text s + w.length := by
    rw [advance, hdrop, htake]
  have hlex : lex text (skip text s) = (aWord, skip text s + w.length) := by
    obtain ⟨c, tl, hc, -, hsym, h0⟩ := word_head hw
    have hchar : charAt text (skip text s) = c := by rw [charAt_eq, hdrop, hc]; rfl
    have hnot : c ∉ symbols := of_decide_eq_false hsym
    simp only [symbols, List.mem_cons, List.not_mem_nil, or_false, not_or] at hnot
    rw [lex, hchar, if_neg h0, if_neg (by simp [hnot]), if_neg hnot.2.2.1, hadv]
  obtain ⟨s', hrun, hts⟩ := gettoken_at hlex
    (by rw [← List.drop_drop, hdrop, List.drop_left]) hrest
  refine ⟨_, s', hrun, ?_, hts⟩
  rw [slice, hdrop, Nat.add_sub_cancel_left, List.take_left]

theorem gettoken_sym {c : UInt8} {ts : List Tok} (h : Renders (.sym c :: ts) (text.drop s)) :
    ∃ sp s', gettoken text s = .ok ⟨c, sp⟩ s' ∧ Renders ts (text.drop s') := by
  obtain ⟨rest, heq, hc, hsep, hrest⟩ := h.sym_inv
  have hdrop : text.drop (skip text s) = c :: rest := by rw [skip, drop_advance, heq]
  have hchar : charAt text (skip text s) = c := by rw [charAt_eq, hdrop]; rfl
  have htail : text.drop (skip text s + 1) = rest := by
    rw [← List.drop_drop, hdrop]
    rfl
  have hlex : lex text (skip text s) = (c, skip text s + 1) := by
    rw [lex, hchar, if_neg (symbol_facts hc).2.1]
    by_cases hg : c = greater
    · have hnext : charAt text (skip text s + 1) ≠ greater := by
        rw [charAt_eq, htail]
        cases rest with
        | nil => decide
        | cons d tl => exact fun hd => hsep hg (congrArg some hd)
      rw [if_neg (by rw [hg]; decide), if_pos hg, if_neg hnext, hg]
    · have hall : (symbols.all fun c => decide (c = greater) ||
          strchr [bar, lparen, rparen, semicolon, ampersand, less] c) = true := by decide
      have hother := List.all_eq_true.mp hall c hc
      rw [decide_eq_false hg, Bool.false_or] at hother
      rw [if_pos (of_decide_eq_true hother)]
  obtain ⟨s', hrun, hts⟩ := gettoken_at hlex htail hrest
  exact ⟨_, s', hrun, hts⟩

theorem gettoken_nil (h : Renders [] (text.drop s)) :
    ∃ sp s', gettoken text s = .ok ⟨0, sp⟩ s' ∧ Renders [] (text.drop s') := by
  have hchar : charAt text (skip text s) = 0 := by
    rw [charAt_skip, h.nil_inv]
    rfl
  have hlex : lex text (skip text s) = (0, skip text s) := by rw [lex, if_pos hchar]
  obtain ⟨s', hrun, hts⟩ := gettoken_at hlex rfl h.skip
  exact ⟨_, s', hrun, hts⟩

/-! ## Printing -/

/-- A redirection: the file, the mode and the descriptor. -/
abbrev Redir := Text × Nat × Nat

def redirTokens (r : Redir) : List Tok :=
  [.sym (if r.2.1 = oRdonly then less else greater), .word r.1]

def parens (toks : List Tok) : List Tok := .sym lparen :: (toks ++ [.sym rparen])

namespace Command

variable {α : Type}

/-- How tightly the tokens of a tree bind: 0 for a line, 3 for what `parseexec` reads. -/
def level : Command α → Nat
  | exec _ => 3
  | redir _ _ _ _ => 3
  | pipe _ _ => 2
  | back _ => 1
  | list _ _ => 0

def print : Command Text → List Tok
  | exec argv => argv.map .word
  | redir cmd file mode fd =>
      (if 3 ≤ cmd.level then cmd.print else parens cmd.print) ++ redirTokens (file, mode, fd)
  | pipe left right =>
      (if 3 ≤ left.level then left.print else parens left.print) ++
        .sym bar :: (if 2 ≤ right.level then right.print else parens right.print)
  | list left right =>
      (if 1 ≤ left.level then left.print else parens left.print) ++ .sym semicolon :: right.print
  | back cmd => (if 1 ≤ cmd.level then cmd.print else parens cmd.print) ++ [.sym ampersand]

/-- The tree in a place for something of level `lvl`. -/
def printAt (lvl : Nat) (cmd : Command Text) : List Tok :=
  if lvl ≤ cmd.level then cmd.print else parens cmd.print

/-- Words that are tokens, fewer than `MAXARGS` to a command, and the two kinds of
redirection that the shell has. -/
def Printable : Command Text → Prop
  | exec argv => argv.length < maxArgs ∧ ∀ w ∈ argv, Word w
  | redir cmd file mode fd => cmd.Printable ∧ Word file ∧
      ((mode = oRdonly ∧ fd = 0) ∨ (mode = oWronlyCreat ∧ fd = 1))
  | pipe left right => left.Printable ∧ right.Printable
  | list left right => left.Printable ∧ right.Printable
  | back cmd => cmd.Printable

/-! Redirections are read in a row behind what they are wrapped around. -/

def addRedir (cmd : Command α) (r : α × Nat × Nat) : Command α := .redir cmd r.1 r.2.1 r.2.2

def base : Command α → Command α
  | redir cmd _ _ _ => cmd.base
  | cmd => cmd

/-- The innermost first. -/
def redirs : Command α → List (α × Nat × Nat)
  | redir cmd file mode fd => cmd.redirs ++ [(file, mode, fd)]
  | _ => []

theorem base_ne_redir (cmd sub : Command α) (file : α) (mode fd : Nat) :
    cmd.base ≠ redir sub file mode fd := by
  induction cmd with
  | redir cmd _ _ _ ih => exact ih
  | exec argv => exact fun h => by cases h
  | pipe left right => exact fun h => by cases h
  | list left right => exact fun h => by cases h
  | back cmd => exact fun h => by cases h

theorem foldl_redirs (cmd : Command α) : cmd.redirs.foldl addRedir cmd.base = cmd := by
  induction cmd with
  | redir cmd file mode fd ih =>
      rw [redirs, base, List.foldl_append, ih]
      rfl
  | exec argv => rfl
  | pipe left right => rfl
  | list left right => rfl
  | back cmd => rfl

theorem printAt_three (cmd : Command Text) :
    cmd.printAt 3 = cmd.base.printAt 3 ++ cmd.redirs.flatMap redirTokens := by
  induction cmd with
  | redir cmd file mode fd ih =>
      have hprint : (redir cmd file mode fd).printAt 3 =
          cmd.printAt 3 ++ redirTokens (file, mode, fd) := rfl
      rw [hprint, ih, base, redirs, List.flatMap_append, List.append_assoc]
      simp
  | exec argv => simp [base, redirs]
  | pipe left right => simp [base, redirs]
  | list left right => simp [base, redirs]
  | back cmd => simp [base, redirs]

/-- What `parseredirs` makes of a valid redirection. -/
def ValidRedir (r : Redir) : Prop :=
  Word r.1 ∧ ((r.2.1 = oRdonly ∧ r.2.2 = 0) ∨ (r.2.1 = oWronlyCreat ∧ r.2.2 = 1))

theorem Printable.spine {cmd : Command Text} (h : cmd.Printable) :
    cmd.base.Printable ∧ ∀ r ∈ cmd.redirs, ValidRedir r := by
  induction cmd with
  | redir cmd file mode fd ih =>
      obtain ⟨hcmd, hfile, hkind⟩ := h
      refine ⟨(ih hcmd).1, fun r hr => ?_⟩
      rcases List.mem_append.mp hr with hr | hr
      · exact (ih hcmd).2 r hr
      · rw [List.mem_singleton.mp hr]
        exact ⟨hfile, hkind⟩
  | exec argv => exact ⟨h, fun r hr => absurd hr List.not_mem_nil⟩
  | pipe left right => exact ⟨h, fun r hr => absurd hr List.not_mem_nil⟩
  | list left right => exact ⟨h, fun r hr => absurd hr List.not_mem_nil⟩
  | back cmd => exact ⟨h, fun r hr => absurd hr List.not_mem_nil⟩

theorem map_addArg {β : Type} (f : α → β) (cmd : Command α) (q : α) :
    (cmd.addArg q).map f = (cmd.map f).addArg (f q) := by
  induction cmd with
  | exec argv => simp [addArg, map]
  | redir cmd file mode fd ih => rw [addArg, map, map, ih, addArg]
  | pipe left right => rfl
  | list left right => rfl
  | back cmd => rfl

theorem map_congr {β : Type} {f g : α → β} {cmd : Command α} (h : ∀ w ∈ cmd.words, f w = g w) :
    cmd.map f = cmd.map g := by
  induction cmd with
  | exec argv => exact congrArg exec (List.map_congr_left h)
  | redir cmd file mode fd ih =>
      rw [map, map, ih fun w hw => h w (List.mem_append_left _ hw),
        h file (List.mem_append_right _ List.mem_cons_self)]
  | pipe left right ihl ihr =>
      rw [map, map, ihl fun w hw => h w (List.mem_append_left _ hw),
        ihr fun w hw => h w (List.mem_append_right _ hw)]
  | list left right ihl ihr =>
      rw [map, map, ihl fun w hw => h w (List.mem_append_left _ hw),
        ihr fun w hw => h w (List.mem_append_right _ hw)]
  | back cmd ih => rw [map, map, ih h]

end Command

/-! ## What the loops read -/

/-- The tokens end or go on with one of these symbols. -/
def Follow (toks : List UInt8) (ts : List Tok) : Prop :=
  ts = [] ∨ ∃ c ∈ toks, ∃ rest, ts = .sym c :: rest

theorem Follow.starts_eq {toks toks' : List UInt8} {ts : List Tok} (h : Follow toks ts)
    (hdis : (toks.all fun c => !strchr toks' c) = true) : starts toks' ts = false := by
  obtain rfl | ⟨c, hc, rest, rfl⟩ := h
  · rfl
  · have hno := List.all_eq_true.mp hdis c hc
    rwa [Bool.not_eq_true'] at hno

theorem Follow.mono {toks toks' : List UInt8} {ts : List Tok} (h : Follow toks ts)
    (hsub : toks.all (strchr toks') = true) : Follow toks' ts := by
  obtain rfl | ⟨c, hc, rest, rfl⟩ := h
  · exact .inl rfl
  · exact .inr ⟨c, of_decide_eq_true (List.all_eq_true.mp hsub c hc), rest, rfl⟩

/-- From `s` the tree `c` is read, up to the tokens `ts`. -/
def Reads (g : Nat → ParseM (Command Span)) (text : Text) (s : Nat) (c : Command Text)
    (ts : List Tok) : Prop :=
  ∃ cmd s', Yields g text s cmd s' ∧ cmd.map (slice text) = c ∧ Renders ts (text.drop s')

variable {ts : List Tok} {cmd : Command Span} {c : Command Text}

theorem map_redirect {r : Redir} {sp : Span} (hr : Command.ValidRedir r)
    (hc : cmd.map (slice text) = c) (hsp : slice text sp = r.1) :
    (redirect cmd (if r.2.1 = oRdonly then less else greater) sp).map (slice text) =
      c.addRedir r := by
  obtain ⟨-, hkind⟩ := hr
  obtain ⟨hmode, hfd⟩ | ⟨hmode, hfd⟩ := hkind
  · rw [hmode, if_pos rfl, redirect, if_pos rfl, Command.map, hc, hsp, Command.addRedir, hmode, hfd]
  · have hne : oWronlyCreat ≠ oRdonly := by decide
    have hgl : greater ≠ less := by decide
    rw [hmode, if_neg hne, redirect, if_neg hgl, if_pos rfl, Command.map, hc, hsp,
      Command.addRedir, hmode, hfd]

/-- `parseredirs` reads the redirections that are there. -/
theorem parseredirs_reads (rs : List Redir) (hrs : ∀ r ∈ rs, Command.ValidRedir r)
    (hc : cmd.map (slice text) = c) (h : Renders (rs.flatMap redirTokens ++ ts) (text.drop s))
    (hts : starts [less, greater] ts = false) :
    Reads (fun n => parseredirs n cmd) text s (rs.foldl Command.addRedir c) ts := by
  have hsub : [less, greater].all (strchr symbols) = true := by decide
  induction rs generalizing s cmd c with
  | nil =>
      have hpeek := peek_at hsub h
      rw [List.flatMap_nil, List.nil_append, hts] at hpeek
      refine ⟨cmd, skip text s, Yields.succ ?_, hc, h.skip⟩
      exact (Yields.const hpeek).bind (Yields.neg Bool.false_ne_true Yields.pure)
  | cons r rs ih =>
      have hvalid := hrs r List.mem_cons_self
      rw [List.flatMap_cons, redirTokens, List.append_assoc] at h
      have hpeek := peek_at hsub h
      have hstart : starts [less, greater] ([.sym (if r.2.1 = oRdonly then less else greater),
          .word r.1] ++ (rs.flatMap redirTokens ++ ts)) = true := by
        by_cases hm : r.2.1 = oRdonly
        · rw [if_pos hm]
          rfl
        · rw [if_neg hm]
          rfl
      rw [hstart] at hpeek
      obtain ⟨sp₁, s₁, hsym, h₁⟩ := gettoken_sym h.skip
      obtain ⟨sp, s₂, hword, hsp, h₂⟩ := gettoken_word h₁
      obtain ⟨cmd', s', hrun, hmap, hts'⟩ := ih (fun r hr => hrs r (List.mem_cons_of_mem _ hr))
        (map_redirect hvalid hc hsp) h₂
      refine ⟨cmd', s', Yields.succ ?_, hmap, hts'⟩
      exact (Yields.const hpeek).bind (Yields.pos rfl ((Yields.const hsym).bind
        ((Yields.const hword).bind (Yields.neg (not_not.mpr rfl) hrun))))

/-- The words of a command, then its redirections, then something that ends it. -/
theorem parseargs_reads (ws : List Text) {done : List Text} {rs : List Redir}
    (hws : ∀ w ∈ ws, Word w) (hrs : ∀ r ∈ rs, Command.ValidRedir r)
    (hlen : done.length + ws.length < maxArgs) (hc : cmd.map (slice text) = .exec done)
    (h : Renders (ws.map .word ++ (rs.flatMap redirTokens ++ ts)) (text.drop s))
    (hts : Follow [bar, rparen, ampersand, semicolon] ts) :
    Reads (fun n => parseredirs n cmd >>= fun ret => parseargs n done.length ret) text s
      (rs.foldl Command.addRedir (.exec (done ++ ws))) ts := by
  have hsub : [bar, rparen, ampersand, semicolon].all (strchr symbols) = true := by decide
  induction ws generalizing s cmd done with
  | nil =>
      obtain ⟨ret, s₁, hrun, hmap, h₁⟩ := parseredirs_reads rs hrs hc h (hts.starts_eq (by decide))
      rw [List.append_nil]
      have hpeek := peek_at hsub h₁
      obtain rfl | ⟨d, hd, rest, rfl⟩ := hts
      · obtain ⟨sp, s₂, hend, h₂⟩ := gettoken_nil h₁.skip
        refine ⟨ret, s₂, hrun.bind (Yields.succ ?_), hmap, h₂⟩
        exact (Yields.const hpeek).bind (Yields.neg Bool.false_ne_true
          ((Yields.const hend).bind (Yields.pos rfl Yields.pure)))
      · rw [show starts [bar, rparen, ampersand, semicolon] (.sym d :: rest) = true from
          decide_eq_true hd] at hpeek
        refine ⟨ret, _, hrun.bind (Yields.succ ?_), hmap, h₁.skip⟩
        exact (Yields.const hpeek).bind (Yields.pos rfl Yields.pure)
  | cons w ws ih =>
      obtain ⟨ret, s₁, hrun, hmap, h₁⟩ := parseredirs_reads [] (by simp) hc h rfl
      have hpeek := peek_at hsub h₁
      obtain ⟨sp, s₂, hword, hsp, h₂⟩ := gettoken_word h₁.skip
      have hadd : (ret.addArg sp).map (slice text) = .exec (done ++ [w]) := by
        rw [Command.map_addArg, hmap, hsp]
        rfl
      rw [List.length_cons] at hlen
      obtain ⟨cmd', s', hrest, hmap', hts'⟩ := ih
        (fun w hw => hws w (List.mem_cons_of_mem _ hw))
        (by rw [List.length_append, List.length_singleton]; omega) hadd h₂
      rw [List.append_assoc, List.singleton_append] at hmap'
      refine ⟨cmd', s', hrun.bind (Yields.succ ?_), hmap', hts'⟩
      rw [List.length_append, List.length_singleton] at hrest
      have hword0 : aWord ≠ 0 := by decide
      exact (Yields.const hpeek).bind (Yields.neg Bool.false_ne_true ((Yields.const hword).bind
        (Yields.neg hword0 (Yields.neg (not_not.mpr rfl) (Yields.neg (by omega) hrest)))))

/-! ## The four levels -/

/-- `parseexec` reads a printed tree, up to something that ends a command. -/
def ExecReads (text : Text) (c : Command Text) : Prop :=
  ∀ s ts, Follow [bar, rparen, ampersand, semicolon] ts →
    Renders (c.printAt 3 ++ ts) (text.drop s) → Reads parseexec text s c ts

def PipeReads (text : Text) (c : Command Text) : Prop :=
  ∀ s ts, Follow [rparen, ampersand, semicolon] ts →
    Renders (c.printAt 2 ++ ts) (text.drop s) → Reads parsepipe text s c ts

/-- `parsepipe`, and the loop over `&` is on the way: what it makes of `c` at `s'` it
makes of the pipe that was read. -/
def BackReads (text : Text) (c : Command Text) : Prop :=
  ∀ s ts, Follow [rparen, ampersand, semicolon] ts → Renders (c.printAt 1 ++ ts) (text.drop s) →
    ∃ cmd₁ s₁ cmd s', Yields parsepipe text s cmd₁ s₁ ∧ cmd.map (slice text) = c ∧
      Renders ts (text.drop s') ∧ ∀ cmd₂ s₂, Yields (fun n => parsebacks n cmd) text s' cmd₂ s₂ →
        Yields (fun n => parsebacks n cmd₁) text s₁ cmd₂ s₂

def LineReads (text : Text) (c : Command Text) : Prop :=
  ∀ s ts, Follow [rparen] ts → Renders (c.print ++ ts) (text.drop s) → Reads parseline text s c ts

/-- A place that binds tighter makes a difference for trees of its own level only. -/
theorem printAt_of_level {lvl : Nat} {c : Command Text} (h : c.level ≠ lvl) :
    c.printAt lvl = c.printAt (lvl + 1) := by
  unfold Command.printAt
  by_cases hc : lvl + 1 ≤ c.level
  · rw [if_pos hc, if_pos (Nat.le_of_succ_le hc)]
  · rw [if_neg hc, if_neg (by omega)]

theorem PipeReads.of_exec (hl : c.level ≠ 2) (h : ExecReads text c) : PipeReads text c := by
  intro s ts hts hr
  rw [printAt_of_level hl] at hr
  obtain ⟨cmd, s₁, hrun, hmap, h₁⟩ := h s ts (hts.mono (by decide)) hr
  have hpeek := peek_at (show [bar].all (strchr symbols) = true by decide) h₁
  rw [hts.starts_eq (by decide)] at hpeek
  refine ⟨cmd, skip text s₁, Yields.succ ?_, hmap, h₁.skip⟩
  exact hrun.bind ((Yields.const hpeek).bind (Yields.neg Bool.false_ne_true Yields.pure))

theorem BackReads.of_pipe (hl : c.level ≠ 1) (h : PipeReads text c) : BackReads text c := by
  intro s ts hts hr
  rw [printAt_of_level hl] at hr
  obtain ⟨cmd, s₁, hrun, hmap, h₁⟩ := h s ts hts hr
  exact ⟨cmd, s₁, cmd, s₁, hrun, hmap, h₁, fun _ _ hy => hy⟩

/-- The loop over `&` ends. -/
theorem parsebacks_stop (cmd : Command Span) (hts : Follow [rparen, semicolon] ts) (h : Renders ts (text.drop s)) :
    Yields (fun n => parsebacks n cmd) text s cmd (skip text s) := by
  have hpeek := peek_at (show [ampersand].all (strchr symbols) = true by decide) h
  rw [hts.starts_eq (by decide)] at hpeek
  exact Yields.succ ((Yields.const hpeek).bind (Yields.neg Bool.false_ne_true Yields.pure))

theorem LineReads.of_back (hl : c.level ≠ 0) (h : BackReads text c) : LineReads text c := by
  intro s ts hts hr
  have hone : c.printAt 1 = c.print := if_pos (Nat.one_le_iff_ne_zero.mpr hl)
  rw [← hone] at hr
  obtain ⟨cmd₁, s₁, cmd, s', hrun, hmap, h', hloop⟩ := h s ts (hts.mono (by decide)) hr
  have hpeek := peek_at (show [semicolon].all (strchr symbols) = true by decide) h'.skip
  rw [hts.starts_eq (by decide)] at hpeek
  refine ⟨cmd, _, Yields.succ ?_, hmap, h'.skip.skip⟩
  exact hrun.bind ((hloop _ _ (parsebacks_stop cmd (hts.mono (by decide)) h')).bind
    ((Yields.const hpeek).bind (Yields.neg Bool.false_ne_true Yields.pure)))

theorem PipeReads.pipe {left right : Command Text} (hl : ExecReads text left)
    (hr : PipeReads text right) : PipeReads text (.pipe left right) := by
  intro s ts hts h
  have hprint : (Command.pipe left right).printAt 2 =
      left.printAt 3 ++ .sym bar :: right.printAt 2 := rfl
  rw [hprint, List.append_assoc, List.cons_append] at h
  obtain ⟨cmd, s₁, hrun, hmap, h₁⟩ := hl s _ (.inr ⟨bar, by simp, _, rfl⟩) h
  have hpeek := peek_at (show [bar].all (strchr symbols) = true by decide) h₁
  obtain ⟨sp, s₂, hsym, h₂⟩ := gettoken_sym h₁.skip
  obtain ⟨cmd', s', hrun', hmap', h'⟩ := hr s₂ ts hts h₂
  refine ⟨.pipe cmd cmd', s', Yields.succ ?_, by rw [Command.map, hmap, hmap'], h'⟩
  exact hrun.bind ((Yields.const hpeek).bind (Yields.pos rfl ((Yields.const hsym).bind
    (hrun'.bind Yields.pure))))

theorem BackReads.back (hc : BackReads text c) : BackReads text (.back c) := by
  intro s ts hts h
  have hprint : (Command.back c).printAt 1 = c.printAt 1 ++ [.sym ampersand] := rfl
  rw [hprint, List.append_assoc, List.singleton_append] at h
  obtain ⟨cmd₁, s₁, cmd, s₂, hrun, hmap, h₂, hloop⟩ :=
    hc s _ (.inr ⟨ampersand, by simp, ts, rfl⟩) h
  have hpeek := peek_at (show [ampersand].all (strchr symbols) = true by decide) h₂
  obtain ⟨sp, s₃, hsym, h₃⟩ := gettoken_sym h₂.skip
  refine ⟨cmd₁, s₁, .back cmd, s₃, hrun, by rw [Command.map, hmap], h₃, fun _ _ hy => ?_⟩
  exact hloop _ _ (Yields.succ ((Yields.const hpeek).bind (Yields.pos rfl
    ((Yields.const hsym).bind hy))))

theorem LineReads.list {left right : Command Text} (hl : BackReads text left)
    (hr : LineReads text right) : LineReads text (.list left right) := by
  intro s ts hts h
  have hprint : (Command.list left right).print =
      left.printAt 1 ++ .sym semicolon :: right.print := rfl
  rw [hprint, List.append_assoc, List.cons_append] at h
  obtain ⟨cmd₁, s₁, cmd, s₂, hrun, hmap, h₂, hloop⟩ :=
    hl s _ (.inr ⟨semicolon, by simp, _, rfl⟩) h
  have hstop := parsebacks_stop cmd (.inr ⟨semicolon, by simp, _, rfl⟩) h₂
  have hpeek := peek_at (show [semicolon].all (strchr symbols) = true by decide) h₂.skip
  obtain ⟨sp, s₃, hsym, h₃⟩ := gettoken_sym h₂.skip.skip
  obtain ⟨cmd', s', hrun', hmap', h'⟩ := hr s₃ ts hts h₃
  refine ⟨.list cmd cmd', s', Yields.succ ?_, by rw [Command.map, hmap, hmap'], h'⟩
  exact hrun.bind ((hloop _ _ hstop).bind ((Yields.const hpeek).bind (Yields.pos rfl
    ((Yields.const hsym).bind (hrun'.bind Yields.pure)))))

/-- A tree in parentheses, and the redirections behind them. -/
theorem parseblock_reads (hc : LineReads text c) {rs : List Redir}
    (hrs : ∀ r ∈ rs, Command.ValidRedir r) (hts : starts [less, greater] ts = false)
    (h : Renders (parens c.print ++ (rs.flatMap redirTokens ++ ts)) (text.drop s)) :
    Reads parseexec text s (rs.foldl Command.addRedir c) ts := by
  have hl : [lparen].all (strchr symbols) = true := by decide
  rw [parens, List.cons_append, List.append_assoc, List.singleton_append] at h
  have hpeek := peek_at hl h
  have hpeek' := peek_at hl h.skip
  obtain ⟨sp, s₁, hsym, h₁⟩ := gettoken_sym h.skip.skip
  obtain ⟨cmd, s₂, hrun, hmap, h₂⟩ := hc s₁ _ (.inr ⟨rparen, by simp, _, rfl⟩) h₁
  have hclose := peek_at (show [rparen].all (strchr symbols) = true by decide) h₂
  obtain ⟨sp', s₃, hsym', h₃⟩ := gettoken_sym h₂.skip
  obtain ⟨cmd', s', hrun', hmap', h'⟩ := parseredirs_reads rs hrs hmap h₃ hts
  refine ⟨cmd', s', Yields.succ ?_, hmap', h'⟩
  refine (Yields.const hpeek).bind (Yields.pos rfl (Yields.succ ?_))
  exact (Yields.const hpeek').bind (Yields.pos rfl ((Yields.const hsym).bind (hrun.bind
    ((Yields.const hclose).bind (Yields.pos rfl ((Yields.const hsym').bind hrun'))))))

/-- Neither a word nor a redirection is a parenthesis. -/
theorem starts_args (ws : List Text) (rs : List Redir)
    (hts : Follow [bar, rparen, ampersand, semicolon] ts) :
    starts [lparen] (ws.map .word ++ (rs.flatMap redirTokens ++ ts)) = false := by
  cases ws with
  | cons w ws => rfl
  | nil =>
      cases rs with
      | nil => exact hts.starts_eq (by decide)
      | cons r rs =>
          have hne : less ≠ lparen ∧ greater ≠ lparen := by decide
          by_cases hm : r.2.1 = oRdonly
          · simp [redirTokens, hm, starts, strchr, hne]
          · simp [redirTokens, hm, starts, strchr, hne]

/-- A command or something in parentheses, with redirections around it. -/
theorem ExecReads.of_base (hp : c.Printable) (hbase : c.base.level < 3 → LineReads text c.base) :
    ExecReads text c := by
  intro s ts hts h
  obtain ⟨hb, hrs⟩ := hp.spine
  rw [Command.printAt_three, List.append_assoc] at h
  rw [← c.foldl_redirs]
  have hblock : c.base.level < 3 →
      Reads parseexec text s (c.redirs.foldl Command.addRedir c.base) ts := by
    intro hlvl
    rw [Command.printAt, if_neg (Nat.not_le_of_lt hlvl)] at h
    exact parseblock_reads (hbase hlvl) hrs (hts.starts_eq (by decide)) h
  cases hcase : c.base with
  | exec argv =>
      rw [hcase] at h hb
      have hpeek := peek_at (show [lparen].all (strchr symbols) = true by decide) h
      rw [show (Command.exec argv).printAt 3 = argv.map .word from rfl] at h hpeek
      rw [starts_args argv c.redirs hts] at hpeek
      have hnone : (Command.exec ([] : List Span)).map (slice text) = .exec [] := rfl
      obtain ⟨cmd, s', hrun, hmap, h'⟩ := parseargs_reads argv hb.2 hrs
        (by rw [List.length_nil, Nat.zero_add]; exact hb.1) hnone h.skip hts
      exact ⟨cmd, s', Yields.succ ((Yields.const hpeek).bind (Yields.neg Bool.false_ne_true hrun)),
        hmap, h'⟩
  | redir cmd file mode fd => exact absurd hcase (c.base_ne_redir cmd file mode fd)
  | pipe left right =>
      rw [hcase] at hblock
      exact hblock (by simp [Command.level])
  | list left right =>
      rw [hcase] at hblock
      exact hblock (by simp [Command.level])
  | back cmd =>
      rw [hcase] at hblock
      exact hblock (by simp [Command.level])

/-- A printed tree is read at every level. -/
structure ReadsAll (text : Text) (c : Command Text) : Prop where
  line : LineReads text c
  back : BackReads text c
  pipe : PipeReads text c
  exec : ExecReads text c
  base : c.base.level < 3 → LineReads text c.base

namespace ReadsAll

theorem of_exec (hl : c.level = 3) (hexec : ExecReads text c)
    (hbase : c.base.level < 3 → LineReads text c.base) : ReadsAll text c := by
  have hpipe := PipeReads.of_exec (by omega) hexec
  have hback := BackReads.of_pipe (by omega) hpipe
  exact ⟨LineReads.of_back (by omega) hback, hback, hpipe, hexec, hbase⟩

/-- Everything but commands and redirections goes into parentheses. -/
theorem exec_of_line (hp : c.Printable) (hb : c.base = c) (hline : LineReads text c) :
    ExecReads text c := ExecReads.of_base hp fun _ => by rwa [hb]

theorem of_pipe (hp : c.Printable) (hb : c.base = c) (hl : c.level = 2) (hpipe : PipeReads text c) :
    ReadsAll text c := by
  have hback := BackReads.of_pipe (by omega) hpipe
  have hline := LineReads.of_back (by omega) hback
  exact ⟨hline, hback, hpipe, exec_of_line hp hb hline, fun _ => by rwa [hb]⟩

theorem of_back (hp : c.Printable) (hb : c.base = c) (hl : c.level = 1) (hback : BackReads text c) :
    ReadsAll text c := by
  have hline := LineReads.of_back (by omega) hback
  have hexec := exec_of_line hp hb hline
  exact ⟨hline, hback, PipeReads.of_exec (by omega) hexec, hexec, fun _ => by rwa [hb]⟩

theorem of_line (hp : c.Printable) (hb : c.base = c) (hl : c.level = 0) (hline : LineReads text c) :
    ReadsAll text c := by
  have hexec := exec_of_line hp hb hline
  have hpipe := PipeReads.of_exec (by omega) hexec
  exact ⟨hline, BackReads.of_pipe (by omega) hpipe, hpipe, hexec, fun _ => by rwa [hb]⟩

end ReadsAll

/-- By induction on the tree: each kind is read at its own level, and from there up to
a line and, in parentheses, down to what `parseexec` reads. -/
theorem reads_all (text : Text) (hp : c.Printable) : ReadsAll text c := by
  induction c with
  | exec argv =>
      have hno : (Command.exec argv).base.level < 3 → LineReads text (Command.exec argv).base :=
        fun h => absurd h (Nat.lt_irrefl 3)
      exact .of_exec rfl (ExecReads.of_base hp hno) hno
  | redir cmd file mode fd ih =>
      have hbase := (ih hp.1).base
      exact .of_exec rfl (ExecReads.of_base hp hbase) hbase
  | pipe left right ihl ihr => exact .of_pipe hp rfl rfl (.pipe (ihl hp.1).exec (ihr hp.2).pipe)
  | list left right ihl ihr => exact .of_line hp rfl rfl (.list (ihl hp.1).back (ihr hp.2).line)
  | back cmd ih => exact .of_back hp rfl rfl (.back (ih hp).back)

/-! ## Lines -/

/-- A printed line has no NUL. -/
theorem Renders.no_nul {ts : List Tok} (h : Renders ts l) : ∀ c ∈ l, c ≠ 0 := by
  have hblank : ∀ {ws : Text}, Blank ws → ∀ c ∈ ws, c ≠ 0 := by
    intro ws hws c hc h0
    have hspace := hws c hc
    rw [h0] at hspace
    exact absurd hspace (by decide)
  induction h with
  | nil hws => exact hblank hws
  | word hws hw _ _ ih =>
      intro c hc
      rcases List.mem_append.mp hc with hc | hc
      · exact hblank hws c hc
      · rcases List.mem_append.mp hc with hc | hc
        · exact (hw.2 c hc).2
        · exact ih c hc
  | sym hws hsym _ _ ih =>
      intro c hc
      rcases List.mem_append.mp hc with hc | hc
      · exact hblank hws c hc
      · rcases List.mem_cons.mp hc with hc | hc
        · rw [hc]
          exact (symbol_facts hsym).2.1
        · exact ih c hc

/-- The tokens of a printed tree are read as the tree, and nothing is left. -/
theorem parseall_reads (hp : c.Printable) (h : Renders c.print text) :
    ∃ cmd s', parseall (4 * text.length + 4) text 0 =
      .ok (cmd, nulterminate cmd (text ++ [0])) s' ∧ cmd.map (slice text) = c := by
  obtain ⟨cmd, s', hrun, hmap, h'⟩ := (reads_all text hp).line 0 [] (.inl rfl)
    (by rwa [List.append_nil, List.drop_zero])
  have hends := (parser_ends text (4 * text.length + 4)).line 0 (Nat.zero_le _) (by omega)
  have hok := hrun.eq_of_ends (fun n => (parser_le n).1) hends.ne_blocked
  have hlen : skip text s' = text.length := by
    refine Nat.le_antisymm (skip_le (hends.of_ok hok).length) ?_
    rw [← List.drop_eq_nil_iff, skip, drop_advance]
    exact h'.nil_inv
  have hpeek := peek_at (show ([] : List UInt8).all (strchr symbols) = true from rfl) h'
  refine ⟨cmd, skip text s', ?_, hmap⟩
  unfold parseall
  rw [bind_ok hok, bind_ok hpeek]
  change (if skip text s' ≠ text.length then abort "syntax" else
    pure (cmd, nulterminate cmd (text ++ [0])) : ParseM (Command Span × Buffer)) text _ = _
  rw [hlen, if_neg (not_not.mpr rfl)]
  rfl

/-! ## One way to write the tokens -/

def Tok.bytes : Tok → Text
  | .word w => w
  | .sym c => [c]

def Tok.Valid : Tok → Prop
  | .word w => Word w
  | .sym c => c ∈ symbols

/-- A space behind each token. -/
def spell (ts : List Tok) : Text := ts.flatMap fun t => t.bytes ++ [32]

theorem Renders.blank {ws : Text} {ts : List Tok} (hws : Blank ws) (h : Renders ts l) :
    Renders ts (ws ++ l) := by
  have happ : ∀ {ws' : Text}, Blank ws' → Blank (ws ++ ws') := fun hws' c hc =>
    (List.mem_append.mp hc).elim (hws c) (hws' c)
  cases h with
  | nil hws' => exact .nil (happ hws')
  | word hws' hw hsep hrest =>
      rw [← List.append_assoc]
      exact .word (happ hws') hw hsep hrest
  | sym hws' hc hsep hrest =>
      rw [← List.append_assoc]
      exact .sym (happ hws') hc hsep hrest

theorem renders_spell {ts : List Tok} (h : ∀ t ∈ ts, t.Valid) : Renders ts (spell ts) := by
  have hnone : Blank [] := fun _ hc => absurd hc List.not_mem_nil
  have hspace : Blank [32] := fun c hc => by
    rw [List.mem_singleton.mp hc]
    decide
  induction ts with
  | nil => exact .nil hnone
  | cons t ts ih =>
      have hrest := (ih fun t ht => h t (List.mem_cons_of_mem _ ht)).blank hspace
      have hvalid := h t List.mem_cons_self
      rw [spell, List.flatMap_cons, List.append_assoc]
      cases t with
      | word w =>
          refine .word hnone hvalid (fun c hc => ?_) hrest
          cases hc
          decide
      | sym c =>
          refine .sym hnone hvalid (fun _ hg => ?_) hrest
          exact absurd (Option.some.inj hg) (by decide)

theorem valid_parens {ts : List Tok} (h : ∀ t ∈ ts, t.Valid) (lvl : Nat) (b : Nat) :
    ∀ t ∈ (if lvl ≤ b then ts else parens ts), t.Valid := by
  split
  · exact h
  · intro t ht
    rw [parens, List.mem_cons, List.mem_append, List.mem_singleton] at ht
    have hl : lparen ∈ symbols := by decide
    have hr : rparen ∈ symbols := by decide
    obtain rfl | ht | rfl := ht
    · exact hl
    · exact h t ht
    · exact hr

theorem valid_print (hp : c.Printable) : ∀ t ∈ c.print, t.Valid := by
  induction c with
  | exec argv =>
      intro t ht
      obtain ⟨w, hw, rfl⟩ := List.mem_map.mp ht
      exact hp.2 w hw
  | redir cmd file mode fd ih =>
      intro t ht
      rw [Command.print, List.mem_append] at ht
      rcases ht with ht | ht
      · exact valid_parens (ih hp.1) _ _ t ht
      · rw [redirTokens, List.mem_cons, List.mem_singleton] at ht
        obtain rfl | rfl := ht
        · show (if mode = oRdonly then less else greater) ∈ symbols
          split <;> decide
        · exact hp.2.1
  | pipe left right ihl ihr =>
      have hbar : bar ∈ symbols := by decide
      intro t ht
      rw [Command.print, List.mem_append, List.mem_cons] at ht
      obtain ht | rfl | ht := ht
      · exact valid_parens (ihl hp.1) _ _ t ht
      · exact hbar
      · exact valid_parens (ihr hp.2) _ _ t ht
  | list left right ihl ihr =>
      have hsemi : semicolon ∈ symbols := by decide
      intro t ht
      rw [Command.print, List.mem_append, List.mem_cons] at ht
      obtain ht | rfl | ht := ht
      · exact valid_parens (ihl hp.1) _ _ t ht
      · exact hsemi
      · exact ihr hp.2 t ht
  | back cmd ih =>
      have hamp : ampersand ∈ symbols := by decide
      intro t ht
      rw [Command.print, List.mem_append, List.mem_singleton] at ht
      rcases ht with ht | rfl
      · exact valid_parens (ih hp) _ _ t ht
      · exact hamp

/-- **The parser of the shell inverts printing**: a printable tree can be written out, a
line with its tokens is parsed to that tree whatever the white space, and every line is
parsed to a tree or refused with a syntax error. -/
theorem parsecmd_print :
    (∀ c : Command Text, c.Printable → Renders c.print (spell c.print) ∧
      ∀ text, Renders c.print text → ∃ cmd buf s', parsecmd text = .ok (cmd, buf) s' ∧
        cmd.map (fun w => cstr (buf.drop w.start)) = c) ∧
    ∀ s : Buffer, (∃ r s', parsecmd s = .ok r s') ∨ ∃ m ∈ syntaxErrors, parsecmd s = .panic m := by
  refine ⟨fun c hp => ⟨renders_spell (valid_print hp), fun text h => ?_⟩, fun s => ?_⟩
  · have htext : cstr text = text :=
      List.takeWhile_eq_self_iff.mpr fun b hb => decide_eq_true (h.no_nul b hb)
    obtain ⟨cmd, s', hrun, hmap⟩ := parseall_reads hp h
    have hok : parsecmd text = .ok (cmd, nulterminate cmd (text ++ [0])) s' := by
      rw [parsecmd, htext, hrun]
    obtain ⟨hwords, hbuf⟩ := (parsecmd_ends text).of_ok hok
    rw [htext] at hwords hbuf
    refine ⟨cmd, _, s', hok, Eq.trans (Command.map_congr fun w hw => ?_) hmap⟩
    change nulterminate cmd (text ++ [0]) = _ at hbuf
    rw [hbuf]
    exact (hwords w hw).cstr_nuls
      (fun i hi => h.no_nul _ (by rw [charAt, List.getD_eq_getElem _ _ hi]; exact List.getElem_mem hi))
      hw hwords
  · rcases parsecmd_ends s with ⟨r, s', heq, -⟩ | ⟨m, heq, hm⟩
    · exact .inl ⟨r, s', heq⟩
    · exact .inr ⟨m, hm, heq⟩

/-- `(a|b)>c;d&`. -/
theorem parsecmd_print_block : ∃ cmd buf s',
    parsecmd (spell (Command.list
      (.redir (.pipe (.exec [[97]]) (.exec [[98]])) [99] oWronlyCreat 1)
      (.back (.exec [[100]]))).print) = .ok (cmd, buf) s' ∧
    cmd.map (fun w => cstr (buf.drop w.start)) = .list
      (.redir (.pipe (.exec [[97]]) (.exec [[98]])) [99] oWronlyCreat 1) (.back (.exec [[100]])) := by
  have hword : ∀ b : UInt8, isWord b = true → b ≠ 0 → Word [b] := fun b hb h0 =>
    ⟨List.cons_ne_nil _ _, fun c hc => by rw [List.mem_singleton.mp hc]; exact ⟨hb, h0⟩⟩
  have hexec : ∀ b : UInt8, isWord b = true → b ≠ 0 → (Command.exec [[b]]).Printable :=
    fun b hb h0 => ⟨Nat.one_lt_succ_succ 8, fun w hw => by rw [List.mem_singleton.mp hw]; exact hword b hb h0⟩
  have hp : (Command.list (.redir (.pipe (.exec [[97]]) (.exec [[98]])) [99] oWronlyCreat 1)
      (.back (.exec [[100]]))).Printable :=
    ⟨⟨⟨hexec 97 (by decide) (by decide), hexec 98 (by decide) (by decide)⟩,
      hword 99 (by decide) (by decide), .inr ⟨rfl, rfl⟩⟩, hexec 100 (by decide) (by decide)⟩
  obtain ⟨hspell, hread⟩ := parsecmd_print.1 _ hp
  exact hread _ hspell

end Rxv64.Cmd.Sh
