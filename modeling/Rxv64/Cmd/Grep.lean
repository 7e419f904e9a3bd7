import Rxv64.Cmd.Match
import Rxv64.Ulib.Mem

/-!
# Cmd.Grep — `grep` and how its input arrives

`grep` of `cmd/grep.c` on the buffer `buf`, at address 0 of a memory of its own.
What `read` answers is a list of chunks. A line that is not complete yet is moved
to the front of the buffer; `keep` says what is moved, and that a buffer without any
newline is thrown away.
-/

namespace Rxv64.Cmd.Grep

open Ulib (Memory memmove Moves memmove_moves_iff)

/-- `'\n'`. -/
abbrev newline : UInt8 := 10

/-- `sizeof(buf)`. -/
abbrev bufSize : Nat := 1024

/-- `n` bytes from `p` on. -/
def bytes (buf : Memory) (p n : Nat) : Str := (List.range n).map fun k => buf (p + k)

/-- The string at `p`, which is in `buf`. -/
def cstr (buf : Memory) (p : Nat) : Str := (bytes buf p (bufSize - p)).takeWhile (· ≠ 0)

/-- `strchr`. -/
def strchr (buf : Memory) (p : Nat) (c : UInt8) : Option Nat :=
  ((cstr buf p).findIdx? (· = c)).map (p + ·)

/-- What `read` copies to `p`. -/
def store (buf : Memory) (p : Nat) : Str → Memory
  | [] => buf
  | b :: bs => store (Function.update buf p b) (p + 1) bs

/-- The loop over the lines in the buffer, from `p` on: the buffer behind it, the `p` it
ends with and what it writes; `none` while it still runs after `fuel` turns. -/
def lineLoop (pattern : Str) : (fuel : Nat) → Memory → (p : Nat) → Option (Memory × Nat × List Str)
  | 0, _, _ => none
  | fuel + 1, buf, p =>
      match strchr buf p newline with
      | none => some (buf, p, [])
      | some q =>
          let ended := Function.update buf q 0
          if matchRe pattern (cstr ended p) then
            let buf := Function.update ended q newline
            (lineLoop pattern fuel buf (q + 1)).map fun r =>
              (r.1, r.2.1, bytes buf p (q + 1 - p) :: r.2.2)
          else lineLoop pattern fuel ended (q + 1)

/-- What happens to the rest of the buffer from `p` on: `m` and the buffer. -/
def moveRest (buf : Memory) (m p : Nat) : Memory × Nat :=
  let m := if p = 0 then 0 else m
  if 0 < m then ((memmove buf 0 p (m - p)).2, m - p) else (buf, m)

/-- A turn of `grep`, with `m` bytes in the buffer and a chunk from `read`. -/
def turn (pattern : Str) (buf : Memory) (m : Nat) (chunk : Str) :
    Option (Memory × Nat × List Str) :=
  let buf := store buf m chunk
  let m := m + chunk.length
  let buf := Function.update buf m 0
  (lineLoop pattern (bufSize + 1) buf 0).map fun r =>
    ((moveRest r.1 m r.2.1).1, (moveRest r.1 m r.2.1).2, r.2.2)

/-- The loop of `grep` until `read` has no more: everything that it writes. -/
def grepLoop (pattern : Str) : Memory → (m : Nat) → List Str → Option (List Str)
  | _, _, [] => some []
  | buf, m, chunk :: chunks =>
      (turn pattern buf m chunk).bind fun r =>
        (grepLoop pattern r.1 r.2.1 chunks).map fun out => r.2.2 ++ out

/-- `grep`, `buf` being what earlier files left in it. -/
def grep (pattern : Str) (buf : Memory) (chunks : List Str) : Option (List Str) :=
  grepLoop pattern buf 0 chunks

/-! ## Lines -/

/-- The lines of a text that end in a newline, without it. -/
def terminated (text : Str) : List Str := (text.splitOn newline).dropLast

/-- The piece behind the last newline. -/
def lastPiece (text : Str) : Str := (text.splitOn newline).getLast (List.splitOnP_ne_nil _ _)

/-- What `grep` is to write: the lines that match, with their newlines. -/
def selected (pattern : Str) (lines : List Str) : List Str :=
  (lines.filter (matchRe pattern)).map (· ++ [newline])

/-- What `grep` carries over of the text in the buffer. -/
def keep (text : Str) : Str := if newline ∈ text then lastPiece text else []

/-- The lines `grep` sees, with `carry` in front of the chunks. -/
def seen : (carry : Str) → List Str → List Str
  | _, [] => []
  | carry, chunk :: chunks => terminated (carry ++ chunk) ++ seen (keep (carry ++ chunk)) chunks

/-- `read` may answer with these chunks: none is empty, contains a NUL or is longer than the
room that `grep` asks for. -/
def Answers : (carry : Str) → List Str → Prop
  | _, [] => True
  | carry, chunk :: chunks =>
      chunk ≠ [] ∧ 0 ∉ chunk ∧ chunk.length ≤ bufSize - carry.length - 1 ∧
        Answers (keep (carry ++ chunk)) chunks

instance Answers.decidable : (carry : Str) → (chunks : List Str) → Decidable (Answers carry chunks)
  | _, [] => .isTrue trivial
  | carry, chunk :: chunks =>
      have := decidable (keep (carry ++ chunk)) chunks
      inferInstanceAs (Decidable (_ ∧ _ ∧ _ ∧ _))

/-! ## Bytes in the buffer -/

variable {buf buf' : Memory} {p q m n : Nat} {text line rest : Str}

@[simp] theorem length_bytes : (bytes buf p n).length = n := by simp [bytes]

theorem bytes_add (buf : Memory) (p n k : Nat) :
    bytes buf p (n + k) = bytes buf p n ++ bytes buf (p + n) k := by
  simp [bytes, List.range_add, Nat.add_assoc]

theorem bytes_succ (buf : Memory) (p n : Nat) :
    bytes buf p (n + 1) = buf p :: bytes buf (p + 1) n := by
  rw [Nat.add_comm, bytes_add]
  rfl

theorem bytes_congr (h : ∀ k < n, buf' (p + k) = buf (p + k)) : bytes buf' p n = bytes buf p n :=
  List.map_congr_left fun k hk => h k (List.mem_range.mp hk)

theorem bytes_update {b : UInt8} (h : q < p ∨ p + n ≤ q) :
    bytes (Function.update buf q b) p n = bytes buf p n :=
  bytes_congr fun k hk => Function.update_of_ne (by omega) b buf

theorem store_below (chunk : Str) (h : q < p) : store buf p chunk q = buf q := by
  induction chunk generalizing buf p with
  | nil => rfl
  | cons b chunk ih => rw [store, ih (by omega), Function.update_of_ne (by omega)]

theorem bytes_store (chunk : Str) : bytes (store buf p chunk) p chunk.length = chunk := by
  induction chunk generalizing buf p with
  | nil => rfl
  | cons b chunk ih =>
      rw [List.length_cons, bytes_succ, store, ih, store_below chunk (Nat.lt_succ_self p),
        Function.update_self]

/-- The text lies at `p` in the buffer, with a NUL behind it. -/
structure Text (buf : Memory) (p : Nat) (text : Str) : Prop where
  stored : bytes buf p text.length = text
  ended : buf (p + text.length) = 0
  pure : 0 ∉ text
  fits : p + text.length < bufSize

theorem Text.cstr (h : Text buf p text) : cstr buf p = text := by
  have hfits := h.fits
  obtain ⟨k, hk⟩ : ∃ k, bufSize - p = text.length + (k + 1) := ⟨bufSize - p - text.length - 1, by omega⟩
  rw [Grep.cstr, hk, bytes_add, h.stored, bytes_succ, h.ended, List.takeWhile_append_of_pos]
  · simp
  · intro b hb
    have hne : b ≠ 0 := fun hz => h.pure (hz ▸ hb)
    simpa using hne

/-- The first line of a text. -/
theorem Text.firstLine (h : Text buf p (line ++ newline :: rest)) :
    Text (Function.update buf (p + line.length) 0) p line ∧
      (∀ b, Text (Function.update buf (p + line.length) b) (p + line.length + 1) rest) ∧
      bytes buf p (line.length + 1) = line ++ [newline] ∧ buf (p + line.length) = newline := by
  obtain ⟨hbytes, hended, hpure, hfits⟩ := h
  have hlen : (line ++ newline :: rest).length = line.length + 1 + rest.length := by
    simp only [List.length_append, List.length_cons]
    omega
  rw [hlen] at hbytes hended hfits
  rw [bytes_add] at hbytes
  have hsplit : line ++ newline :: rest = (line ++ [newline]) ++ rest := by simp
  rw [hsplit] at hbytes
  obtain ⟨hline, hrest⟩ := List.append_inj hbytes (by simp)
  have hparts := hline
  rw [bytes_add] at hparts
  obtain ⟨hfront, hbehind⟩ := List.append_inj hparts (by simp)
  have hq : buf (p + line.length) = newline := List.head_eq_of_cons_eq hbehind
  refine ⟨⟨?_, Function.update_self .., ?_, by omega⟩, fun b => ⟨?_, ?_, ?_, by omega⟩, hline, hq⟩
  · rw [bytes_update (.inr (Nat.le_refl _)), hfront]
  · exact fun hm => hpure (by simp [hm])
  · rw [bytes_update (.inl (by omega))]
    exact hrest
  · rw [Function.update_of_ne (by omega), ← hended]
    congr 1
    omega
  · exact fun hm => hpure (by simp [hm])

theorem Text.strchr_none (h : Text buf p text) (hno : newline ∉ text) :
    strchr buf p newline = none := by
  rw [strchr, h.cstr, Option.map_eq_none_iff, List.findIdx?_eq_none_iff]
  intro b hb
  have hne : b ≠ newline := fun heq => hno (heq ▸ hb)
  simpa using hne

theorem Text.strchr_line (h : Text buf p (line ++ newline :: rest)) (hline : newline ∉ line) :
    strchr buf p newline = some (p + line.length) := by
  have hfirst : (line ++ newline :: rest).findIdx? (· = newline) = some line.length := by
    rw [List.findIdx?_append, List.findIdx?_eq_none_iff.mpr ?_]
    · simp [List.findIdx?_cons]
    · intro b hb
      have hne : b ≠ newline := fun heq => hline (heq ▸ hb)
      simpa using hne
  rw [strchr, h.cstr, hfirst, Option.map_some]

/-! ## Lines of a text -/

theorem terminated_of_not_mem (h : newline ∉ text) : terminated text = [] ∧ lastPiece text = text := by
  have hsplit : text.splitOn newline = [text] :=
    List.splitOnP_eq_singleton fun b hb => by
      have hne : b ≠ newline := fun heq => h (heq ▸ hb)
      simpa using hne
  constructor
  · rw [terminated, hsplit]
    rfl
  · simp only [lastPiece, hsplit, List.getLast_singleton]

theorem terminated_line (h : newline ∉ line) (rest : Str) :
    terminated (line ++ newline :: rest) = line :: terminated rest ∧
      lastPiece (line ++ newline :: rest) = lastPiece rest := by
  have hsplit : (line ++ newline :: rest).splitOn newline = line :: rest.splitOn newline :=
    List.splitOnP_append_cons_of_forall_mem (fun b hb => by
      have hne : b ≠ newline := fun heq => h (heq ▸ hb)
      simpa using hne) newline (by simp) rest
  have hne : rest.splitOn newline ≠ [] := List.splitOnP_ne_nil _ _
  constructor
  · rw [terminated, hsplit, List.dropLast_cons_of_ne_nil hne, terminated]
  · simp only [lastPiece, hsplit, List.getLast_cons hne]

/-- Line by line: a text without newline, or one line and what comes after it. -/
theorem line_cases (text : Str) :
    newline ∉ text ∨ ∃ line rest, text = line ++ newline :: rest ∧ newline ∉ line := by
  by_cases h : newline ∈ text
  · obtain ⟨line, rest, htext, hline⟩ := List.eq_append_cons_of_mem h
    exact .inr ⟨line, rest, htext, hline⟩
  · exact .inl h

/-- The lines of two texts in a row: the last piece of the first one begins the second. -/
theorem terminated_append (text rest : Str) :
    terminated (text ++ rest) = terminated text ++ terminated (lastPiece text ++ rest) := by
  induction hn : text.length using Nat.strongRecOn generalizing text with
  | ind n ih =>
      rcases line_cases text with hno | ⟨line, tail, rfl, hline⟩
      · obtain ⟨hterm, hlast⟩ := terminated_of_not_mem hno
        rw [hterm, hlast, List.nil_append]
      · obtain ⟨hterm, hlast⟩ := terminated_line hline tail
        have hlen : tail.length < n := by
          rw [← hn, List.length_append, List.length_cons]
          omega
        rw [hterm, hlast, List.append_assoc, List.cons_append, (terminated_line hline _).1,
          ih _ hlen tail rfl, List.cons_append]

theorem not_mem_lastPiece (text : Str) : newline ∉ lastPiece text := by
  induction hn : text.length using Nat.strongRecOn generalizing text with
  | ind n ih =>
      rcases line_cases text with hno | ⟨line, tail, rfl, hline⟩
      · rwa [(terminated_of_not_mem hno).2]
      · have hlen : tail.length < n := by
          rw [← hn, List.length_append, List.length_cons]
          omega
        rw [(terminated_line hline _).2]
        exact ih _ hlen tail rfl

/-! ## A turn -/

theorem selected_cons (pattern line : Str) (lines : List Str) :
    selected pattern (line :: lines) =
      if matchRe pattern line then (line ++ [newline]) :: selected pattern lines
      else selected pattern lines := by
  unfold selected
  by_cases h : matchRe pattern line = true
  · rw [if_pos h, List.filter_cons_of_pos h, List.map_cons]
  · rw [if_neg h, List.filter_cons_of_neg h]

/-- The loop over the lines writes those that match, and leaves the last piece. -/
theorem lineLoop_lines (pattern : Str) {fuel : Nat} (ht : Text buf p text) (hfuel : text.length < fuel) :
    ∃ buf' p', lineLoop pattern fuel buf p = some (buf', p', selected pattern (terminated text)) ∧
      Text buf' p' (lastPiece text) ∧ p' + (lastPiece text).length = p + text.length ∧
      p ≤ p' ∧ (p' = p ↔ newline ∉ text) := by
  induction fuel generalizing buf p text with
  | zero => omega
  | succ fuel ih =>
      rcases line_cases text with hno | ⟨line, rest, rfl, hline⟩
      · obtain ⟨hterm, hlast⟩ := terminated_of_not_mem hno
        refine ⟨buf, p, ?_, ?_, ?_, Nat.le_refl p, by simp [hno]⟩
        · rw [lineLoop, ht.strchr_none hno, hterm]
          rfl
        · rwa [hlast]
        · rw [hlast]
      · obtain ⟨hterm, hlast⟩ := terminated_line hline rest
        have hlen : (line ++ newline :: rest).length = line.length + 1 + rest.length := by
          simp only [List.length_append, List.length_cons]
          omega
        obtain ⟨hfirst, hrest, hwhole, hq⟩ := ht.firstLine
        have hback : Function.update buf (p + line.length) newline = buf := by
          rw [← hq, Function.update_eq_self]
        have hstep : p + line.length + 1 - p = line.length + 1 := by omega
        have hmem : newline ∈ line ++ newline :: rest := by simp
        rw [lineLoop, ht.strchr_line hline, hterm, hlast, hlen, selected_cons]
        dsimp only
        rw [hfirst.cstr, Function.update_idem, hback, hstep, hwhole]
        by_cases hmatch : matchRe pattern line = true
        · obtain ⟨buf', p', hrun, htext, hend, hle, -⟩ := ih (hback ▸ hrest newline) (by omega)
          refine ⟨buf', p', ?_, htext, by omega, by omega, ⟨by omega, fun hno => absurd hmem hno⟩⟩
          rw [if_pos hmatch, if_pos hmatch, hrun]
          rfl
        · obtain ⟨buf', p', hrun, htext, hend, hle, -⟩ := ih (hrest 0) (by omega)
          refine ⟨buf', p', ?_, htext, by omega, by omega, ⟨by omega, fun hno => absurd hmem hno⟩⟩
          rw [if_neg hmatch, if_neg hmatch, hrun]

/-- What the buffer holds between two turns. -/
structure Carried (buf : Memory) (m : Nat) (carry : Str) : Prop where
  stored : bytes buf 0 m = carry
  pure : 0 ∉ carry

theorem Carried.length {carry : Str} (h : Carried buf m carry) : carry.length = m := by
  rw [← h.stored, length_bytes]

/-- The next chunk behind what was carried over. -/
theorem Carried.read {carry chunk : Str} (h : Carried buf m carry) (hpure : 0 ∉ chunk)
    (hfits : chunk.length ≤ bufSize - m - 1) (hne : chunk ≠ []) :
    Text (Function.update (store buf m chunk) (m + chunk.length) 0) 0 (carry ++ chunk) := by
  have hlen := h.length
  have hpos := List.length_pos_iff.mpr hne
  refine ⟨?_, ?_, ?_, ?_⟩
  · rw [List.length_append, hlen, bytes_update (by omega), bytes_add, Nat.zero_add, bytes_store,
      bytes_congr fun k hk => store_below chunk (by omega), h.stored]
  · rw [List.length_append, hlen, Nat.zero_add, Function.update_self]
  · rw [List.mem_append]
    exact fun hm => hm.elim h.pure hpure
  · rw [List.length_append, hlen]
    omega

/-- Without a newline in front of it nothing is kept; else the last piece moves to the front. -/
theorem Text.moveRest {p' : Nat} (ht : Text buf p' (lastPiece text))
    (hend : p' + (lastPiece text).length = text.length) (hmoved : p' = 0 ↔ newline ∉ text) :
    Carried (moveRest buf text.length p').1 (moveRest buf text.length p').2 (keep text) := by
  by_cases hmem : newline ∈ text
  · have hp : p' ≠ 0 := fun hz => hmoved.mp hz hmem
    have hpos : 0 < text.length := List.length_pos_of_mem hmem
    have hcount : text.length - p' = (lastPiece text).length := by omega
    have hmoves : Moves buf (memmove buf 0 p' (text.length - p')).2 0 p' (text.length - p') :=
      (memmove_moves_iff ..).mpr (.inl (Nat.zero_le p'))
    rw [Grep.moveRest, keep, if_pos hmem, if_neg hp, if_pos hpos]
    refine ⟨?_, ht.pure⟩
    rw [hcount] at hmoves
    dsimp only
    rw [hcount]
    calc bytes (memmove buf 0 p' (lastPiece text).length).2 0 (lastPiece text).length
        = bytes buf p' (lastPiece text).length :=
          List.map_congr_left fun k hk => hmoves.1 k (List.mem_range.mp hk)
      _ = lastPiece text := ht.stored
  · rw [Grep.moveRest, keep, if_neg hmem, if_pos (hmoved.mpr hmem), if_neg (Nat.lt_irrefl 0)]
    exact ⟨rfl, by simp⟩

theorem turn_lines (pattern : Str) {carry chunk : Str} (h : Carried buf m carry) (hpure : 0 ∉ chunk)
    (hfits : chunk.length ≤ bufSize - m - 1) (hne : chunk ≠ []) :
    ∃ buf' m', turn pattern buf m chunk =
        some (buf', m', selected pattern (terminated (carry ++ chunk))) ∧
      Carried buf' m' (keep (carry ++ chunk)) := by
  have ht := h.read hpure hfits hne
  have hlen : (carry ++ chunk).length = m + chunk.length := by rw [List.length_append, h.length]
  have hroom := ht.fits
  obtain ⟨buf', p', hrun, htext, hend, -, hmoved⟩ :=
    lineLoop_lines pattern ht (show (carry ++ chunk).length < bufSize + 1 by omega)
  have hrest := htext.moveRest (by omega) hmoved
  rw [hlen] at hrest
  refine ⟨_, _, ?_, hrest⟩
  simp only [turn, hrun, Option.map_some]

/-- `grep` writes the lines that match among those it sees. -/
theorem grepLoop_seen {pattern : Str} {carry : Str} {chunks : List Str} (h : Carried buf m carry)
    (hans : Answers carry chunks) :
    grepLoop pattern buf m chunks = some (selected pattern (seen carry chunks)) := by
  induction chunks generalizing buf m carry with
  | nil => rfl
  | cons chunk chunks ih =>
      obtain ⟨hne, hpure, hfits, hrest⟩ := hans
      rw [h.length] at hfits
      obtain ⟨buf', m', hturn, hkept⟩ := turn_lines pattern h hpure hfits hne
      rw [grepLoop, hturn, Option.bind_some, ih hkept hrest, Option.map_some, seen]
      simp only [selected, List.filter_append, List.map_append]

/-! ## Which chunks are put together -/

/-- The bytes in some lines. -/
def size (lines : List Str) : Nat := lines.flatten.length

theorem size_append (l l' : List Str) : size (l ++ l') = size l + size l' := by
  simp [size]

/-- Text in front makes the lines longer, if there is a line. -/
theorem size_terminated (h : newline ∉ line) (hmem : newline ∈ rest) :
    size (terminated (line ++ rest)) = line.length + size (terminated rest) := by
  rcases line_cases rest with hno | ⟨first, tail, rfl, hfirst⟩
  · exact absurd hmem hno
  · have hnot : newline ∉ line ++ first := by simp [h, hfirst]
    rw [← List.append_assoc, (terminated_line hnot _).1, (terminated_line hfirst _).1]
    simp only [size, List.flatten_cons, List.length_append]
    omega

theorem keep_of_mem (h : newline ∈ text) : keep text = lastPiece text := if_pos h

theorem keep_of_not_mem (h : newline ∉ text) : keep text = [] := if_neg h

theorem not_mem_keep (text : Str) : newline ∉ keep text := by
  by_cases h : newline ∈ text
  · rw [keep_of_mem h]
    exact not_mem_lastPiece text
  · rw [keep_of_not_mem h]
    simp

/-- What is dropped is missing. -/
theorem size_seen {carry : Str} {chunks : List Str} (hc : newline ∉ carry) :
    size (seen carry chunks) ≤ size (terminated (carry ++ chunks.flatten)) := by
  induction chunks generalizing carry with
  | nil => exact Nat.zero_le _
  | cons chunk chunks ih =>
      rw [seen, size_append, List.flatten_cons, ← List.append_assoc,
        terminated_append (carry ++ chunk) chunks.flatten, size_append]
      have hle := ih (not_mem_keep (carry ++ chunk))
      by_cases h : newline ∈ carry ++ chunk
      · rw [keep_of_mem h] at hle ⊢
        omega
      · rw [keep_of_not_mem h] at hle ⊢
        rw [(terminated_of_not_mem h).2]
        by_cases hlater : newline ∈ chunks.flatten
        · have hlonger := size_terminated h hlater
          rw [List.nil_append] at hle
          omega
        · rw [List.nil_append, (terminated_of_not_mem hlater).1] at hle
          have hnone : size [] = 0 := rfl
          omega

/-- The lines of the input are seen exactly when every chunk in front of a newline in a later
chunk has a newline itself. -/
theorem seen_iff {carry : Str} {chunks : List Str} (hc : newline ∉ carry)
    (hans : Answers carry chunks) :
    seen carry chunks = terminated (carry ++ chunks.flatten) ↔
      chunks.Pairwise fun chunk later => newline ∈ later → newline ∈ chunk := by
  induction chunks generalizing carry with
  | nil =>
      rw [List.flatten_nil, List.append_nil, (terminated_of_not_mem hc).1]
      simp [seen]
  | cons chunk chunks ih =>
      obtain ⟨hne, -, -, hrest⟩ := hans
      rw [seen, List.flatten_cons, ← List.append_assoc,
        terminated_append (carry ++ chunk) chunks.flatten, List.append_cancel_left_eq,
        List.pairwise_cons]
      have hkeep := ih (not_mem_keep (carry ++ chunk)) hrest
      by_cases h : newline ∈ carry ++ chunk
      · have hchunk : newline ∈ chunk := (List.mem_append.mp h).resolve_left hc
        rw [keep_of_mem h] at hkeep ⊢
        rw [hkeep]
        simp [hchunk]
      · have hchunk : newline ∉ chunk := fun hm => h (List.mem_append.mpr (.inr hm))
        rw [keep_of_not_mem h] at hkeep ⊢
        rw [(terminated_of_not_mem h).2]
        by_cases hlater : newline ∈ chunks.flatten
        · constructor
          · intro heq
            have hle : size (seen [] chunks) ≤ size (terminated ([] ++ chunks.flatten)) :=
              size_seen (by simp)
            have hlonger := size_terminated h hlater
            have hpos := List.length_pos_iff.mpr hne
            rw [heq, hlonger, List.nil_append, List.length_append] at hle
            omega
          · intro ⟨hall, _⟩
            obtain ⟨later, hl, hm⟩ := List.mem_flatten.mp hlater
            exact absurd (hall later hl hm) hchunk
        · have hno : newline ∉ carry ++ chunk ++ chunks.flatten := by
            rw [List.mem_append]
            exact fun hm => hm.elim h hlater
          rw [List.nil_append, (terminated_of_not_mem hlater).1] at hkeep
          rw [(terminated_of_not_mem hno).1, hkeep]
          refine ⟨fun hp => ⟨fun later hl hm => ?_, hp⟩, fun hp => hp.2⟩
          exact absurd (List.mem_flatten.mpr ⟨later, hl, hm⟩) hlater

/-- **`grep` writes the lines that match**, whatever the pattern, unless it reads a chunk
without a newline and a newline after it: the partial line is thrown away. -/
theorem grep_lines_iff (buf : Memory) {chunks : List Str} (hans : Answers [] chunks) :
    (∀ pattern, grep pattern buf chunks =
        some (selected pattern (terminated chunks.flatten))) ↔
      chunks.Pairwise fun chunk later => newline ∈ later → newline ∈ chunk := by
  have hempty : Carried buf 0 [] := ⟨rfl, by simp⟩
  have hrun : ∀ pattern, grep pattern buf chunks = some (selected pattern (seen [] chunks)) :=
    fun _ => grepLoop_seen hempty hans
  have hseen := seen_iff (by simp) hans
  rw [List.nil_append] at hseen
  rw [← hseen]
  constructor
  · intro h
    -- the empty pattern selects every line
    have hall := h []
    rw [hrun, Option.some.injEq] at hall
    have hselect : ∀ lines, selected [] lines = lines.map (· ++ [newline]) := by
      intro lines
      have htrue : ∀ line ∈ lines, matchRe [] line = true := by
        intro line _
        rw [matchRe_iff]
        exact .inr ⟨by simp, [], line, rfl, matchesHere_nil⟩
      rw [selected, List.filter_eq_self.mpr htrue]
    rw [hselect, hselect] at hall
    exact List.map_injective_iff.mpr (List.append_left_injective [newline]) hall
  · intro h pattern
    rw [hrun, h]

/-- `"ab"` for the line `"ab\n"`, read as `"a"` and `"b\n"`. -/
theorem grep_drops : Answers [] [[97], [98, newline]] ∧
    grep [97, 98] (fun _ => 0) [[97], [98, newline]] ≠
      some (selected [97, 98] (terminated [97, 98, newline])) := by
  have hempty : Carried (fun _ => 0) 0 [] := ⟨rfl, by simp⟩
  have hans : Answers [] [[97], [98, newline]] := by decide
  have hrun : grep [97, 98] (fun _ => 0) [[97], [98, newline]] =
      some (selected [97, 98] (seen [] [[97], [98, newline]])) := grepLoop_seen hempty hans
  refine ⟨hans, ?_⟩
  rw [hrun]
  decide

/-- Line by line. -/
theorem grep_line_by_line :
    grep [98] (fun _ => 0) [[97, newline], [98, newline]] = some [[98, newline]] := by
  have hans : Answers [] [[97, newline], [98, newline]] := by decide
  have hlines := (grep_lines_iff (fun _ => 0) hans).mpr (by decide) [98]
  exact hlines.trans (by decide)

end Rxv64.Cmd.Grep
