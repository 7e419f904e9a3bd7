import Rxv64.Lib.Ring
import Rxv64.Lib.Runs

/-!
# Console — the line discipline

`Reader` of `kernel/src/console.rs`: what has been typed, between three counters
of one ring. Bytes from the read counter to the write counter are committed,
those from there to the edit counter can still be edited. What `put` echoes and
whom it wakes up is left out.

`Line` says what this is for.
-/

namespace Rxv64.Console

open Runs

/-- `CAPACITY`. -/
abbrev capacity : Nat := 256

local instance : NeZero capacity := ⟨by decide⟩

/-- `ctrl`. -/
def ctrl (c : Char) : UInt8 := UInt8.ofNat (c.toNat - '@'.toNat)

def backspaceKey : UInt8 := ctrl 'H'

def deleteKey : UInt8 := 0x7F

def ctlD : UInt8 := ctrl 'D'

def ctlP : UInt8 := ctrl 'P'

def ctlU : UInt8 := ctrl 'U'

def cr : UInt8 := 13

def lf : UInt8 := 10

structure Reader where
  buffer : Fin capacity → UInt8
  readIndex : UInt64
  writeIndex : UInt64
  editIndex : UInt64

namespace Reader

def len (r : Reader) : UInt64 := r.writeIndex - r.readIndex

def isEmpty (r : Reader) : Bool := r.readIndex = r.writeIndex

def isFull (r : Reader) : Bool := r.editIndex - r.readIndex = UInt64.ofNat capacity

def backspace (r : Reader) : Reader :=
  if r.editIndex ≠ r.writeIndex then { r with editIndex := r.editIndex - 1 } else r

/-- The loop of `kill`, by fuel. -/
def killLoop : Nat → Reader → Reader
  | 0, r => r
  | fuel + 1, r => if r.editIndex ≠ r.writeIndex then killLoop fuel r.backspace else r

/-- `kill`: there is a turn for each byte that can be edited. -/
def kill (r : Reader) : Reader := killLoop (Ring.count r.writeIndex r.editIndex) r

/-- The byte goes to the edit counter. -/
def store (r : Reader) (b : UInt8) : Reader :=
  { r with
    buffer := Function.update r.buffer (Ring.slot capacity r.editIndex) b
    editIndex := r.editIndex + 1 }

/-- Whether the line ends with this byte. -/
def ends (r : Reader) (b : UInt8) : Bool :=
  b = lf || b = ctlD || r.editIndex = r.readIndex + UInt64.ofNat capacity

def commit (r : Reader) : Reader := { r with writeIndex := r.editIndex }

def put (r : Reader) (b : UInt8) : Except String UInt64 × Reader :=
  if b = backspaceKey ∨ b = deleteKey then (.ok r.backspace.len, r.backspace)
  else if b = ctlP then (.ok r.len, r)
  else if b = ctlU then (.ok r.kill.len, r.kill)
  else if r.isFull then (.error "console overflow", r)
  else
    let b := if b = cr then lf else b
    let r := r.store b
    let r := if r.ends b then r.commit else r
    (.ok r.len, r)

def peek (r : Reader) : Except String UInt8 :=
  if r.isEmpty then .error "console underflow"
  else .ok (r.buffer (Ring.slot capacity r.readIndex))

def get (r : Reader) : Except String UInt8 × Reader :=
  match r.peek with
  | .error e => (.error e, r)
  | .ok b => (.ok b, { r with readIndex := r.readIndex + 1 })

end Reader

/-- The calls, as the interrupt and the readers make them. -/
inductive Op where
  | put (b : UInt8)
  | get

inductive Out where
  | put (r : Except String Nat)
  | get (r : Except String UInt8)

def Reader.step (r : Reader) : Op → Out × Reader
  | .put b => (.put ((r.put b).1.map UInt64.toNat), (r.put b).2)
  | .get => (.get r.get.1, r.get.2)

/-! ## What it is for -/

/-- A queue of committed bytes and a line that is being typed. -/
structure Line where
  committed : List UInt8
  pending : List UInt8

namespace Line

def total (l : Line) : Nat := l.committed.length + l.pending.length

/-- A byte is appended to the line, which may end it. -/
def type (l : Line) (b : UInt8) : Line :=
  if b = lf ∨ b = ctlD ∨ l.total + 1 = capacity then ⟨l.committed ++ l.pending ++ [b], []⟩
  else ⟨l.committed, l.pending ++ [b]⟩

def put (l : Line) (b : UInt8) : Except String Nat × Line :=
  if b = backspaceKey ∨ b = deleteKey then
    (.ok l.committed.length, ⟨l.committed, l.pending.dropLast⟩)
  else if b = ctlP then (.ok l.committed.length, l)
  else if b = ctlU then (.ok l.committed.length, ⟨l.committed, []⟩)
  else if l.total = capacity then (.error "console overflow", l)
  else
    let l := l.type (if b = cr then lf else b)
    (.ok l.committed.length, l)

def get (l : Line) : Except String UInt8 × Line :=
  match l.committed with
  | [] => (.error "console underflow", l)
  | b :: rest => (.ok b, ⟨rest, l.pending⟩)

def step (l : Line) : Op → Out × Line
  | .put b => (.put (l.put b).1, (l.put b).2)
  | .get => (.get l.get.1, l.get.2)

end Line

/-! ## The counters -/

namespace Reader

/-- The line in the ring. -/
def line (r : Reader) : Line :=
  ⟨Ring.content r.buffer r.readIndex r.writeIndex, Ring.content r.buffer r.writeIndex r.editIndex⟩

/-- The counters are in order, and a full ring is committed. -/
structure Ok (r : Reader) : Prop where
  fits : r.line.total ≤ capacity
  full : r.line.total = capacity → r.line.pending = []

variable {r : Reader} {b : UInt8}

theorem total_eq : r.line.total =
    Ring.count r.readIndex r.writeIndex + Ring.count r.writeIndex r.editIndex := by
  simp [line, Line.total]

theorem total_count (h : r.line.total ≤ capacity) :
    r.line.total = Ring.count r.readIndex r.editIndex := by
  rw [total_eq] at h ⊢
  exact (Ring.count_add (Nat.lt_of_le_of_lt h (by decide))).symm

/-- The whole ring. -/
theorem content_line (h : r.line.total ≤ capacity) :
    Ring.content r.buffer r.readIndex r.editIndex = r.line.committed ++ r.line.pending := by
  rw [total_eq] at h
  exact Ring.content_append _ (Nat.lt_of_le_of_lt h (by decide))

theorem len_toNat : r.len.toNat = r.line.committed.length := by
  simp [line, len, Ring.count]

theorem Ok.isFull_iff (h : r.Ok) : r.isFull = true ↔ r.line.total = capacity := by
  rw [total_count h.fits, isFull, decide_eq_true_eq, Ring.count]
  constructor
  · intro hf
    rw [hf]
    rfl
  · intro hf
    exact UInt64.toNat_inj.mp hf

theorem line_backspace : r.backspace.line = ⟨r.line.committed, r.line.pending.dropLast⟩ := by
  unfold backspace
  by_cases he : r.editIndex = r.writeIndex
  · have hnil : r.line.pending = [] := by
      rw [← List.length_eq_zero_iff]
      simp [line, he, Ring.count_eq_zero]
    rw [if_neg (fun hne => hne he), hnil]
    show r.line = ⟨r.line.committed, []⟩
    rw [← hnil]
  · rw [if_pos he]
    exact congrArg (Line.mk _) (Ring.content_retreat _ (Ne.symm he))

theorem line_killLoop (fuel : Nat) :
    ∀ {r : Reader}, Ring.count r.writeIndex r.editIndex = fuel →
      (killLoop fuel r).line = ⟨r.line.committed, []⟩ := by
  induction fuel with
  | zero =>
      intro r h
      have hnil : r.line.pending = [] := by
        rw [← List.length_eq_zero_iff]
        simpa [line] using h
      show r.line = ⟨r.line.committed, []⟩
      rw [← hnil]
  | succ fuel ih =>
      intro r h
      have hne : r.editIndex ≠ r.writeIndex := by
        intro he
        rw [he, Ring.count_eq_zero.mpr rfl] at h
        exact absurd h (Nat.succ_ne_zero fuel).symm
      have hback : Ring.count r.backspace.writeIndex r.backspace.editIndex = fuel := by
        have := Ring.count_retreat (Ne.symm hne)
        rw [backspace, if_pos hne]
        show Ring.count r.writeIndex (r.editIndex - 1) = fuel
        omega
      rw [killLoop, if_pos hne, ih hback, line_backspace]

theorem line_kill : r.kill.line = ⟨r.line.committed, []⟩ := line_killLoop _ rfl

theorem Ok.line_store (h : r.Ok) (hroom : r.line.total < capacity) :
    (r.store b).line = ⟨r.line.committed, r.line.pending ++ [b]⟩ := by
  have hcap : capacity = 256 := rfl
  have htotal := total_count h.fits
  have hsum := total_eq (r := r)
  have hnext : Ring.count r.writeIndex (r.editIndex + 1) =
      Ring.count r.writeIndex r.editIndex + 1 := Ring.count_push (by omega)
  -- the whole ring grows by one byte, and its two parts keep their lengths
  have hpush := Ring.content_push (by decide) (by decide) r.buffer
    (show Ring.count r.readIndex r.editIndex < capacity by omega) b
  rw [content_line h.fits, Ring.content_append _ (show Ring.count r.readIndex r.writeIndex +
    Ring.count r.writeIndex (r.editIndex + 1) < 2 ^ 64 by omega), List.append_assoc] at hpush
  obtain ⟨hcommitted, hpending⟩ := List.append_inj hpush (by simp [line])
  exact congrArg₂ Line.mk hcommitted hpending

theorem line_commit (h : r.line.total ≤ capacity) :
    r.commit.line = ⟨r.line.committed ++ r.line.pending, []⟩ := by
  refine congrArg₂ Line.mk (content_line h) ?_
  rw [← List.length_eq_zero_iff]
  simp [commit, Ring.count_eq_zero]

/-- The byte ends the line. -/
theorem Ok.ends_store (h : r.Ok) (hroom : r.line.total < capacity) :
    (r.store b).ends b = true ↔ b = lf ∨ b = ctlD ∨ r.line.total + 1 = capacity := by
  have hcap : capacity = 256 := rfl
  have hcount : Ring.count r.readIndex (r.editIndex + 1) = r.line.total + 1 := by
    rw [total_count h.fits] at hroom ⊢
    exact Ring.count_push (by omega)
  have hlast : r.editIndex + 1 = r.readIndex + UInt64.ofNat capacity ↔
      r.line.total + 1 = capacity := by
    rw [← hcount, Ring.count_eq (by decide), eq_comm]
  simp only [ends, store, Bool.or_eq_true, decide_eq_true_eq, hlast, or_assoc]

/-- A line in the ring that is not full, or is full and committed. -/
theorem ok_of_line {l : Line} (hl : r.line = l) (hfits : l.total ≤ capacity)
    (hfull : l.total = capacity → l.pending = []) : r.Ok := by
  subst hl
  exact ⟨hfits, hfull⟩

theorem Ok.put (h : r.Ok) (b : UInt8) :
    (r.put b).1.map UInt64.toNat = (r.line.put b).1 ∧ (r.put b).2.Ok ∧
      (r.put b).2.line = (r.line.put b).2 := by
  unfold Reader.put Line.put
  by_cases hback : b = backspaceKey ∨ b = deleteKey
  · rw [if_pos hback, if_pos hback]
    refine ⟨?_, ok_of_line line_backspace ?_ fun hfull => ?_, line_backspace⟩
    · show Except.ok r.backspace.len.toNat = _
      rw [len_toNat, line_backspace]
    · have := h.fits
      simp only [Line.total, List.length_dropLast] at this ⊢
      omega
    · have hfits := h.fits
      simp only [Line.total, List.length_dropLast] at hfits hfull
      have := h.full (by simp only [Line.total]; omega)
      rw [this]
      rfl
  rw [if_neg hback, if_neg hback]
  by_cases hp : b = ctlP
  · rw [if_pos hp, if_pos hp]
    refine ⟨?_, h, rfl⟩
    show Except.ok r.len.toNat = _
    rw [len_toNat]
  rw [if_neg hp, if_neg hp]
  by_cases hu : b = ctlU
  · rw [if_pos hu, if_pos hu]
    refine ⟨?_, ok_of_line line_kill ?_ fun _ => rfl, line_kill⟩
    · show Except.ok r.kill.len.toNat = _
      rw [len_toNat, line_kill]
    · have := h.fits
      simp only [Line.total, List.length_nil] at this ⊢
      omega
  rw [if_neg hu, if_neg hu]
  by_cases hfull : r.isFull = true
  · rw [if_pos hfull, if_pos (h.isFull_iff.mp hfull)]
    exact ⟨rfl, h, rfl⟩
  have hroom : r.line.total < capacity :=
    Nat.lt_of_le_of_ne h.fits fun he => hfull (h.isFull_iff.mpr he)
  rw [if_neg hfull, if_neg (Nat.ne_of_lt hroom)]
  generalize (if b = cr then lf else b) = c
  have hstore := h.line_store (b := c) hroom
  have htotal : (r.store c).line.total = r.line.total + 1 := by
    rw [hstore]
    simp [Line.total, Nat.add_assoc]
  dsimp only
  by_cases hends : (r.store c).ends c = true
  · have hcommit := line_commit (r := r.store c) (by omega)
    rw [hstore] at hcommit
    rw [if_pos hends, Line.type, if_pos ((h.ends_store hroom).mp hends), List.append_assoc]
    refine ⟨?_, ok_of_line hcommit ?_ fun _ => rfl, hcommit⟩
    · show Except.ok (r.store c).commit.len.toNat = _
      rw [len_toNat, hcommit]
    · simp only [Line.total, List.length_append, List.length_nil, List.length_singleton] at hroom ⊢
      omega
  · have hopen := fun hn => hends ((h.ends_store hroom).mpr hn)
    rw [if_neg hends, Line.type, if_neg hopen]
    refine ⟨?_, ok_of_line hstore ?_ fun hfull => ?_, hstore⟩
    · show Except.ok (r.store c).len.toNat = _
      rw [len_toNat, hstore]
    · rw [← hstore]
      omega
    · rw [← hstore, htotal] at hfull
      exact absurd (.inr (.inr hfull)) hopen

theorem Ok.get (h : r.Ok) :
    r.get.1 = r.line.get.1 ∧ r.get.2.Ok ∧ r.get.2.line = r.line.get.2 := by
  unfold Reader.get Reader.peek
  by_cases he : r.readIndex = r.writeIndex
  · have hnil : r.line.committed = [] := by
      rw [← List.length_eq_zero_iff]
      simp [line, he, Ring.count_eq_zero]
    rw [if_pos (by simp [isEmpty, he]), Line.get, hnil]
    exact ⟨rfl, h, rfl⟩
  · have hcons : r.line.committed = r.buffer (Ring.slot capacity r.readIndex) ::
        Ring.content r.buffer (r.readIndex + 1) r.writeIndex := Ring.content_pop _ he
    rw [if_neg (by simp [isEmpty, he]), Line.get, hcons]
    refine ⟨rfl, ok_of_line rfl ?_ fun hfull => ?_, rfl⟩
    · have hfits := h.fits
      rw [Line.total, hcons, List.length_cons] at hfits
      simp only [line, Line.total] at hfits ⊢
      omega
    · have hfits := h.fits
      rw [Line.total, hcons, List.length_cons] at hfits
      simp only [line, Line.total] at hfits hfull
      omega

theorem Ok.step (h : r.Ok) (op : Op) :
    (r.step op).1 = (r.line.step op).1 ∧ (r.step op).2.Ok ∧
      (r.step op).2.line = (r.line.step op).2 := by
  cases op with
  | put b =>
      obtain ⟨hout, hok, hline⟩ := h.put b
      exact ⟨congrArg Out.put hout, hok, hline⟩
  | get =>
      obtain ⟨hout, hok, hline⟩ := h.get
      exact ⟨congrArg Out.get hout, hok, hline⟩

/-- The console before anything is typed; the counters may stand anywhere. -/
def idle (buffer : Fin capacity → UInt8) (i : UInt64) : Reader := ⟨buffer, i, i, i⟩

theorem line_idle (buffer : Fin capacity → UInt8) (i : UInt64) : (idle buffer i).line = ⟨[], []⟩ := by
  refine congrArg₂ Line.mk ?_ ?_
  · rw [← List.length_eq_zero_iff]
    simp [idle, Ring.count_eq_zero]
  · rw [← List.length_eq_zero_iff]
    simp [idle, Ring.count_eq_zero]

end Reader

/-- **The console is a queue and a line**: whatever is typed and read, in any
order and wherever the counters stand, the answers are those of `Line`, and a
full ring has a committed byte. -/
theorem reader_refines_line (buffer : Fin capacity → UInt8) (i : UInt64) (ops : List Op) :
    (feed Reader.step (.idle buffer i) ops).1 = (feed Line.step ⟨[], []⟩ ops).1 ∧
    (feed Reader.step (.idle buffer i) ops).2.line = (feed Line.step ⟨[], []⟩ ops).2 ∧
    ((feed Reader.step (.idle buffer i) ops).2.isFull = true →
      (feed Reader.step (.idle buffer i) ops).2.isEmpty = false) := by
  have hidle : (Reader.idle buffer i).Ok ∧ (Reader.idle buffer i).line = ⟨[], []⟩ :=
    ⟨Reader.ok_of_line (Reader.line_idle buffer i) (Nat.zero_le _) fun _ => rfl,
      Reader.line_idle buffer i⟩
  have hstep : ∀ (r : Reader) (l : Line) (op : Op), r.Ok ∧ r.line = l →
      (r.step op).1 = (l.step op).1 ∧ (r.step op).2.Ok ∧ (r.step op).2.line = (l.step op).2 := by
    rintro r l op ⟨hok, rfl⟩
    exact hok.step op
  obtain ⟨hout, hok, hline⟩ := feed_refines hstep hidle ops
  refine ⟨hout, hline, fun hfull => ?_⟩
  generalize (feed Reader.step (.idle buffer i) ops).2 = r at hok hfull
  have htotal := hok.isFull_iff.mp hfull
  rw [Line.total, hok.full htotal] at htotal
  by_contra hempty
  have he : r.readIndex = r.writeIndex := by simpa [Reader.isEmpty] using hempty
  have hnil : r.line.committed.length = 0 := by simp [Reader.line, he, Ring.count_eq_zero]
  rw [hnil] at htotal
  cases htotal

end Rxv64.Console
