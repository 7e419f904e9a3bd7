import Rxv64.Lib.Monitor
import Rxv64.Lib.Ring
import Rxv64.Disk

/-!
# Sync.Pipe — reading, writing and closing a pipe

`Pipe`, `PipeReader` and `PipeWriter` of `kernel/src/pipe.rs`. The pipe is
the data of a monitor; its two channels are the addresses of its counters.
Beside the pipe stands what has gone through it: the bytes `write_byte`
accepted, each with the call that wrote it, and the bytes handed to readers.
-/

namespace Rxv64.Sync

open Monitor Runs Layout

/-- `struct Pipe`, with its data page. -/
structure Pipe where
  nread : UInt64
  nwrite : UInt64
  data : Page bsize
  readOpen : Bool
  writeOpen : Bool

namespace Pipe

local instance : NeZero bsize := ⟨by decide⟩

/-- `Pipe::reset`. -/
def reset (page : Page bsize) : Pipe := ⟨0, 0, page, true, true⟩

def isEmpty (p : Pipe) : Bool := p.nread = p.nwrite

def readable (p : Pipe) : Bool := !p.isEmpty || !p.writeOpen

/-- `nread + data.len() == nwrite`, with the addition of a release build. -/
def isFull (p : Pipe) : Bool := p.nread + UInt64.ofNat bsize = p.nwrite

def broken (p : Pipe) : Bool := !p.readOpen

/-- The byte `read_byte` returns. -/
def front (p : Pipe) : UInt8 := p.data (Ring.slot bsize p.nread)

/-- The pipe after `read_byte`. -/
def readByte (p : Pipe) : Pipe := { p with nread := p.nread + 1 }

def writeByte (p : Pipe) (b : UInt8) : Pipe :=
  { p with
    data := Function.update p.data (Ring.slot bsize p.nwrite) b
    nwrite := p.nwrite + 1 }

/-- The number of bytes in the buffer. -/
def count (p : Pipe) : Nat := Ring.count p.nread p.nwrite

/-- The bytes in the buffer, oldest first. -/
def buffered (p : Pipe) : List UInt8 := Ring.content p.data p.nread p.nwrite

theorem isFull_iff {p : Pipe} : p.isFull = true ↔ p.count = bsize := by
  rw [isFull, decide_eq_true_eq, count, Ring.count_eq (by decide)]

theorem buffered_readByte {p : Pipe} (h : p.isEmpty = false) :
    p.buffered = p.front :: p.readByte.buffered :=
  Ring.content_pop _ (by simpa [isEmpty] using h)

theorem count_readByte {p : Pipe} (h : p.isEmpty = false) : p.readByte.count + 1 = p.count := by
  have hne : p.nread ≠ p.nwrite := by simpa [isEmpty] using h
  exact Ring.count_pop hne

theorem buffered_writeByte {p : Pipe} (h : p.count < bsize) (b : UInt8) :
    (p.writeByte b).buffered = p.buffered ++ [b] :=
  Ring.content_push (by decide) (by decide) _ h b

theorem count_writeByte {p : Pipe} (h : p.count < bsize) (b : UInt8) :
    (p.writeByte b).count = p.count + 1 :=
  Ring.count_push (lt_trans h (by decide))

theorem count_reset (page : Page bsize) : (reset page).count = 0 := Ring.count_eq_zero.mpr rfl

theorem buffered_reset (page : Page bsize) : (reset page).buffered = [] := by
  refine List.eq_nil_of_length_eq_zero ?_
  rw [buffered, Ring.length_content]
  exact count_reset page

end Pipe

/-- A byte on its way through the pipe: the caller and the number of its
call. -/
structure Sent (ι : Type) where
  caller : ι
  call : Nat
  byte : UInt8

/-- The pipe and what has gone through it. -/
structure Traffic (ι : Type) where
  pipe : Pipe
  accepted : List (Sent ι)
  delivered : List UInt8

/-- The two channels. -/
inductive Chan where
  | read | write
  deriving DecidableEq

inductive PipeCall where
  /-- `PipeReader::read` into a buffer of `len` bytes -/
  | read (len : Nat)
  /-- `PipeWriter::write` -/
  | write (buf : List UInt8)
  | closeRead
  | closeWrite

inductive PipePoint where
  /-- `while !pipe.readable()` -/
  | readWait (len : Nat)
  /-- `while k < buf.len() && !pipe.is_empty()`, with the bytes copied so far -/
  | readCopy (len : Nat) (got : List UInt8)
  | readEnd (len : Nat) (got : List UInt8)
  /-- the `i`-th byte of call `n`, at `while pipe.is_full()` -/
  | write (n : Nat) (buf : List UInt8) (i : Nat)
  | writeSleep (n : Nat) (buf : List UInt8) (i : Nat)
  | writeEnd (len : Nat)
  | closeRead | closeReadWake | closeReadEnd
  | closeWrite | closeWriteWake | closeWriteEnd

inductive PipeResult where
  /-- `Ok(got.len())` -/
  | read (len : Nat) (got : List UInt8)
  /-- `Err("dead")` -/
  | dead
  | wrote (len : Nat)
  /-- `Err("broken pipe")` -/
  | broken
  /-- whether the other end is closed too -/
  | closed (both : Bool)

namespace Traffic

variable {ι : Type}

/-- `buf[k] = pipe.read_byte()`. -/
def take (t : Traffic ι) : Traffic ι :=
  { t with pipe := t.pipe.readByte, delivered := t.delivered ++ [t.pipe.front] }

/-- `pipe.write_byte(b)` in call `n` of `p`. -/
def put (t : Traffic ι) (p : ι) (n : Nat) (b : UInt8) : Traffic ι :=
  { t with pipe := t.pipe.writeByte b, accepted := t.accepted ++ [⟨p, n, b⟩] }

def closeRead (t : Traffic ι) : Traffic ι := { t with pipe := { t.pipe with readOpen := false } }

def closeWrite (t : Traffic ι) : Traffic ι := { t with pipe := { t.pipe with writeOpen := false } }

end Traffic

section Code

variable {ι : Type}

def pipeNext (p : ι) (dead : Bool) :
    PipePoint → Traffic ι → Move (Traffic ι) PipePoint Chan PipeResult
  | .readWait len, t =>
      if t.pipe.readable then .go t (.readCopy len [])
      else if dead then .done t .dead
      else .sleep .read (.readWait len)
  | .readCopy len got, t =>
      if got.length < len ∧ t.pipe.isEmpty = false then
        .go t.take (.readCopy len (got ++ [t.pipe.front]))
      else .wake .write (.readEnd len got)
  | .readEnd len got, t => .done t (.read len got)
  | .write n buf i, t =>
      match buf[i]? with
      | none => .wake .read (.writeEnd buf.length)
      | some b =>
          if t.pipe.isFull then
            if t.pipe.broken then .done t .broken
            else .wake .read (.writeSleep n buf i)
          else .go (t.put p n b) (.write n buf (i + 1))
  | .writeSleep n buf i, _ => .sleep .write (.write n buf i)
  | .writeEnd len, t => .done t (.wrote len)
  | .closeRead, t => .go t.closeRead .closeReadWake
  | .closeReadWake, _ => .wake .write .closeReadEnd
  | .closeReadEnd, t => .done t (.closed !t.pipe.writeOpen)
  | .closeWrite, t => .go t.closeWrite .closeWriteWake
  | .closeWriteWake, _ => .wake .read .closeWriteEnd
  | .closeWriteEnd, t => .done t (.closed !t.pipe.readOpen)

/-- The code of the two ends. -/
def pipeCode : Code ι PipeCall (Traffic ι) PipePoint Chan PipeResult where
  start _ n
    | .read len => .readWait len
    | .write buf => .write n buf 0
    | .closeRead => .closeRead
    | .closeWrite => .closeWrite
  next := pipeNext

/-- What the code does at each point, and when. -/
inductive PipeMove (p : ι) (t : Traffic ι) :
    PipePoint → Move (Traffic ι) PipePoint Chan PipeResult → Prop where
  | readable (len : Nat) : t.pipe.readable = true →
      PipeMove p t (.readWait len) (.go t (.readCopy len []))
  | dead (len : Nat) : PipeMove p t (.readWait len) (.done t .dead)
  | waitRead (len : Nat) : t.pipe.isEmpty = true → t.pipe.writeOpen = true →
      PipeMove p t (.readWait len) (.sleep .read (.readWait len))
  | take (len : Nat) (got : List UInt8) : t.pipe.isEmpty = false →
      PipeMove p t (.readCopy len got) (.go t.take (.readCopy len (got ++ [t.pipe.front])))
  | taken (len : Nat) (got : List UInt8) : ¬(got.length < len ∧ t.pipe.isEmpty = false) →
      PipeMove p t (.readCopy len got) (.wake .write (.readEnd len got))
  | readEnd (len : Nat) (got : List UInt8) :
      PipeMove p t (.readEnd len got) (.done t (.read len got))
  | put (n : Nat) (buf : List UInt8) (i : Nat) (b : UInt8) : buf[i]? = some b →
      t.pipe.isFull = false →
      PipeMove p t (.write n buf i) (.go (t.put p n b) (.write n buf (i + 1)))
  | broken (n : Nat) (buf : List UInt8) (i : Nat) : t.pipe.readOpen = false →
      PipeMove p t (.write n buf i) (.done t .broken)
  | full (n : Nat) (buf : List UInt8) (i : Nat) : t.pipe.isFull = true → t.pipe.readOpen = true →
      PipeMove p t (.write n buf i) (.wake .read (.writeSleep n buf i))
  | waitWrite (n : Nat) (buf : List UInt8) (i : Nat) :
      PipeMove p t (.writeSleep n buf i) (.sleep .write (.write n buf i))
  | written (n : Nat) (buf : List UInt8) (i : Nat) :
      PipeMove p t (.write n buf i) (.wake .read (.writeEnd buf.length))
  | writeEnd (len : Nat) : PipeMove p t (.writeEnd len) (.done t (.wrote len))
  | closeRead : PipeMove p t .closeRead (.go t.closeRead .closeReadWake)
  | closeReadWake : PipeMove p t .closeReadWake (.wake .write .closeReadEnd)
  | closeReadEnd : PipeMove p t .closeReadEnd (.done t (.closed !t.pipe.writeOpen))
  | closeWrite : PipeMove p t .closeWrite (.go t.closeWrite .closeWriteWake)
  | closeWriteWake : PipeMove p t .closeWriteWake (.wake .read .closeWriteEnd)
  | closeWriteEnd : PipeMove p t .closeWriteEnd (.done t (.closed !t.pipe.readOpen))

theorem pipeNext_move (p : ι) (dead : Bool) (k : PipePoint) (t : Traffic ι) :
    PipeMove p t k (pipeNext p dead k t) := by
  cases k with
  | readWait len =>
      simp only [pipeNext]
      split
      · next hr => exact .readable len hr
      · next hr =>
          split
          · exact .dead len
          · have hwait : t.pipe.isEmpty = true ∧ t.pipe.writeOpen = true := by
              simpa [Pipe.readable] using hr
            exact .waitRead len hwait.1 hwait.2
  | readCopy len got =>
      simp only [pipeNext]
      split
      · next hc => exact .take len got hc.2
      · next hc => exact .taken len got hc
  | write n buf i =>
      simp only [pipeNext]
      split
      · exact .written n buf i
      · next b hb =>
          split
          · next hf =>
              split
              · next hbroken => exact .broken n buf i (by simpa [Pipe.broken] using hbroken)
              · next hopen => exact .full n buf i hf (by simpa [Pipe.broken] using hopen)
          · next hf => exact .put n buf i b hb (by simpa using hf)
  | readEnd len got => exact .readEnd len got
  | writeSleep n buf i => exact .waitWrite n buf i
  | writeEnd len => exact .writeEnd len
  | closeRead => exact .closeRead
  | closeReadWake => exact .closeReadWake
  | closeReadEnd => exact .closeReadEnd
  | closeWrite => exact .closeWrite
  | closeWriteWake => exact .closeWriteWake
  | closeWriteEnd => exact .closeWriteEnd

theorem PipeMove.of_next {p : ι} {dead : Bool} {k : PipePoint} {t : Traffic ι}
    {m : Move (Traffic ι) PipePoint Chan PipeResult} (hm : pipeNext p dead k t = m) :
    PipeMove p t k m := hm ▸ pipeNext_move p dead k t

/-! ## The discipline -/

/-- What was accepted has been delivered or is buffered. -/
structure Lossless (t : Traffic ι) : Prop where
  fifo : t.delivered ++ t.pipe.buffered = t.accepted.map Sent.byte
  bound : t.pipe.count ≤ bsize

/-- A reader waits for bytes or for the other end to close, unless its own
end is closed. -/
def WaitsFor : Chan → Traffic ι → Prop
  | .read, t => t.pipe.readOpen = false ∨ (t.pipe.isEmpty = true ∧ t.pipe.writeOpen = true)
  | .write, t => t.pipe.isFull = true ∧ t.pipe.readOpen = true

def PipeAt (_ : ι) : PipePoint → Traffic ι → Prop
  | .readCopy _ got, t => Lossless t ∧ (got = [] → t.pipe.readable = true)
  | .readEnd len got, t =>
      Lossless t ∧ (got = [] → 0 < len → t.pipe.isEmpty = true ∧ t.pipe.writeOpen = false)
  | .writeSleep _ _ _, t => Lossless t ∧ t.pipe.isFull = true ∧ t.pipe.readOpen = true
  | _, t => Lossless t

def PipeOwes : PipePoint → Chan → Prop
  | .readCopy _ _, .write => True
  | .write _ _ _, .read => True
  | .closeReadWake, .write => True
  | .closeWriteWake, .read => True
  | _, _ => False

theorem PipeAt.lossless {p : ι} {k : PipePoint} {t : Traffic ι} (h : PipeAt p k t) :
    Lossless t := by
  cases k with
  | readCopy len got => exact h.1
  | readEnd len got => exact h.1
  | writeSleep n buf i => exact h.1
  | _ => exact h

theorem Lossless.take {t : Traffic ι} (h : Lossless t) (he : t.pipe.isEmpty = false) :
    Lossless t.take where
  fifo := by
    show t.delivered ++ [t.pipe.front] ++ t.pipe.readByte.buffered = t.accepted.map Sent.byte
    rw [← h.fifo, Pipe.buffered_readByte he, List.append_assoc, List.singleton_append]
  bound := by
    have := Pipe.count_readByte he
    have := h.bound
    show t.pipe.readByte.count ≤ bsize
    omega

theorem Lossless.put {t : Traffic ι} (h : Lossless t) (hf : t.pipe.isFull = false) (p : ι)
    (n : Nat) (b : UInt8) : Lossless (t.put p n b) := by
  have hlt : t.pipe.count < bsize := by
    have hne : t.pipe.count ≠ bsize := by
      rw [ne_eq, ← Pipe.isFull_iff, hf]
      decide
    exact lt_of_le_of_ne h.bound hne
  refine ⟨?_, ?_⟩
  · show t.delivered ++ (t.pipe.writeByte b).buffered = (t.accepted ++ [_]).map Sent.byte
    rw [Pipe.buffered_writeByte hlt, ← List.append_assoc, h.fifo, List.map_append]
    rfl
  · show (t.pipe.writeByte b).count ≤ bsize
    rw [Pipe.count_writeByte hlt]
    exact hlt

/-- Closing an end of the pipe moves no byte. -/
theorem Lossless.closeRead {t : Traffic ι} (h : Lossless t) : Lossless t.closeRead :=
  ⟨h.fifo, h.bound⟩

theorem Lossless.closeWrite {t : Traffic ι} (h : Lossless t) : Lossless t.closeWrite :=
  ⟨h.fifo, h.bound⟩

theorem pipe_go {p : ι} {dead : Bool} {k k' : PipePoint} {t t' : Traffic ι} (h : PipeAt p k t)
    (hm : pipeNext p dead k t = .go t' k') :
    PipeAt p k' t' ∧ ∀ c, WaitsFor c t ∨ PipeOwes k c → WaitsFor c t' ∨ PipeOwes k' c := by
  cases PipeMove.of_next hm with
  | readable len hr =>
      exact ⟨⟨h, fun _ => hr⟩, fun c hc => .inl (hc.resolve_right (by cases c <;> exact id))⟩
  | take len got he =>
      refine ⟨⟨h.1.take he, fun hg => by simp at hg⟩, fun c hw => ?_⟩
      cases c with
      | read =>
          -- a pipe with a byte to read is nobody's reason to wait
          rcases hw with (hw | hw) | hw
          · exact .inl (.inl hw)
          · rw [he] at hw
            cases hw.1
          · exact hw.elim
      | write => exact .inr trivial
  | put n buf i b hb hf =>
      refine ⟨h.put hf p n b, fun c hw => ?_⟩
      cases c with
      | read => exact .inr trivial
      | write =>
          rcases hw with hw | hw
          · exact absurd hw.1 (by simp [hf])
          · exact hw.elim
  | closeRead =>
      refine ⟨h.closeRead, fun c hw => ?_⟩
      cases c with
      | read => exact .inl (.inl rfl)
      | write => exact .inr trivial
  | closeWrite =>
      refine ⟨h.closeWrite, fun c hw => ?_⟩
      cases c with
      | read => exact .inr trivial
      | write => exact .inl (hw.resolve_right id)

theorem pipe_wake {p : ι} {dead : Bool} {k k' : PipePoint} {t : Traffic ι} {c : Chan}
    (h : PipeAt p k t) (hm : pipeNext p dead k t = .wake c k') :
    PipeAt p k' t ∧
      ∀ c', WaitsFor c' t ∨ PipeOwes k c' → WaitsFor c' t ∨ c' = c ∨ PipeOwes k' c' := by
  -- the wakeup is for the one channel the point owes
  have hdebt : (∀ c', PipeOwes k c' → c' = c) →
      ∀ c', WaitsFor c' t ∨ PipeOwes k c' → WaitsFor c' t ∨ c' = c ∨ PipeOwes k' c' :=
    fun ho c' hw => hw.imp_right fun hk => .inl (ho c' hk)
  cases PipeMove.of_next hm with
  | taken len got hc =>
      refine ⟨⟨h.1, fun hg hlen => ?_⟩, hdebt ?_⟩
      · subst hg
        have he : t.pipe.isEmpty = true := by
          by_contra hne
          exact hc ⟨hlen, by simpa using hne⟩
        have hr := h.2 rfl
        rw [Pipe.readable, he] at hr
        exact ⟨he, by simpa using hr⟩
      · rintro (_ | _) ho
        · exact ho.elim
        · rfl
  | full n buf i hf hopen =>
      refine ⟨⟨h, hf, hopen⟩, hdebt ?_⟩
      rintro (_ | _) ho
      · rfl
      · exact ho.elim
  | written n buf i =>
      refine ⟨h, hdebt ?_⟩
      rintro (_ | _) ho
      · rfl
      · exact ho.elim
  | closeReadWake =>
      refine ⟨h, hdebt ?_⟩
      rintro (_ | _) ho
      · exact ho.elim
      · rfl
  | closeWriteWake =>
      refine ⟨h, hdebt ?_⟩
      rintro (_ | _) ho
      · rfl
      · exact ho.elim

theorem pipe_sleep {p : ι} {dead : Bool} {k k' : PipePoint} {t : Traffic ι} {c : Chan}
    (h : PipeAt p k t) (hm : pipeNext p dead k t = .sleep c k') :
    (∀ t', Lossless t' → PipeAt p k' t') ∧ WaitsFor c t ∧ ∀ c', PipeOwes k c' → WaitsFor c' t := by
  cases PipeMove.of_next hm with
  | waitRead len he ho =>
      exact ⟨fun _ h => h, .inr ⟨he, ho⟩, fun c' hw => by cases c' <;> exact hw.elim⟩
  | waitWrite n buf i =>
      exact ⟨fun _ h => h, h.2, fun c' hw => by cases c' <;> exact hw.elim⟩

theorem pipe_done {p : ι} {dead : Bool} {k : PipePoint} {t t' : Traffic ι} {r : PipeResult}
    (h : PipeAt p k t) (hm : pipeNext p dead k t = .done t' r) :
    Lossless t' ∧ ∀ c, WaitsFor c t ∨ PipeOwes k c → WaitsFor c t' := by
  cases PipeMove.of_next hm with
  | broken n buf i hclosed =>
      -- the one exit that calls no wakeup: its readers have gone
      refine ⟨h, fun c hw => ?_⟩
      cases c with
      | read => exact .inl hclosed
      | write => exact hw.resolve_right id
  | dead len => exact ⟨h, fun c hw => hw.resolve_right (by cases c <;> exact id)⟩
  | readEnd len got => exact ⟨h.1, fun c hw => hw.resolve_right (by cases c <;> exact id)⟩
  | writeEnd len => exact ⟨h, fun c hw => hw.resolve_right (by cases c <;> exact id)⟩
  | closeReadEnd => exact ⟨h, fun c hw => hw.resolve_right (by cases c <;> exact id)⟩
  | closeWriteEnd => exact ⟨h, fun c hw => hw.resolve_right (by cases c <;> exact id)⟩

theorem pipe_disciplined :
    Disciplined (pipeCode : Code ι _ _ _ _ _) Lossless PipeAt WaitsFor PipeOwes where
  start := by
    rintro p n (len | buf | _ | _) t h <;> exact h
  keeps := fun _ _ _ => PipeAt.lossless
  go := pipe_go
  wake := pipe_wake
  sleep := pipe_sleep
  again := by
    intro p b k t t' k' h hm
    cases PipeMove.of_next hm
  done := pipe_done

/-! ## The bytes of one call -/

/-- The buffer of call `n`, if it was a write. -/
def bufOf (calls : List PipeCall) (n : Nat) : List UInt8 :=
  match calls[n]? with
  | some (.write buf) => buf
  | _ => []

/-- The call and the index a writer is at. -/
def PipePoint.writing : PipePoint → Option (Nat × List UInt8 × Nat)
  | .write n buf i | .writeSleep n buf i => some (n, buf, i)
  | _ => none

variable [DecidableEq ι]

/-- The bytes accepted from call `n` of `p`, in the order of acceptance. -/
def sent (t : Traffic ι) (p : ι) (n : Nat) : List UInt8 :=
  (t.accepted.filter fun x => decide (x.caller = p ∧ x.call = n)).map Sent.byte

theorem sent_put (t : Traffic ι) (p q : ι) (n m : Nat) (b : UInt8) :
    sent (t.put p n b) q m = sent t q m ++ if p = q ∧ n = m then [b] else [] := by
  show ((t.accepted ++ [Sent.mk p n b]).filter _).map Sent.byte = _
  rw [List.filter_append, List.map_append]
  congr 1
  by_cases h : p = q ∧ n = m
  · simp [h]
  · rw [if_neg h, List.filter_cons_of_neg (by simpa using h)]
    rfl

/-- Each call's bytes are accepted in the order of its buffer. -/
structure Ordered (s : State ι PipeCall (Traffic ι) PipePoint Chan) : Prop where
  sent : ∀ p n, sent s.data p n <+: bufOf (s.begun p) n
  here : ∀ p n buf i, (s.phase p).spot.bind PipePoint.writing = some (n, buf, i) →
    n + 1 = (s.begun p).length ∧ bufOf (s.begun p) n = buf ∧ Sync.sent s.data p n = buf.take i

variable {s s' : State ι PipeCall (Traffic ι) PipePoint Chan}

/-- Steps that accept no byte. -/
theorem Ordered.frame (h : Ordered s) (hacc : s'.data.accepted = s.data.accepted)
    (hbegun : s'.begun = s.begun)
    (hspot : ∀ p, (s'.phase p).spot.bind PipePoint.writing = none ∨
      (s'.phase p).spot.bind PipePoint.writing = (s.phase p).spot.bind PipePoint.writing) :
    Ordered s' := by
  have hsent : ∀ p n, Sync.sent s'.data p n = Sync.sent s.data p n := by
    intro p n
    unfold Sync.sent
    rw [hacc]
  refine ⟨fun p n => ?_, fun p n buf i hp => ?_⟩
  · rw [hsent, hbegun]
    exact h.sent p n
  · rw [hsent, hbegun]
    rcases hspot p with hn | he
    · rw [hn] at hp
      cases hp
    · rw [he] at hp
      exact h.here p n buf i hp

theorem bufOf_append (calls : List PipeCall) (r : PipeCall) {n : Nat} (h : n < calls.length) :
    bufOf (calls ++ [r]) n = bufOf calls n := by
  unfold bufOf
  rw [List.getElem?_append_left h]

theorem bufOf_of_le {calls : List PipeCall} {n : Nat} (h : calls.length ≤ n) :
    bufOf calls n = [] := by
  unfold bufOf
  rw [List.getElem?_eq_none h]

/-- A process makes a call. -/
theorem Ordered.called (h : Ordered s) (p : ι) (r : PipeCall) :
    Ordered (s.called pipeCode p r) := by
  have hnew : Sync.sent s.data p (s.begun p).length = [] := by
    have hpre := h.sent p (s.begun p).length
    rw [bufOf_of_le le_rfl] at hpre
    exact List.prefix_nil.mp hpre
  refine ⟨fun q n => ?_, fun q n buf i hq => ?_⟩
  · show Sync.sent s.data q n <+: bufOf (Function.update s.begun p (s.begun p ++ [r]) q) n
    by_cases hqp : q = p
    · subst hqp
      rw [Function.update_self]
      rcases lt_trichotomy n (s.begun q).length with hn | hn | hn
      · rw [bufOf_append _ _ hn]
        exact h.sent q n
      · subst hn
        rw [hnew]
        exact List.nil_prefix
      · have hpre := h.sent q n
        rw [bufOf_of_le hn.le] at hpre
        rw [List.prefix_nil.mp hpre]
        exact List.nil_prefix
    · rw [Function.update_of_ne hqp]
      exact h.sent q n
  · show n + 1 = (Function.update s.begun p (s.begun p ++ [r]) q).length ∧
      bufOf (Function.update s.begun p (s.begun p ++ [r]) q) n = buf ∧
        Sync.sent s.data q n = buf.take i
    by_cases hqp : q = p
    · subst hqp
      simp only [State.called, State.setPhase, Function.update_self] at hq ⊢
      cases r with
      | write buf' =>
          cases hq
          refine ⟨by simp, ?_, ?_⟩
          · simp [bufOf]
          · rw [hnew, List.take_zero]
      | _ => cases hq
    · simp only [State.called, State.setPhase, Function.update_of_ne hqp] at hq ⊢
      exact h.here q n buf i hq

/-- A byte is accepted. -/
theorem Ordered.put (h : Ordered s) {p : ι} {n i : Nat} {buf : List UInt8} {b : UInt8}
    (hp : s.phase p = .inside (.write n buf i)) (hb : buf[i]? = some b)
    (hphase : s'.phase = Function.update s.phase p (.inside (.write n buf (i + 1))))
    (hd : s'.data = s.data.put p n b) (hbegun : s'.begun = s.begun) : Ordered s' := by
  obtain ⟨hn, hbuf, hsent⟩ := h.here p n buf i (by rw [hp]; rfl)
  have htake : buf.take (i + 1) = buf.take i ++ [b] := by
    rw [List.take_add_one, hb]
    rfl
  have hmine : Sync.sent s'.data p n = buf.take (i + 1) := by
    rw [hd, sent_put, if_pos ⟨rfl, rfl⟩, hsent, htake]
  have hother : ∀ q m, ¬(p = q ∧ n = m) → Sync.sent s'.data q m = Sync.sent s.data q m := by
    intro q m hne
    rw [hd, sent_put, if_neg hne, List.append_nil]
  refine ⟨fun q m => ?_, fun q m buf' j hq => ?_⟩
  · rw [hbegun]
    by_cases he : p = q ∧ n = m
    · obtain ⟨rfl, rfl⟩ := he
      rw [hmine, hbuf]
      exact List.take_prefix _ _
    · rw [hother q m he]
      exact h.sent q m
  · rw [hphase] at hq
    rw [hbegun]
    by_cases hqp : q = p
    · subst hqp
      rw [Function.update_self] at hq
      cases hq
      exact ⟨hn, hbuf, hmine⟩
    · rw [Function.update_of_ne hqp] at hq
      rw [hother q m fun he => hqp he.1.symm]
      exact h.here q m buf' j hq

/-- A step of one process that accepts no byte. -/
theorem Ordered.move (h : Ordered s) {p : ι} {ph' : Phase PipePoint Chan}
    (hphase : s'.phase = Function.update s.phase p ph')
    (hacc : s'.data.accepted = s.data.accepted) (hbegun : s'.begun = s.begun)
    (hspot : ph'.spot.bind PipePoint.writing = none ∨
      ph'.spot.bind PipePoint.writing = (s.phase p).spot.bind PipePoint.writing) : Ordered s' := by
  refine h.frame hacc hbegun fun q => ?_
  rw [hphase]
  by_cases hq : q = p
  · subst hq
    rw [Function.update_self]
    exact hspot
  · rw [Function.update_of_ne hq]
    exact .inr rfl

theorem Ordered.own (h : Ordered s) {p : ι} {ph ph' : Phase PipePoint Chan}
    (hp : s.phase p = ph) {l t : Option ι} {r : Option (ι × PipeResult)}
    (hown : Own pipeCode s p ph ph' s'.data l t r)
    (hphase : s'.phase = Function.update s.phase p ph') (hbegun : s'.begun = s.begun) :
    Ordered s' := by
  have hsame : ∀ {k : PipePoint}, ph.spot = some k →
      (s.phase p).spot.bind PipePoint.writing = k.writing := by
    intro k hk
    rw [hp, hk]
    rfl
  generalize hd : s'.data = d at hown
  cases hown with
  | enter k _ => exact h.move hphase (by rw [hd]) hbegun (.inr (hsame rfl).symm)
  | go hm =>
      cases PipeMove.of_next hm with
      | put n buf i b hb hf => exact h.put hp hb hphase hd hbegun
      | readable len hr => exact h.move hphase (by rw [hd]) hbegun (.inl rfl)
      | _ => exact h.move hphase (by rw [hd]; rfl) hbegun (.inl rfl)
  | wake hm =>
      refine h.move hphase (by rw [hd]) hbegun ?_
      rw [hsame rfl]
      cases PipeMove.of_next hm with
      | full n buf i hf hopen => exact .inr rfl
      | _ => exact .inl rfl
  | sleep hm =>
      refine h.move hphase (by rw [hd]) hbegun (.inr ?_)
      rw [hsame rfl]
      cases PipeMove.of_next hm <;> rfl
  | again hm => cases PipeMove.of_next hm
  | done hm => cases PipeMove.of_next hm <;> exact h.move hphase (by rw [hd]) hbegun (.inl rfl)
  | fall c k _ => exact h.move hphase (by rw [hd]) hbegun (.inr (hsame rfl).symm)
  | hand c k => exact h.move hphase (by rw [hd]) hbegun (.inr (hsame rfl).symm)
  | doze c k => exact h.move hphase (by rw [hd]) hbegun (.inr (hsame rfl).symm)

theorem Ordered.step (h : Ordered s) {a : Event ι PipeCall Chan} (hs : Step pipeCode s a s') :
    Ordered s' := by
  rcases step_cases hs with ⟨p, r, -, hp, rfl, -⟩ | ⟨p, ph, ph', hp, hown, hphase, hbegun⟩ |
    ⟨p, c, k, hp, -, rfl, -⟩ | ⟨p, -, rfl, -⟩ | ⟨c, -, rfl, -⟩
  · exact h.called p r
  · exact h.own hp hown hphase hbegun
  · refine h.frame rfl rfl fun q => .inr ?_
    by_cases hq : q = p
    · subst hq
      simp only [State.setPhase, Function.update_self, hp]
      rfl
    · simp only [State.setPhase, Function.update_of_ne hq]
      exact congrArg (Option.bind · _) (Phase.spot_rouse c _)
  · refine h.frame rfl rfl fun q => .inr ?_
    by_cases hq : q = p
    · subst hq
      simp only [State.setPhase, Function.update_self, Phase.spot_stir]
    · simp only [State.setPhase, Function.update_of_ne hq]
  · exact h.frame rfl rfl fun q => .inr (congrArg (Option.bind · _) (Phase.spot_rouse c _))

/-- A pipe that has just been reset, with nothing gone through it. -/
def PipeReset (s : State ι PipeCall (Traffic ι) PipePoint Chan) : Prop :=
  s.Fresh ∧ ∃ page, s.data = ⟨Pipe.reset page, [], []⟩

omit [DecidableEq ι] in
theorem PipeReset.lossless (h : PipeReset s) : Lossless s.data := by
  obtain ⟨-, page, hd⟩ := h
  rw [hd]
  refine ⟨?_, ?_⟩
  · rw [Pipe.buffered_reset]
    rfl
  · rw [Pipe.count_reset]
    decide

theorem PipeReset.ordered (h : PipeReset s) : Ordered s := by
  obtain ⟨⟨-, -, hph, -⟩, page, hd⟩ := h
  refine ⟨fun p n => ?_, fun p n buf i hp => ?_⟩
  · rw [hd]
    exact List.nil_prefix
  · rw [hph p] at hp
    cases hp

/-- **A pipe is a lossless FIFO.** The bytes delivered, followed by the bytes
buffered, are the bytes accepted, in the order of acceptance; at most a page
is buffered; the bytes of a call are accepted in the order of its buffer; and
a read with room returns nothing only when the pipe is empty and its write
end closed. -/
theorem pipe_fifo (h : Reach PipeReset (Step pipeCode) s) :
    s.data.delivered ++ s.data.pipe.buffered = s.data.accepted.map Sent.byte ∧
    s.data.pipe.buffered.length = s.data.pipe.count ∧ s.data.pipe.count ≤ bsize ∧
    (∀ p n, sent s.data p n <+: bufOf (s.begun p) n) ∧
    (∀ p len, result pipeCode s (.run p) = some (p, .read len []) → 0 < len →
      s.data.pipe.isEmpty = true ∧ s.data.pipe.writeOpen = false) := by
  have hsound : Sound Lossless PipeAt WaitsFor PipeOwes s :=
    pipe_disciplined.sound (fun _ hs => ⟨hs.1, hs.lossless⟩) h
  have hord : Ordered s :=
    Reach.invariant (I := Ordered) (fun _ hs => hs.ordered) (fun _ _ _ hi hs => hi.step hs) h
  refine ⟨hsound.inv.fifo, Ring.length_content _ _ _, hsound.inv.bound, hord.sent, ?_⟩
  intro p len hr hlen
  obtain ⟨k, d, hk, hm⟩ := result_run hr
  have hA : PipeAt p k s.data := hsound.point p k (by rw [hk]; rfl)
  cases PipeMove.of_next hm with
  | readEnd len' got => exact hA.2 rfl hlen

end Code

/-- The pipe of two processes. -/
def twoEnds : State Bool PipeCall (Traffic Bool) PipePoint Chan :=
  ⟨⟨Pipe.reset fun _ => 0, [], []⟩, none, none, fun _ => .out, fun _ => false, fun _ => []⟩

theorem pipeReset_twoEnds : PipeReset twoEnds :=
  ⟨⟨rfl, rfl, fun _ => rfl, fun _ => rfl⟩, _, rfl⟩

/-- A write of two bytes and a read of one: the second is still buffered. -/
theorem pipe_fifo_two :
    ∃ s : State Bool PipeCall (Traffic Bool) PipePoint Chan,
      Reach PipeReset (Step pipeCode) s ∧ s.data.delivered = [7] ∧
      s.data.delivered ++ s.data.pipe.buffered = [7, 8] := by
  obtain ⟨s, hs, hdel, hacc⟩ : ∃ s : State Bool PipeCall (Traffic Bool) PipePoint Chan,
      replay (step pipeCode) twoEnds
        (.call false (.write [7, 8]) :: List.replicate 6 (.run false) ++
          .call true (.read 1) :: List.replicate 6 (.run true)) = some s ∧
      s.data.delivered = [7] ∧ s.data.accepted.map Sent.byte = [7, 8] := ⟨_, rfl, rfl, rfl⟩
  have hreach : Reach PipeReset (Step pipeCode) s :=
    Reach.replay (fun _ _ _ h => h) (.init pipeReset_twoEnds) hs
  exact ⟨s, hreach, hdel, (pipe_fifo hreach).1.trans hacc⟩

end Rxv64.Sync
