import Rxv64.Lib.Runs
import Rxv64.Fs.Write

/-!
# Fs.Shared — writers of one open file

Processes that have inherited an open `File` share its offset. Each call of
`Inode::write` reads the offset, writes a chunk there and advances the offset
while it holds the inode, and gives the inode up between two chunks. The
system here is made of such calls: any number of processes, one step of one
of them at a time, with what is done under the inode lock as one step.
-/

namespace Rxv64.Fs

open Layout Prog Runs

/-- The file system and `off` of the `File` that is shared. -/
structure Shared where
  fs : State
  off : UInt64

abbrev SharedM := Prog Env Shared

/-- Code of the inode layer. -/
def onFs {α : Type} (p : FsM α) : SharedM α := zoom Shared.fs (fun fs w => { w with fs }) p

/-- `File::inc_off`. -/
def incOff (inc : Nat) : SharedM Unit := do
  assert ((← gets Shared.off).toNat + inc < 2 ^ 64) "attempt to add with overflow"
  modify fun w => { w with off := w.off + UInt64.ofNat inc }

/-- `buf[i..i + n]` of a turn of the loop of `Inode::write`. -/
def chunk (buf : List UInt8) (i : Nat) : List UInt8 :=
  (buf.drop i).take (min (buf.length - i) maxChunk)

theorem length_chunk (buf : List UInt8) (i : Nat) :
    (chunk buf i).length = min (buf.length - i) maxChunk := by
  rw [chunk, List.length_take, List.length_drop]
  omega

/-- What a turn does under the inode lock. -/
def sharedTurn (e : Idx) (buf : List UInt8) (i : Nat) : SharedM Nat :=
  around (onFs (lock e)) (onFs (unlock e)) do
    let r ← onFs (writei e (chunk buf i) (← gets Shared.off))
    incOff r
    pure r

/-! ## The writers -/

/-- How far a call of `Inode::write` is: at the test of its loop, in an
operation, or with `r` bytes written and the operation still open. -/
inductive Phase where
  | head
  | begun
  | wrote (r : Nat)

/-- A call in progress. -/
structure WriteCall where
  buf : List UInt8
  i : Nat
  phase : Phase

/-- `chunks` is what has been written, in the order in which the inode was
locked, and `returned` the calls that are over with what they returned. -/
structure Writers where
  file : Shared
  calls : Pid → Option WriteCall
  chunks : List (Pid × List UInt8)
  returned : List (Pid × List UInt8 × Nat)

namespace Writers

def setCall (w : Writers) (p : Pid) (c : Option WriteCall) : Writers :=
  { w with calls := Function.update w.calls p c }

/-- Nobody writes yet. -/
def start (file : Shared) : Writers := ⟨file, fun _ => none, [], []⟩

/-- All that has been written, in lock order. -/
def written (w : Writers) : List UInt8 := (w.chunks.map Prod.snd).flatten

/-- The chunks of process `p`. -/
def chunksOf (w : Writers) (p : Pid) : List (List UInt8) :=
  (w.chunks.filter fun c => c.1 = p).map Prod.snd

/-- The buffers of the calls that process `p` has finished. -/
def buffersOf (w : Writers) (p : Pid) : List (List UInt8) :=
  (w.returned.filter fun c => c.1 = p).map fun c => c.2.1

end Writers

/-- Process `p` starts a call, or goes on with the one it is in. -/
inductive WriterAct where
  | call (p : Pid) (buf : List UInt8)
  | go (p : Pid)

/-- The next step of a call. One that cannot be taken now is no step: an
operation that has to wait for the log, and a `writei` that fails. -/
def WriteCall.go (env : Env) (e : Idx) (w : Writers) (p : Pid) (c : WriteCall) : Option Writers :=
  match c.phase with
  | .head =>
      if c.i < c.buf.length then
        (onFs opBegin { env with pid := p } w.file).result?.map fun o =>
          { w with file := o.2 }.setCall p (some { c with phase := .begun })
      else some ({ w with returned := w.returned ++ [(p, c.buf, c.i)] }.setCall p none)
  | .begun =>
      (sharedTurn e c.buf c.i { env with pid := p } w.file).result?.map fun o =>
        { w with file := o.2, chunks := w.chunks ++ [(p, chunk c.buf c.i)] }.setCall p
          (some { c with phase := .wrote o.1 })
  | .wrote r =>
      (onFs opEnd { env with pid := p } w.file).result?.map fun o =>
        { w with file := o.2 }.setCall p (some { c with i := c.i + r, phase := .head })

def Writers.next (env : Env) (e : Idx) (w : Writers) : WriterAct → Option Writers
  | .call p buf => if (w.calls p).isNone then some (w.setCall p (some ⟨buf, 0, .head⟩)) else none
  | .go p => (w.calls p).bind (WriteCall.go env e w p)

/-- The states that writers of entry `e` reach when the file is `file` at first. -/
abbrev Writers.Run (env : Env) (e : Idx) (file : Shared) : Writers → Prop :=
  Reach (fun w => w = Writers.start file) fun w a w' => w.next env e a = some w'

/-! ## One turn -/

variable {env : Env} {sb : Superblock} {e : Idx} {s s' : State} {f f' : Shared}

/-- An open file on the inode of entry `e`, which nobody has locked. -/
structure Opened (sb : Superblock) (e : Idx) (s : State) : Prop where
  core : Core sb s
  refCnt : 0 < (s.icache e).refCnt
  unlocked : (s.icache e).lock = none
  typed : Typed sb s (s.icache e).inum

/-- An operation that begins or ends does not touch the file. -/
theorem Opened.of_eq (h : Opened sb e s) (hb : s'.blocks = s.blocks) (hi : s'.icache = s.icache) :
    Opened sb e s' ∧ files sb s' = files sb s := by
  have hsame : Same sb s s' := Same.of_eq h.core hb hi
  refine ⟨⟨hsame.core, ?_, ?_, ?_⟩, hsame.files⟩
  · rw [hi]
    exact h.refCnt
  · rw [hi]
    exact h.unlocked
  · rw [hi]
    exact hsame.typed (h.core.range e h.refCnt) h.typed

theorem opBegin_frame (h : opBegin env s = .ok () s') :
    s'.blocks = s.blocks ∧ s'.icache = s.icache := by
  unfold opBegin at h
  split at h
  · cases h
  · cases h
    exact ⟨rfl, rfl⟩

theorem opEnd_frame (h : opEnd env s = .ok () s') :
    s'.blocks = s.blocks ∧ s'.icache = s.icache := by
  unfold opEnd Prog.modify at h
  obtain ⟨-, rfl⟩ := Outcome.ok.inj h
  exact ⟨rfl, rfl⟩

/-- The bytes of the file of entry `e`. -/
def contents (sb : Superblock) (e : Idx) (s : State) : List UInt8 :=
  (files sb s (s.icache e).inum).bytes

/-- `src` was written at the offset of the file, and the offset advanced. -/
structure Appended (sb : Superblock) (e : Idx) (src : List UInt8) (f f' : Shared) : Prop where
  opened : Opened sb e f'.fs
  inum : (f'.fs.icache e).inum = (f.fs.icache e).inum
  inside : f.off.toNat ≤ (contents sb e f.fs).length
  off : f'.off.toNat = f.off.toNat + src.length
  bytes : contents sb e f'.fs = (contents sb e f.fs).take f.off.toNat ++ src ++
    (contents sb e f.fs).drop (f.off.toNat + src.length)

theorem of_onFs_ok {α : Type} {p : FsM α} {a : α} (h : onFs p env f = .ok a f') :
    p env f.fs = .ok a f'.fs ∧ f'.off = f.off := by
  unfold onFs zoom at h
  cases hp : p env f.fs with
  | ok b s =>
      rw [hp] at h
      cases h
      exact ⟨rfl, rfl⟩
  | err m s =>
      rw [hp] at h
      cases h
  | panic m =>
      rw [hp] at h
      cases h
  | blocked =>
      rw [hp] at h
      cases h

theorem onFs_ok {α : Type} {p : FsM α} {a : α} (h : p env f.fs = .ok a s) :
    onFs p env f = .ok a { f with fs := s } := by
  unfold onFs zoom
  rw [h]

/-- The inode is given back after `writei` and `inc_off`. -/
theorem Written.appended {src : List UInt8} {s₁ : State} (h : Opened env.sb e f.fs)
    (hl : Locked env e f.fs s₁) (hw : Written env e s₁ f.off.toNat src s)
    (hoff : f.off ≤ (s₁.icache e).dinode.size)
    (hfit : f.off.toNat + src.length ≤ maxFile * bsize) :
    Appended env.sb e src f ⟨s.setInode e { s.icache e with lock := none },
      f.off + UInt64.ofNat src.length⟩ := by
  have hsame : Same env.sb s (s.setInode e { s.icache e with lock := none }) :=
    hw.core.unlock e none
  have hself : (s.setInode e { s.icache e with lock := none }).icache e =
      { s.icache e with lock := none } := by rw [icache_setInode, Function.update_self]
  have hle := UInt64.le_iff_toNat_le.mp hoff
  have hold : contents env.sb e s₁ = contents env.sb e f.fs := by
    unfold contents
    rw [hl.same.files, hl.inum]
  have hlive := hw.live hl.live
  refine ⟨⟨hsame.core, ?_, ?_, ?_⟩, ?_, ?_, ?_, ?_⟩
  · rw [hself]
    exact hlive.1
  · rw [hself]
  · rw [hself]
    refine hsame.typed (hw.core.range e hlive.1) (hw.typed hl.same.core hl.live ?_)
    rw [hl.inum]
    exact hl.same.typed (h.core.range e h.refCnt) h.typed
  · rw [hself]
    exact hw.inum.trans hl.inum
  · rw [← hold, contents, Node.length_bytes, size_files hl.same.core hl.live]
    exact hle
  · have h64 : maxFile * bsize < 2 ^ 64 := by decide
    have hlt : src.length < 2 ^ 64 := by omega
    have hlen : (UInt64.ofNat src.length).toNat = src.length := UInt64.toNat_ofNat_of_lt' hlt
    show (f.off + UInt64.ofNat src.length).toNat = _
    rw [UInt64.toNat_add, hlen, Nat.mod_eq_of_lt (by omega)]
  · rw [← hold]
    show contents env.sb e (s.setInode e { s.icache e with lock := none }) = _
    unfold contents
    rw [hself, hsame.files]
    show (Fs.files env.sb s (s.icache e).inum).bytes = _
    rw [hw.inum, hw.bytes hl.same.core hl.live hle hfit]

/-- **A turn under the lock.** -/
theorem sharedTurn_sat (h : Opened env.sb e f.fs) (buf : List UInt8) (i : Nat) :
    Sat (sharedTurn e buf i env f)
      (fun r f' => r = (chunk buf i).length ∧ Appended env.sb e (chunk buf i) f f')
      (fun _ _ => True) (fun _ => True) := by
  obtain ⟨src, hsrc⟩ : ∃ src, src = chunk buf i := ⟨_, rfl⟩
  unfold sharedTurn
  rw [← hsrc]
  have hlock : Sat (onFs (lock e) env f) (fun _ f₁ => Locked env e f.fs f₁.fs ∧ f₁.off = f.off)
      (fun _ _ => True) (fun _ => True) := by
    refine Sat.zoom ((lock_sat h.core h.refCnt h.unlocked h.typed).imp (fun _ _ h => h)
      (fun _ _ h => h) fun _ _ => True.intro) (fun _ _ hs => ⟨hs, rfl⟩) fun _ _ _ => True.intro
  have hbody : ∀ f₁, Locked env e f.fs f₁.fs ∧ f₁.off = f.off →
      Sat ((do
        let r ← onFs (writei e src (← gets Shared.off))
        incOff r
        pure r : SharedM Nat) env f₁)
      (fun r f₂ => r = src.length ∧ f₂.off = f.off + UInt64.ofNat src.length ∧
        ∃ s₁, Locked env e f.fs s₁ ∧ Written env e s₁ f.off.toNat src f₂.fs ∧
          f.off ≤ (s₁.icache e).dinode.size ∧ f.off.toNat + src.length ≤ maxFile * bsize)
      (fun _ _ => True) (fun _ => True) := by
    intro f₁ ⟨hs₁, hoff₁⟩
    refine Sat.gets ?_
    have hwrite := writei_sat hs₁.same.core hs₁.live hs₁.lock src f₁.off
    rw [hoff₁] at hwrite ⊢
    refine Sat.seq (Sat.zoom (hwrite.imp (fun _ _ h => h) (fun _ _ h => h) fun _ _ => True.intro)
      (R := fun r f₂ => f₂.off = f.off ∧ r = src.length ∧ Written env e f₁.fs f.off.toNat src f₂.fs ∧
        f.off ≤ (f₁.fs.icache e).dinode.size ∧ f.off.toNat + src.length ≤ maxFile * bsize)
      (fun r s₂ ⟨hr, hle, hfit, hw, _⟩ => ⟨hoff₁, hr, hw, hle, hfit⟩) fun _ _ _ => True.intro) ?_
    intro r f₂ ⟨hoff₂, hr, hw, hle, hfit⟩
    refine Sat.seq (Q := fun _ f₃ => f₃ = { f₂ with off := f.off + UInt64.ofNat src.length }) ?_ ?_
    · refine Sat.gets (Sat.assert (fun _ => True.intro) fun _ => Sat.last_modify ?_)
      rw [hoff₂, hr]
    · intro _ f₃ hf₃
      subst hf₃
      exact Sat.pure ⟨hr, rfl, f₁.fs, hs₁, hw, hle, hfit⟩
  refine Sat.around hlock hbody ?_ fun _ _ _ => Sat.trivial _
  intro r f₂ ⟨hr, hoff₂, s₁, hs₁, hw, hle, hfit⟩
  have hheld : (f₂.fs.icache e).lock = some env.pid := hw.lock.trans hs₁.lock
  refine ⟨?_⟩
  rw [onFs_ok (unlock_eq hheld (hw.live hs₁.live).1), hoff₂]
  exact ⟨hr, hw.appended h hs₁ hle hfit⟩

/-! ## Runs of the writers -/

/-- The bytes that a call has written. -/
def WriteCall.reached (c : WriteCall) : Nat :=
  match c.phase with
  | .wrote r => c.i + r
  | _ => c.i

/-- A call does not run past its buffer, and starts an operation only for
bytes that are left. -/
def WriteCall.Inside (c : WriteCall) : Prop :=
  match c.phase with
  | .head => c.i ≤ c.buf.length
  | .begun => c.i < c.buf.length
  | .wrote r => c.i + r ≤ c.buf.length

namespace Writers

variable {w : Writers} {p q : Pid} {c : Option WriteCall}

@[simp] theorem file_setCall : (w.setCall p c).file = w.file := rfl

@[simp] theorem chunks_setCall : (w.setCall p c).chunks = w.chunks := rfl

@[simp] theorem returned_setCall : (w.setCall p c).returned = w.returned := rfl

@[simp] theorem calls_setCall_self : (w.setCall p c).calls p = c := Function.update_self _ _ _

theorem calls_setCall_ne (h : q ≠ p) : (w.setCall p c).calls q = w.calls q :=
  Function.update_of_ne h _ _

/-- What process `p` has written is what it was told to write, in order. -/
structure Own (w : Writers) (p : Pid) : Prop where
  bytes : (w.chunksOf p).flatten =
    (w.buffersOf p).flatten ++ (w.calls p).elim [] fun c => c.buf.take c.reached
  inside : ∀ c, w.calls p = some c → c.Inside

/-- A step of process `p` is no step of another. -/
theorem Own.other {w' : Writers} (h : Own w q) (hq : q ≠ p) (hcalls : w'.calls q = w.calls q)
    (new : List (List UInt8)) (hc : w'.chunks = w.chunks ++ new.map fun b => (p, b))
    (ret : List (List UInt8 × Nat)) (hr : w'.returned = w.returned ++ ret.map fun b => (p, b)) :
    Own w' q := by
  have hchunks : w'.chunksOf q = w.chunksOf q := by
    simp [chunksOf, hc, List.filter_map, Function.comp_def, Ne.symm hq]
  have hbufs : w'.buffersOf q = w.buffersOf q := by
    simp [buffersOf, hr, List.filter_map, Function.comp_def, Ne.symm hq]
  refine ⟨?_, ?_⟩
  · rw [hchunks, hbufs, hcalls]
    exact h.bytes
  · rw [hcalls]
    exact h.inside

end Writers

/-- Laying more bytes over a list, right behind those laid over it before. -/
theorem overlay_append {old l src : List UInt8} {o : Nat}
    (h : o + l.length ≤ (old.take o ++ l ++ old.drop (o + l.length)).length) :
    (old.take o ++ l ++ old.drop (o + l.length)).take (o + l.length) ++ src ++
      (old.take o ++ l ++ old.drop (o + l.length)).drop (o + l.length + src.length) =
    old.take o ++ (l ++ src) ++ old.drop (o + (l ++ src).length) := by
  have hfront : (old.take o ++ l).length = o + l.length := by
    simp only [List.length_append, List.length_take, List.length_drop] at h ⊢
    omega
  have hback : (old.take o ++ l ++ old.drop (o + l.length)).drop (o + l.length + src.length) =
      old.drop (o + l.length + src.length) := by
    rw [List.drop_append, List.drop_of_length_le (by omega), hfront, Nat.add_sub_cancel_left,
      List.drop_drop, List.nil_append]
  rw [List.take_left' hfront, hback, List.length_append, ← Nat.add_assoc,
    List.append_assoc _ l src]

/-- What holds between two steps. `f` is the file at first. -/
structure Writing (sb : Superblock) (e : Idx) (f : Shared) (w : Writers) : Prop where
  opened : Opened sb e w.file.fs
  inum : (w.file.fs.icache e).inum = (f.fs.icache e).inum
  off : w.file.off.toNat = f.off.toNat + w.written.length
  bytes : contents sb e w.file.fs = (contents sb e f.fs).take f.off.toNat ++ w.written ++
    (contents sb e f.fs).drop (f.off.toNat + w.written.length)
  own : ∀ p, w.Own p
  returned : ∀ c ∈ w.returned, c.2.2 = c.2.1.length
  chunks : ∀ c ∈ w.chunks, c.2 ≠ []

namespace Writing

variable {w : Writers} {p : Pid}

theorem start (h : Opened sb e f.fs) : Writing sb e f (Writers.start f) where
  opened := h
  inum := rfl
  off := rfl
  bytes := by simp [Writers.start, Writers.written]
  own := fun _ => ⟨rfl, fun _ hc => nomatch hc⟩
  returned := fun _ hc => nomatch hc
  chunks := fun _ hc => nomatch hc

/-- A step of process `p` that writes nothing and returns nothing. -/
theorem move (h : Writing sb e f w) {g : Shared} {c : WriteCall} (hopen : Opened sb e g.fs)
    (hfiles : files sb g.fs = files sb w.file.fs)
    (hinum : (g.fs.icache e).inum = (w.file.fs.icache e).inum) (hoff : g.off = w.file.off)
    (hcall : c.buf.take c.reached = (w.calls p).elim [] fun c => c.buf.take c.reached)
    (hle : c.Inside) :
    Writing sb e f (({ w with file := g } : Writers).setCall p (some c)) where
  opened := hopen
  inum := hinum.trans h.inum
  off := by
    rw [Writers.file_setCall, hoff]
    exact h.off
  bytes := by
    rw [Writers.file_setCall, contents, hfiles, hinum]
    exact h.bytes
  own := by
    intro q
    by_cases hq : q = p
    · subst hq
      refine ⟨?_, ?_⟩
      · rw [Writers.calls_setCall_self]
        show _ = _ ++ c.buf.take c.reached
        rw [hcall]
        exact (h.own q).bytes
      · rw [Writers.calls_setCall_self]
        rintro _ ⟨⟩
        exact hle
    · exact (h.own q).other hq (Writers.calls_setCall_ne hq) [] (by simp) [] (by simp)
  returned := h.returned
  chunks := h.chunks

/-- Process `p` returns from its call. -/
theorem leave (h : Writing sb e f w) {c : WriteCall} (hc : w.calls p = some c)
    (hall : c.reached = c.i) (hend : c.i = c.buf.length) :
    Writing sb e f (({ w with returned := w.returned ++ [(p, c.buf, c.i)] } : Writers).setCall p
      none) where
  opened := h.opened
  inum := h.inum
  off := h.off
  bytes := h.bytes
  own := by
    intro q
    by_cases hq : q = p
    · subst hq
      refine ⟨?_, ?_⟩
      · have hown := (h.own q).bytes
        rw [hc] at hown
        rw [Writers.calls_setCall_self]
        have hbuf : c.buf.take c.reached = c.buf := List.take_of_length_le (by omega)
        simpa [Writers.chunksOf, Writers.buffersOf, hbuf] using hown
      · rw [Writers.calls_setCall_self]
        exact fun _ hc => nomatch hc
    · exact (h.own q).other hq (Writers.calls_setCall_ne hq) [] (by simp)
        [(c.buf, c.i)] (by simp)
  returned := by
    intro d hd
    obtain hd | hd := List.mem_append.mp hd
    · exact h.returned d hd
    · rw [List.mem_singleton.mp hd]
      exact hend
  chunks := h.chunks

/-- Process `p` has written the next chunk of its buffer. -/
theorem append (h : Writing sb e f w) {g : Shared} {c : WriteCall} (hc : w.calls p = some c)
    (hall : c.reached = c.i) (hlt : c.i < c.buf.length)
    (ha : Appended sb e (chunk c.buf c.i) w.file g) :
    Writing sb e f (({ w with file := g, chunks := w.chunks ++ [(p, chunk c.buf c.i)] } :
      Writers).setCall p (some { c with phase := .wrote (chunk c.buf c.i).length })) := by
  have hbytes := ha.bytes
  have hinside := ha.inside
  rw [h.bytes, h.off] at hbytes hinside
  rw [overlay_append hinside] at hbytes
  have hwritten : (({ w with file := g, chunks := w.chunks ++ [(p, chunk c.buf c.i)] } :
      Writers).setCall p (some { c with phase := .wrote (chunk c.buf c.i).length })).written =
      w.written ++ chunk c.buf c.i := by
    simp [Writers.written]
  refine ⟨ha.opened, ha.inum.trans h.inum, ?_, ?_, fun q => ?_, h.returned, fun d hd => ?_⟩
  · rw [hwritten, List.length_append, ← Nat.add_assoc, ← h.off]
    exact ha.off
  · rw [hwritten]
    exact hbytes
  · by_cases hq : q = p
    · subst hq
      have hreach := (h.own q).bytes
      rw [hc] at hreach
      have htake : c.buf.take (c.i + (chunk c.buf c.i).length) =
          c.buf.take c.i ++ chunk c.buf c.i := by
        rw [List.take_add, length_chunk]
        rfl
      refine ⟨?_, ?_⟩
      · rw [Writers.calls_setCall_self]
        show _ = _ ++ c.buf.take (c.i + (chunk c.buf c.i).length)
        rw [htake]
        have hreach' : (w.chunksOf q).flatten = (w.buffersOf q).flatten ++ c.buf.take c.i := by
          rw [← hall]
          exact hreach
        simpa [Writers.chunksOf, Writers.buffersOf] using congrArg (· ++ chunk c.buf c.i) hreach'
      · rw [Writers.calls_setCall_self]
        rintro _ ⟨⟩
        show c.i + (chunk c.buf c.i).length ≤ c.buf.length
        rw [length_chunk]
        omega
    · exact (h.own q).other hq (Writers.calls_setCall_ne hq) [chunk c.buf c.i] (by simp)
        [] (by simp)
  · obtain hd | hd := List.mem_append.mp hd
    · exact h.chunks d hd
    · rw [List.mem_singleton.mp hd]
      intro hnil
      have hlen := length_chunk c.buf c.i
      rw [show chunk c.buf c.i = [] from hnil] at hlen
      simp only [List.length_nil, maxChunk, maxOpBlocks, bsize] at hlen
      omega

end Writing

/-- **One step of the writers.** -/
theorem Writers.next_keeps {w w' : Writers} {a : WriterAct} (h : Writing env.sb e f w)
    (hn : w.next env e a = some w') : Writing env.sb e f w' := by
  cases a with
  | call p buf =>
      unfold Writers.next at hn
      dsimp only at hn
      split at hn
      case isTrue hidle =>
        cases hn
        have hnone : w.calls p = none := Option.isNone_iff_eq_none.mp hidle
        refine h.move (g := w.file) h.opened rfl rfl rfl ?_ (Nat.zero_le _)
        rw [hnone]
        rfl
      case isFalse => cases hn
  | go p =>
      obtain ⟨c, hc, hgo⟩ := Option.bind_eq_some_iff.mp hn
      have hinside := (h.own p).inside c hc
      unfold WriteCall.go at hgo
      cases hphase : c.phase with
      | head =>
          have hall : c.reached = c.i := by rw [WriteCall.reached, hphase]
          rw [WriteCall.Inside, hphase] at hinside
          rw [hphase] at hgo
          dsimp only at hgo hinside
          split at hgo
          case isTrue hlt =>
            obtain ⟨⟨u, g⟩, hrun, hw'⟩ := Option.map_eq_some_iff.mp hgo
            subst hw'
            obtain ⟨hbegin, hoff⟩ := of_onFs_ok (Outcome.result?_eq_some.mp hrun)
            obtain ⟨hb, hi⟩ := opBegin_frame hbegin
            obtain ⟨hopen, hfiles⟩ := h.opened.of_eq hb hi
            refine h.move hopen hfiles (by rw [hi]) hoff ?_ hlt
            rw [hc, Option.elim_some, hall]
            rfl
          case isFalse hend =>
            cases hgo
            exact h.leave hc hall (by omega)
      | begun =>
          have hall : c.reached = c.i := by rw [WriteCall.reached, hphase]
          rw [WriteCall.Inside, hphase] at hinside
          rw [hphase] at hgo
          obtain ⟨⟨r, g⟩, hrun, hw'⟩ := Option.map_eq_some_iff.mp hgo
          subst hw'
          have hopen : Opened ({ env with pid := p } : Env).sb e w.file.fs := h.opened
          have hturn := sharedTurn_sat hopen c.buf c.i
          obtain ⟨rfl, ha⟩ := hturn.of_ok (Outcome.result?_eq_some.mp hrun)
          exact h.append hc hall hinside ha
      | wrote r =>
          rw [WriteCall.Inside, hphase] at hinside
          rw [hphase] at hgo
          obtain ⟨⟨u, g⟩, hrun, hw'⟩ := Option.map_eq_some_iff.mp hgo
          subst hw'
          obtain ⟨hend, hoff⟩ := of_onFs_ok (Outcome.result?_eq_some.mp hrun)
          obtain ⟨hb, hi⟩ := opEnd_frame hend
          obtain ⟨hopen, hfiles⟩ := h.opened.of_eq hb hi
          refine h.move hopen hfiles (by rw [hi]) hoff ?_ hinside
          rw [hc, Option.elim_some, WriteCall.reached, WriteCall.reached, hphase]

/-- **Writes through one offset do not overwrite each other.** Whatever the
order in which the writers lock the inode: from the first offset on the file
holds the chunks in that order and beyond them what it held before, the offset
has advanced by their length, the chunks of each process make up its buffers
as far as it has got, none of them is empty, and every call that is over has
returned the length of its buffer. -/
theorem shared_writes_append (h : Opened env.sb e f.fs) {w : Writers}
    (hr : Writers.Run env e f w) :
    contents env.sb e w.file.fs = (contents env.sb e f.fs).take f.off.toNat ++ w.written ++
      (contents env.sb e f.fs).drop (f.off.toNat + w.written.length) ∧
    w.file.off.toNat = f.off.toNat + w.written.length ∧
    (∀ p, (w.chunksOf p).flatten =
      (w.buffersOf p).flatten ++ (w.calls p).elim [] fun c => c.buf.take c.reached) ∧
    (∀ c ∈ w.chunks, c.2 ≠ []) ∧
    ∀ c ∈ w.returned, c.2.2 = c.2.1.length := by
  have hw : Writing env.sb e f w := by
    refine hr.invariant (fun _ hs => ?_) fun _ _ _ hi hs => Writers.next_keeps hi hs
    subst hs
    exact Writing.start h
  exact ⟨hw.bytes, hw.off, fun p => (hw.own p).bytes, hw.chunks, hw.returned⟩

/-- Processes 1 and 2 write at the end of the file of three bytes. -/
def OneFile.acts : List WriterAct :=
  [.call 1 [7], .call 2 [8, 9], .go 2, .go 1, .go 2, .go 1, .go 1, .go 2, .go 2, .go 1]

theorem shared_writes_one_file : ∃ w,
    Writers.Run (Orphan.env true) OneFile.entry ⟨OneFile.unlocked, 3⟩ w ∧
    w.chunks = [(2, [8, 9]), (1, [7])] ∧
    contents OneFile.sb OneFile.entry w.file.fs = [0, 0, 0, 8, 9, 7] := by
  have hrun : ((replay (Writers.next (Orphan.env true) OneFile.entry)
      (Writers.start ⟨OneFile.unlocked, 3⟩) OneFile.acts).map Writers.chunks) =
      some [(2, [8, 9]), (1, [7])] := by decide +kernel
  obtain ⟨w, hw, hchunks⟩ := Option.map_eq_some_iff.mp hrun
  have hr : Writers.Run (Orphan.env true) OneFile.entry ⟨OneFile.unlocked, 3⟩ w :=
    Reach.replay (fun _ _ _ h => h) (.init rfl) hw
  have hready := OneFile.ready
  have hall := (shared_writes_append
    ⟨hready.core, hready.refCnt, hready.unlocked, hready.typed⟩ hr).1
  have hold : contents OneFile.sb OneFile.entry OneFile.unlocked = [0, 0, 0] := by decide +kernel
  refine ⟨w, hr, hchunks, ?_⟩
  refine hall.trans ?_
  rw [Writers.written, hchunks]
  show (contents OneFile.sb OneFile.entry OneFile.unlocked).take 3 ++ [8, 9, 7] ++
    (contents OneFile.sb OneFile.entry OneFile.unlocked).drop 6 = _
  rw [hold]
  rfl

end Rxv64.Fs
