import Mathlib.Data.Finset.Card
import Rxv64.Lib.Runs
import Rxv64.Fslog.Log

/-!
# Fslog.Protocol — operations, logged writes and the commit

The transaction protocol of `kernel/src/fslog.rs` as a step function over
any number of processes. A step is one section under the log lock
(`op::begin`'s loop body, `op::end`, `fslog::write`) or one unlocked piece
of `op::commit`; pieces of different processes interleave freely. The log
itself is not under the lock, so the commit reads it live.

`Hist` holds history variables that no step reads: what each open
operation has logged, which operations have ended, and what each commit
wrote home.
-/

namespace Rxv64.Fslog

open Runs

abbrev Pid := Nat

/-- Where a process is inside `op::commit`, together with the lock-protected
reset that `op::end` does after it. -/
inductive Phase where
  | start
  | sync (tail : Nat)
  | header
  | install (tail : Nat)
  | clear
  | headerEmpty
  | done
  deriving DecidableEq

inductive Pc where
  | idle
  | begin
  | inOp
  | commit (phase : Phase)
  deriving DecidableEq

/-- An operation that has ended: what it logged, and how many commits had
started when it began and when it ended. -/
structure OpRecord where
  blocks : List UInt64
  began : Nat
  ended : Nat

structure Hist where
  logged : Pid → List UInt64
  began : Pid → Nat
  started : Nat
  installing : List UInt64
  finished : List (List UInt64)
  ended : List OpRecord

structure Sys where
  state : LogState
  log : Log
  pc : Pid → Pc
  hist : Hist

inductive Act where
  | begin
  | tryBegin
  | write (blockno : UInt64)
  | endOp
  | commit

def Sys.setPc (s : Sys) (p : Pid) (pc : Pc) : Sys :=
  { s with pc := Function.update s.pc p pc }

/-- `op::begin` admits one more operation: no commit is running and every
outstanding reservation fits. -/
def admits (state : LogState) (log : Log) : Bool :=
  !state.committing && decide (log.len + (state.outstanding + 1) * maxOpBlocks ≤ logSize)

/-- The loop body of `op::begin`: admitted, or back to sleep. -/
def tryBegin (s : Sys) (p : Pid) : Sys :=
  if admits s.state s.log then
    { s with
      state := { s.state with outstanding := s.state.outstanding + 1 }
      pc := Function.update s.pc p .inOp
      hist := { s.hist with
        logged := Function.update s.hist.logged p []
        began := Function.update s.hist.began p s.hist.started } }
  else s

/-- `fslog::write` by a process inside an operation. -/
def logWrite (s : Sys) (p : Pid) (blockno : UInt64) : Except String Sys :=
  match write s.state s.log blockno with
  | .error e => .error e
  | .ok log => .ok { s with
      log
      hist := { s.hist with
        logged := Function.update s.hist.logged p (blockno :: s.hist.logged p) } }

/-- The operation of `p` as the history records it when it ends. -/
def Hist.record (h : Hist) (p : Pid) : OpRecord := ⟨h.logged p, h.began p, h.started⟩

/-- The locked section of `op::end`; the last operation out starts the
commit. -/
def endOp (s : Sys) (p : Pid) : Except String Sys :=
  if s.state.committing then .error "op end during commit"
  else if s.state.outstanding = 0 then .error "attempt to subtract with overflow"
  else if s.state.outstanding - 1 = 0 then
    .ok { s with
      state := ⟨0, true⟩
      pc := Function.update s.pc p (.commit .start)
      hist := { s.hist with
        started := s.hist.started + 1
        installing := []
        ended := s.hist.record p :: s.hist.ended } }
  else
    .ok { s with
      state := { s.state with outstanding := s.state.outstanding - 1 }
      pc := Function.update s.pc p .idle
      hist := { s.hist with ended := s.hist.record p :: s.hist.ended } }

/-- One piece of `op::commit`, and the reset after it. -/
def commitStep (s : Sys) (p : Pid) : Phase → Sys
  | .start => s.setPc p (.commit (if s.log.isEmpty then .done else .sync 0))
  | .sync tail =>
      s.setPc p (.commit (if tail < s.log.len then .sync (tail + 1) else .header))
  | .header => s.setPc p (.commit (.install 0))
  | .install tail =>
      match s.log.header[tail]? with
      | some blockno =>
          { s.setPc p (.commit (.install (tail + 1))) with
            hist := { s.hist with installing := blockno :: s.hist.installing } }
      | none => s.setPc p (.commit .clear)
  | .clear => { s.setPc p (.commit .headerEmpty) with log := s.log.clear }
  | .headerEmpty => s.setPc p (.commit .done)
  | .done =>
      { s.setPc p .idle with
        state := { s.state with committing := false }
        hist := { s.hist with finished := s.hist.finished ++ [s.hist.installing] } }

/-- One step of process `p`; `none` when `p` is not in the place for it. -/
def step (s : Sys) (p : Pid) (a : Act) : Option (Except String Sys) :=
  match a, s.pc p with
  | .begin, .idle => some (.ok (s.setPc p .begin))
  | .tryBegin, .begin => some (.ok (tryBegin s p))
  | .write b, .inOp => some (logWrite s p b)
  | .endOp, .inOp => some (endOp s p)
  | .commit, .commit ph => some (.ok (commitStep s p ph))
  | _, _ => none

/-- The step relation: the steps that do not panic. -/
def Step (s : Sys) (l : Pid × Act) (s' : Sys) : Prop := step s l.1 l.2 = some (.ok s')

def Hist.empty : Hist := ⟨fun _ => [], fun _ => 0, 0, [], [], []⟩

/-- After `fslog::init`: the log area is set up and the log is empty. -/
structure Init (s : Sys) : Prop where
  state : s.state = ⟨0, false⟩
  log : s.log.header = []
  pc : ∀ p, s.pc p = .idle
  hist : s.hist = Hist.empty

def Reachable : Sys → Prop := Reach Init Step

/-! ## What a step can do -/

theorem step_cases {s s' : Sys} {p : Pid} {a : Act} (h : step s p a = some (.ok s')) :
    (a = .begin ∧ s.pc p = .idle ∧ s' = s.setPc p .begin) ∨
    (a = .tryBegin ∧ s.pc p = .begin ∧ s' = tryBegin s p) ∨
    (∃ b, a = .write b ∧ s.pc p = .inOp ∧ logWrite s p b = .ok s') ∨
    (a = .endOp ∧ s.pc p = .inOp ∧ endOp s p = .ok s') ∨
    (∃ ph, a = .commit ∧ s.pc p = .commit ph ∧ s' = commitStep s p ph) := by
  unfold step at h
  split at h
  · next hpc => cases h; exact .inl ⟨rfl, hpc, rfl⟩
  · next hpc => cases h; exact .inr (.inl ⟨rfl, hpc, rfl⟩)
  · next b hpc =>
      exact .inr (.inr (.inl ⟨b, rfl, hpc, Option.some.inj h⟩))
  · next hpc =>
      exact .inr (.inr (.inr (.inl ⟨rfl, hpc, Option.some.inj h⟩)))
  · next ph hpc => cases h; exact .inr (.inr (.inr (.inr ⟨ph, rfl, hpc, rfl⟩)))
  · cases h

theorem logWrite_cases {s s' : Sys} {p : Pid} {b : UInt64} (h : logWrite s p b = .ok s') :
    ∃ log, write s.state s.log b = .ok log ∧
      s' = { s with
        log
        hist := { s.hist with
          logged := Function.update s.hist.logged p (b :: s.hist.logged p) } } := by
  unfold logWrite at h
  split at h
  · cases h
  · next log hw => cases h; exact ⟨log, hw, rfl⟩

theorem endOp_cases {s s' : Sys} {p : Pid} (h : endOp s p = .ok s') :
    s.state.committing = false ∧
      ((s.state.outstanding = 1 ∧
        s' = { s with
          state := ⟨0, true⟩
          pc := Function.update s.pc p (.commit .start)
          hist := { s.hist with
            started := s.hist.started + 1
            installing := []
            ended := s.hist.record p :: s.hist.ended } }) ∨
      (2 ≤ s.state.outstanding ∧
        s' = { s with
          state := { s.state with outstanding := s.state.outstanding - 1 }
          pc := Function.update s.pc p .idle
          hist := { s.hist with ended := s.hist.record p :: s.hist.ended } })) := by
  unfold endOp at h
  split at h
  · cases h
  · next hc =>
      have hc' : s.state.committing = false := by simpa using hc
      split at h
      · cases h
      · split at h
        · cases h
          exact ⟨hc', .inl ⟨by omega, rfl⟩⟩
        · cases h
          exact ⟨hc', .inr ⟨by omega, rfl⟩⟩

/-! ## Exclusion -/

/-- The protocol's exclusion invariant, with the set of processes inside an
operation. -/
structure Excl (ops : Finset Pid) (s : Sys) : Prop where
  mem : ∀ p, p ∈ ops ↔ s.pc p = .inOp
  card : ops.card = s.state.outstanding
  quiet : s.state.committing = true → s.state.outstanding = 0
  running : ∀ p ph, s.pc p = .commit ph → s.state.committing = true
  unique : ∀ p q ph ph', s.pc p = .commit ph → s.pc q = .commit ph' → p = q

theorem Excl.init {s : Sys} (h : Init s) : Excl ∅ s where
  mem p := by simp [h.pc p]
  card := by simp [h.state]
  quiet := by simp [h.state]
  running p ph hp := by simp [h.pc p] at hp
  unique p q ph ph' hp := by simp [h.pc p] at hp

/-- A process inside an operation keeps every commit away. -/
theorem Excl.inOp {ops : Finset Pid} {s : Sys} (h : Excl ops s) {p : Pid}
    (hp : s.pc p = .inOp) :
    1 ≤ s.state.outstanding ∧ s.state.committing = false ∧
      ∀ q ph, s.pc q ≠ .commit ph := by
  have hpos : 1 ≤ s.state.outstanding := by
    rw [← h.card]
    exact Finset.card_pos.mpr ⟨p, (h.mem p).mpr hp⟩
  have hc : s.state.committing = false := by
    by_contra hc
    have := h.quiet (by simpa using hc)
    omega
  exact ⟨hpos, hc, fun q ph hq => by simp [h.running q ph hq] at hc⟩

/-- Moving a process between two places that are neither inside an operation
nor changes who commits. -/
theorem Excl.move {ops : Finset Pid} {s s' : Sys} (h : Excl ops s) {p : Pid} {pc : Pc}
    (hpc : s'.pc = Function.update s.pc p pc) (hst : s'.state = s.state)
    (hold : s.pc p ≠ .inOp) (hnew : pc ≠ .inOp)
    (hcommit : ∀ ph, pc = .commit ph → ∃ ph', s.pc p = .commit ph') : Excl ops s' := by
  have hback : ∀ q ph, s'.pc q = .commit ph → ∃ ph', s.pc q = .commit ph' := by
    intro q ph hq
    rw [hpc] at hq
    by_cases hqp : q = p
    · subst hqp
      rw [Function.update_self] at hq
      exact hcommit ph hq
    · rw [Function.update_of_ne hqp] at hq
      exact ⟨ph, hq⟩
  refine ⟨fun q => ?_, by rw [hst]; exact h.card, by rw [hst]; exact h.quiet, ?_, ?_⟩
  · rw [h.mem q, hpc]
    by_cases hqp : q = p
    · subst hqp
      simp [hold, hnew]
    · rw [Function.update_of_ne hqp]
  · intro q ph hq
    obtain ⟨ph', hq'⟩ := hback q ph hq
    rw [hst]
    exact h.running q ph' hq'
  · intro q r ph ph' hq hr
    obtain ⟨_, hq'⟩ := hback q ph hq
    obtain ⟨_, hr'⟩ := hback r ph' hr
    exact h.unique q r _ _ hq' hr'

theorem Excl.tryBegin {ops : Finset Pid} {s : Sys} (h : Excl ops s) {p : Pid}
    (hp : s.pc p = .begin) : ∃ ops', Excl ops' (tryBegin s p) := by
  unfold Fslog.tryBegin
  split
  · next hadm =>
      have hc : s.state.committing = false := by
        simp only [admits, Bool.and_eq_true, Bool.not_eq_true'] at hadm
        exact hadm.1
      have hnone : ∀ q ph, s.pc q ≠ .commit ph := fun q ph hq => by
        simp [h.running q ph hq] at hc
      have hnew : ∀ q ph, Function.update s.pc p .inOp q ≠ .commit ph := by
        intro q ph hq
        by_cases hqp : q = p
        · subst hqp
          simp at hq
        · rw [Function.update_of_ne hqp] at hq
          exact hnone q ph hq
      have hpn : p ∉ ops := by rw [h.mem p, hp]; simp
      refine ⟨insert p ops, fun q => ?_, ?_, fun hc' => ?_, fun q ph hq => ?_,
        fun q r ph ph' hq => ?_⟩
      · rw [Finset.mem_insert, h.mem q]
        by_cases hqp : q = p
        · subst hqp
          simp
        · simp [hqp]
      · rw [Finset.card_insert_of_notMem hpn, h.card]
      · simp [hc] at hc'
      · exact absurd hq (hnew q ph)
      · exact absurd hq (hnew q ph)
  · exact ⟨ops, h⟩

theorem Excl.endOp {ops : Finset Pid} {s s' : Sys} (h : Excl ops s) {p : Pid}
    (hp : s.pc p = .inOp) (hend : endOp s p = .ok s') : Excl (ops.erase p) s' := by
  obtain ⟨hpos, hc, hnone⟩ := h.inOp hp
  have hpm : p ∈ ops := (h.mem p).mpr hp
  have hcard : (ops.erase p).card = s.state.outstanding - 1 := by
    rw [Finset.card_erase_of_mem hpm, h.card]
  have hmem : ∀ pc, pc ≠ Pc.inOp → ∀ q,
      q ∈ ops.erase p ↔ Function.update s.pc p pc q = .inOp := by
    intro pc hpc q
    rw [Finset.mem_erase, h.mem q]
    by_cases hqp : q = p
    · subst hqp
      simp [hpc]
    · simp [hqp]
  obtain ⟨-, ⟨hone, rfl⟩ | ⟨htwo, rfl⟩⟩ := endOp_cases hend
  · -- the last one out: it alone is inside the commit
    have honly : ∀ q ph, Function.update s.pc p (.commit .start) q = .commit ph → q = p := by
      intro q ph hq
      by_contra hqp
      rw [Function.update_of_ne hqp] at hq
      exact hnone q ph hq
    refine ⟨hmem _ (by simp), by rw [hcard, hone], fun _ => rfl, fun _ _ _ => rfl, ?_⟩
    intro q r ph ph' hq hr
    rw [honly q ph hq, honly r ph' hr]
  · have hno : ∀ q ph, Function.update s.pc p .idle q ≠ .commit ph := by
      intro q ph hq
      by_cases hqp : q = p
      · subst hqp
        simp at hq
      · rw [Function.update_of_ne hqp] at hq
        exact hnone q ph hq
    refine ⟨hmem _ (by simp), hcard, fun hc' => ?_, fun q ph hq => absurd hq (hno q ph),
      fun q r ph ph' hq => absurd hq (hno q ph)⟩
    simp [hc] at hc'

theorem Excl.commitStep {ops : Finset Pid} {s : Sys} (h : Excl ops s) {p : Pid} {ph : Phase}
    (hp : s.pc p = .commit ph) : Excl ops (commitStep s p ph) := by
  have hold : s.pc p ≠ .inOp := by simp [hp]
  have hmove : ∀ {s' : Sys} {ph' : Phase},
      s'.pc = Function.update s.pc p (.commit ph') → s'.state = s.state → Excl ops s' :=
    fun hpc hst => h.move hpc hst hold (by simp) (fun _ _ => ⟨ph, hp⟩)
  cases ph with
  | start => exact hmove rfl rfl
  | sync tail => exact hmove rfl rfl
  | header => exact hmove rfl rfl
  | install tail =>
      simp only [Fslog.commitStep]
      split
      · exact hmove rfl rfl
      · exact hmove rfl rfl
  | clear => exact hmove rfl rfl
  | headerEmpty => exact hmove rfl rfl
  | done =>
      have hno : ∀ q ph', Function.update s.pc p .idle q ≠ .commit ph' := by
        intro q ph' hq
        by_cases hqp : q = p
        · subst hqp
          simp at hq
        · rw [Function.update_of_ne hqp] at hq
          exact hqp (h.unique q p _ _ hq hp)
      refine ⟨fun q => ?_, h.card, fun hc => by simp [Fslog.commitStep] at hc,
        fun q ph' hq => absurd hq (hno q ph'), fun q r ph' ph'' hq => absurd hq (hno q ph')⟩
      rw [h.mem q]
      show _ ↔ Function.update s.pc p .idle q = .inOp
      by_cases hqp : q = p
      · subst hqp
        simp [hold]
      · rw [Function.update_of_ne hqp]

theorem Excl.step {ops : Finset Pid} {s s' : Sys} (h : Excl ops s) {p : Pid} {a : Act}
    (hs : step s p a = some (.ok s')) : ∃ ops', Excl ops' s' := by
  rcases step_cases hs with ⟨-, hp, rfl⟩ | ⟨-, hp, rfl⟩ | ⟨b, -, hp, hw⟩ | ⟨-, hp, hend⟩ |
    ⟨ph, -, hp, rfl⟩
  · exact ⟨ops, h.move rfl rfl (by simp [hp]) (by simp) (by simp)⟩
  · exact h.tryBegin hp
  · obtain ⟨log, -, rfl⟩ := logWrite_cases hw
    exact ⟨ops, h.mem, h.card, h.quiet, h.running, h.unique⟩
  · exact ⟨_, h.endOp hp hend⟩
  · exact ⟨ops, h.commitStep hp⟩

/-! ## Grouping -/

/-- Where the commit's block list is found while the commit is in phase
`ph`: in the header until that is cleared, in the history after it. -/
def CommitList (s : Sys) : Phase → List UInt64
  | .headerEmpty | .done => s.hist.installing
  | _ => s.log.header

/-- The history invariant. Commits are numbered in the order they start; an
operation belongs to the first commit that starts after its end. -/
structure Grouped (s : Sys) : Prop where
  opened : ∀ p, s.pc p = .inOp →
    s.hist.began p = s.hist.started ∧ ∀ b ∈ s.hist.logged p, b ∈ s.log.header
  resting : s.state.committing = false → s.hist.finished.length = s.hist.started
  busy : s.state.committing = true →
    s.hist.finished.length + 1 = s.hist.started ∧ ∀ o ∈ s.hist.ended, o.ended < s.hist.started
  together : ∀ o ∈ s.hist.ended, o.began = o.ended ∧ o.ended ≤ s.hist.started
  waiting : ∀ o ∈ s.hist.ended, o.ended = s.hist.started →
    ∀ b ∈ o.blocks, b ∈ s.log.header
  current : ∀ p ph, s.pc p = .commit ph → ∀ o ∈ s.hist.ended,
    o.ended + 1 = s.hist.started → ∀ b ∈ o.blocks, b ∈ CommitList s ph
  written : ∀ o ∈ s.hist.ended, ∀ c, s.hist.finished[o.ended]? = some c →
    ∀ b ∈ o.blocks, b ∈ c
  installed : ∀ p tail, s.pc p = .commit (.install tail) →
    ∀ i b, i < tail → s.log.header[i]? = some b → b ∈ s.hist.installing
  complete : ∀ p, s.pc p = .commit .clear → ∀ b ∈ s.log.header, b ∈ s.hist.installing

theorem Grouped.init {s : Sys} (h : Init s) : Grouped s := by
  constructor <;> simp [h.pc, h.state, h.hist, Hist.empty]

theorem Grouped.setPc {s : Sys} (h : Grouped s) {p : Pid} {pc : Pc} (hnot : pc ≠ .inOp)
    (hcur : ∀ ph, pc = .commit ph → ∀ o ∈ s.hist.ended, o.ended + 1 = s.hist.started →
      ∀ b ∈ o.blocks, b ∈ CommitList s ph)
    (hinst : ∀ tail, pc = .commit (.install tail) →
      ∀ i b, i < tail → s.log.header[i]? = some b → b ∈ s.hist.installing)
    (hcompl : pc = .commit .clear → ∀ b ∈ s.log.header, b ∈ s.hist.installing) :
    Grouped (s.setPc p pc) where
  opened q hq := by
    by_cases hqp : q = p
    · subst hqp
      exact absurd (by simpa [Sys.setPc] using hq) hnot
    · exact h.opened q (by simpa [Sys.setPc, hqp] using hq)
  resting := h.resting
  busy := h.busy
  together := h.together
  waiting := h.waiting
  current q ph hq := by
    by_cases hqp : q = p
    · subst hqp
      exact hcur ph (by simpa [Sys.setPc] using hq)
    · exact h.current q ph (by simpa [Sys.setPc, hqp] using hq)
  written := h.written
  installed q tail hq := by
    by_cases hqp : q = p
    · subst hqp
      exact hinst tail (by simpa [Sys.setPc] using hq)
    · exact h.installed q tail (by simpa [Sys.setPc, hqp] using hq)
  complete q hq := by
    by_cases hqp : q = p
    · subst hqp
      exact hcompl (by simpa [Sys.setPc] using hq)
    · exact h.complete q (by simpa [Sys.setPc, hqp] using hq)

theorem Grouped.tryBegin {s : Sys} (h : Grouped s) {p : Pid} : Grouped (tryBegin s p) := by
  unfold Fslog.tryBegin
  split
  · refine ⟨fun q hq => ?_, h.resting, h.busy, h.together, h.waiting, fun q ph hq => ?_,
      h.written, fun q tail hq => ?_, fun q hq => ?_⟩
    all_goals by_cases hqp : q = p
    · subst hqp
      simp
    · simpa [hqp] using h.opened q (by simpa [hqp] using hq)
    · subst hqp
      simp at hq
    · exact h.current q ph (by simpa [hqp] using hq)
    · subst hqp
      simp at hq
    · exact h.installed q tail (by simpa [hqp] using hq)
    · subst hqp
      simp at hq
    · exact h.complete q (by simpa [hqp] using hq)
  · exact h

theorem mem_header_of_write {state : LogState} {log log' : Log} {b : UInt64}
    (h : write state log b = .ok log') :
    b ∈ log'.header ∧ ∀ x ∈ log.header, x ∈ log'.header := by
  obtain ⟨-, -, -, hins⟩ := write_cases h
  rcases Log.insert_cases hins with ⟨hm, rfl⟩ | ⟨-, -, hh, -⟩
  · exact ⟨hm, fun _ hx => hx⟩
  · rw [hh]
    exact ⟨by simp, fun x hx => by simp [hx]⟩

theorem Grouped.logWrite {ops : Finset Pid} {s s' : Sys} (h : Grouped s) (he : Excl ops s)
    {p : Pid} {b : UInt64} (hp : s.pc p = .inOp) (hw : logWrite s p b = .ok s') :
    Grouped s' := by
  obtain ⟨-, -, hnone⟩ := he.inOp hp
  obtain ⟨log, hlog, rfl⟩ := logWrite_cases hw
  obtain ⟨hb, hkeep⟩ := mem_header_of_write hlog
  refine ⟨fun q hq => ?_, h.resting, h.busy, h.together,
    fun o ho he' x hx => hkeep x (h.waiting o ho he' x hx),
    fun q ph hq => absurd hq (hnone q ph), h.written,
    fun q tail hq => absurd hq (hnone q _), fun q hq => absurd hq (hnone q _)⟩
  obtain ⟨h1, h2⟩ := h.opened q hq
  refine ⟨h1, fun x hx => ?_⟩
  by_cases hqp : q = p
  · subst hqp
    simp only [Function.update_self, List.mem_cons] at hx
    rcases hx with rfl | hx
    · exact hb
    · exact hkeep x (h2 x hx)
  · simp only [Function.update_of_ne hqp] at hx
    exact hkeep x (h2 x hx)

theorem Grouped.endOp {ops : Finset Pid} {s s' : Sys} (h : Grouped s) (he : Excl ops s)
    {p : Pid} (hp : s.pc p = .inOp) (hend : endOp s p = .ok s') : Grouped s' := by
  obtain ⟨-, hc, hnone⟩ := he.inOp hp
  obtain ⟨hbegan, hlogged⟩ := h.opened p hp
  have hlen : s.hist.finished.length = s.hist.started := h.resting hc
  have hrec : ∀ o ∈ s.hist.record p :: s.hist.ended, o.began = o.ended ∧
      o.ended ≤ s.hist.started ∧
      (o.ended = s.hist.started → ∀ b ∈ o.blocks, b ∈ s.log.header) ∧
      ∀ c, s.hist.finished[o.ended]? = some c → ∀ b ∈ o.blocks, b ∈ c := by
    intro o ho
    rcases List.mem_cons.mp ho with rfl | ho
    · refine ⟨hbegan, Nat.le_refl _, fun _ => hlogged, fun c hcom => ?_⟩
      have hlt := (List.getElem?_eq_some_iff.mp hcom).1
      simp only [Hist.record] at hlt
      omega
    · exact ⟨(h.together o ho).1, (h.together o ho).2, h.waiting o ho, h.written o ho⟩
  obtain ⟨-, ⟨hone, rfl⟩ | ⟨htwo, rfl⟩⟩ := endOp_cases hend
  · -- the commit that starts here is the one every waiting operation waits for
    have hothers : ∀ q, s.pc q = .inOp → q = p := by
      intro q hq
      have hcard : ops.card = 1 := by rw [he.card, hone]
      obtain ⟨r, hr⟩ := Finset.card_eq_one.mp hcard
      have h1 := (he.mem q).mpr hq
      have h2 := (he.mem p).mpr hp
      rw [hr, Finset.mem_singleton] at h1 h2
      rw [h1, h2]
    refine ⟨fun q hq => ?_, fun hc' => by simp at hc', fun _ => ⟨by simp [hlen], fun o ho => ?_⟩, fun o ho => ?_,
      fun o ho heq => ?_, fun q ph hq o ho heq => ?_, fun o ho => (hrec o ho).2.2.2,
      fun q tail hq => ?_, fun q hq => ?_⟩
    · by_cases hqp : q = p
      · subst hqp
        simp at hq
      · simp only [Function.update_of_ne hqp] at hq
        exact absurd (hothers q hq) hqp
    · exact Nat.lt_succ_of_le (hrec o ho).2.1
    · obtain ⟨h1, h2, -⟩ := hrec o ho
      exact ⟨h1, Nat.le_succ_of_le h2⟩
    · have := (hrec o ho).2.1
      simp only at heq
      omega
    · have hph : ph = .start := by
        by_cases hqp : q = p
        · subst hqp
          simpa using hq.symm
        · simp only [Function.update_of_ne hqp] at hq
          exact absurd hq (hnone q ph)
      subst hph
      exact (hrec o ho).2.2.1 (by simpa using heq)
    · by_cases hqp : q = p
      · subst hqp
        simp at hq
      · simp only [Function.update_of_ne hqp] at hq
        exact absurd hq (hnone q _)
    · by_cases hqp : q = p
      · subst hqp
        simp at hq
      · simp only [Function.update_of_ne hqp] at hq
        exact absurd hq (hnone q _)
  · have hno : ∀ q ph, Function.update s.pc p .idle q ≠ .commit ph := by
      intro q ph hq
      by_cases hqp : q = p
      · subst hqp
        simp at hq
      · rw [Function.update_of_ne hqp] at hq
        exact hnone q ph hq
    refine ⟨fun q hq => ?_, fun _ => hlen, fun hc' => by simp [hc] at hc', fun o ho => ?_,
      fun o ho => (hrec o ho).2.2.1, fun q ph hq => absurd hq (hno q ph),
      fun o ho => (hrec o ho).2.2.2, fun q tail hq => absurd hq (hno q _),
      fun q hq => absurd hq (hno q _)⟩
    · by_cases hqp : q = p
      · subst hqp
        simp at hq
      · exact h.opened q (by simpa [hqp] using hq)
    · exact ⟨(hrec o ho).1, (hrec o ho).2.1⟩

theorem Grouped.commitStep {ops : Finset Pid} {s : Sys} (h : Grouped s) (he : Excl ops s)
    {p : Pid} {ph : Phase} (hp : s.pc p = .commit ph) : Grouped (commitStep s p ph) := by
  have hcom : s.state.committing = true := he.running p ph hp
  obtain ⟨hbusy, hpassed⟩ := h.busy hcom
  have hcur := h.current p ph hp
  have hnoOp : ∀ q, s.pc q ≠ .inOp := fun q hq => by
    have := (he.inOp hq).2.1
    simp [hcom] at this
  have honly : ∀ q pc, pc ≠ Pc.inOp → Function.update s.pc p pc q ≠ .inOp := by
    intro q pc hpc hq
    by_cases hqp : q = p
    · subst hqp
      exact hpc (by simpa using hq)
    · rw [Function.update_of_ne hqp] at hq
      exact hnoOp q hq
  have hself : ∀ q pc ph', Function.update s.pc p pc q = .commit ph' →
      q = p ∧ pc = .commit ph' := by
    intro q pc ph' hq
    by_cases hqp : q = p
    · subst hqp
      exact ⟨rfl, by simpa using hq⟩
    · rw [Function.update_of_ne hqp] at hq
      exact absurd (he.unique q p _ _ hq hp) hqp
  cases ph with
  | start =>
      refine h.setPc (by simp) (fun ph' hph o ho heq b hb => ?_) (fun tail ht => ?_) ?_
      · have hmem : b ∈ s.log.header := hcur o ho heq b hb
        cases hph
        split
        · next hemp =>
            rw [Log.isEmpty, List.isEmpty_iff] at hemp
            simp [hemp] at hmem
        · exact hmem
      · split at ht <;> simp at ht
      · intro ht
        split at ht <;> simp at ht
  | sync tail =>
      refine h.setPc (by simp) (fun ph' hph o ho heq b hb => ?_) (fun tail ht => ?_) ?_
      · have hmem : b ∈ s.log.header := hcur o ho heq b hb
        cases hph
        split <;> exact hmem
      · split at ht <;> simp at ht
      · intro ht
        split at ht <;> simp at ht
  | header =>
      refine h.setPc (by simp) (fun ph' hph => ?_) (fun tail ht i b hi => ?_) (by simp)
      · cases hph
        exact hcur
      · cases ht
        omega
  | install tail =>
      simp only [Fslog.commitStep]
      split
      · next blockno hget =>
          refine ⟨fun q hq => absurd hq (honly q _ (by simp)), h.resting, h.busy, h.together,
            h.waiting, fun q ph' hq => ?_, h.written, fun q tail' hq i b hi hib => ?_,
            fun q hq => ?_⟩
          · obtain ⟨-, hph⟩ := hself q _ _ hq
            cases hph
            exact hcur
          · obtain ⟨-, hph⟩ := hself q _ _ hq
            cases hph
            rcases Nat.lt_or_ge i tail with hlt | hge
            · exact List.mem_cons_of_mem _ (h.installed p tail hp i b hlt hib)
            · have hi' : i = tail := by omega
              subst hi'
              have hb' : s.log.header[i]? = some b := hib
              rw [hget] at hb'
              cases hb'
              exact List.mem_cons_self
          · obtain ⟨-, hph⟩ := hself q _ _ hq
            cases hph
      · next hget =>
          refine h.setPc (by simp) (fun ph' hph => ?_) (by simp) (fun _ b hb => ?_)
          · cases hph
            exact hcur
          · obtain ⟨i, hi⟩ := List.mem_iff_getElem?.mp hb
            have hlt := (List.getElem?_eq_some_iff.mp hi).1
            have := List.getElem?_eq_none_iff.mp hget
            exact h.installed p tail hp i b (by omega) hi
  | clear =>
      refine ⟨fun q hq => absurd hq (honly q _ (by simp)), h.resting, h.busy, h.together,
        fun o ho heq => absurd heq (Nat.ne_of_lt (hpassed o ho)),
        fun q ph' hq o ho heq b hb => ?_,
        h.written, fun q tail' hq => ?_, fun q hq => ?_⟩
      · obtain ⟨-, hph⟩ := hself q _ _ hq
        cases hph
        exact h.complete p hp b (hcur o ho heq b hb)
      · obtain ⟨-, hph⟩ := hself q _ _ hq
        cases hph
      · obtain ⟨-, hph⟩ := hself q _ _ hq
        cases hph
  | headerEmpty =>
      refine h.setPc (by simp) (fun ph' hph => ?_) (by simp) (by simp)
      cases hph
      exact hcur
  | done =>
      refine ⟨fun q hq => absurd hq (honly q _ (by simp)), fun _ => ?_, fun hc => ?_,
        h.together, h.waiting, fun q ph' hq => ?_, fun o ho c hget b hb => ?_,
        fun q tail' hq => ?_, fun q hq => ?_⟩
      · simp only [Fslog.commitStep, List.length_append, List.length_singleton]
        omega
      · simp [Fslog.commitStep] at hc
      · obtain ⟨-, hph⟩ := hself q _ _ hq
        cases hph
      · have hget' : (s.hist.finished ++ [s.hist.installing])[o.ended]? = some c := hget
        rcases Nat.lt_or_ge o.ended s.hist.finished.length with hlt | hge
        · rw [List.getElem?_append_left hlt] at hget'
          exact h.written o ho c hget' b hb
        · have hlt := (List.getElem?_eq_some_iff.mp hget').1
          simp only [List.length_append, List.length_singleton] at hlt
          have heq : o.ended = s.hist.finished.length := by omega
          rw [heq, List.getElem?_concat_length] at hget'
          cases hget'
          exact hcur o ho (by omega) b hb
      · obtain ⟨-, hph⟩ := hself q _ _ hq
        cases hph
      · obtain ⟨-, hph⟩ := hself q _ _ hq
        cases hph

theorem Grouped.step {ops : Finset Pid} {s s' : Sys} (h : Grouped s) (he : Excl ops s)
    {p : Pid} {a : Act} (hs : Fslog.step s p a = some (.ok s')) : Grouped s' := by
  rcases step_cases hs with ⟨-, hp, rfl⟩ | ⟨-, hp, rfl⟩ | ⟨b, -, hp, hw⟩ | ⟨-, hp, hend⟩ |
    ⟨ph, -, hp, rfl⟩
  · exact h.setPc (by simp) (by simp) (by simp) (by simp)
  · exact h.tryBegin
  · exact h.logWrite he hp hw
  · exact h.endOp he hp hend
  · exact h.commitStep he hp

theorem Reachable.grouped {s : Sys} (h : Reachable s) : ∃ ops, Excl ops s ∧ Grouped s := by
  refine Reach.invariant (I := fun s => ∃ ops, Excl ops s ∧ Grouped s)
    (fun _ h => ⟨∅, Excl.init h, Grouped.init h⟩) ?_ h
  rintro s ⟨p, a⟩ s' ⟨ops, he, hg⟩ hs
  obtain ⟨ops', he'⟩ := he.step hs
  exact ⟨ops', he', hg.step he hs⟩

/-- **Transaction grouping.** In every state that any interleaving of
`op::begin`, `fslog::write`, `op::end` and `op::commit` steps reaches: no
operation is open while a commit runs, one process at most is inside
`op::commit`, the two protocol panics cannot happen next, a logged write
can only be made while no commit runs, and every operation that has ended
saw no commit start between its begin and its end, and has all it logged
written by the first commit that started after its end. -/
theorem transaction_grouping (s : Sys) (h : Reachable s) :
    ¬ (s.state.committing = true ∧ 0 < s.state.outstanding) ∧
    (∀ p q ph ph', s.pc p = .commit ph → s.pc q = .commit ph' → p = q) ∧
    (∀ p a e, step s p a = some (.error e) →
      e ≠ "op end during commit" ∧ e ≠ "logged write outside of transaction") ∧
    (∀ p b s', step s p (.write b) = some (.ok s') →
      s.state.committing = false ∧ ∀ q ph, s.pc q ≠ .commit ph) ∧
    (∀ o ∈ s.hist.ended, o.began = o.ended ∧ o.ended ≤ s.hist.started ∧
      ∀ c, s.hist.finished[o.ended]? = some c → ∀ b ∈ o.blocks, b ∈ c) := by
  obtain ⟨ops, he, hg⟩ := h.grouped
  refine ⟨fun ⟨hc, hpos⟩ => ?_, he.unique, fun p a e hstep => ?_, fun p b s' hstep => ?_,
    fun o ho => ⟨(hg.together o ho).1, (hg.together o ho).2, hg.written o ho⟩⟩
  · have := he.quiet hc
    omega
  · unfold step at hstep
    split at hstep
    · cases hstep
    · cases hstep
    · next b hpc =>
        obtain ⟨hpos, -, -⟩ := he.inOp hpc
        have hw : logWrite s p b = .error e := Option.some.inj hstep
        unfold logWrite write at hw
        split at hw
        · next e' he' =>
            cases hw
            split at he'
            · cases he'
              decide
            · rw [if_neg (by omega)] at he'
              unfold Log.insert at he'
              split at he'
              · cases he'
              · split at he'
                · cases he'
                · cases he'
                  decide
        · cases hw
    · next hpc =>
        obtain ⟨hpos, hc, -⟩ := he.inOp hpc
        have hend : endOp s p = .error e := Option.some.inj hstep
        unfold endOp at hend
        rw [if_neg (by simp [hc]), if_neg (by omega)] at hend
        split at hend <;> cases hend
    · cases hstep
    · cases hstep
  · rcases step_cases hstep with ⟨ha, -⟩ | ⟨ha, -⟩ | ⟨b', ha, hpc, -⟩ | ⟨ha, -⟩ | ⟨ph, ha, -⟩
    · cases ha
    · cases ha
    · exact (he.inOp hpc).2
    · cases ha
    · cases ha

/-- The system after a boot from the log area that `mkfs` lays out. -/
def boot : Sys := ⟨⟨0, false⟩, Log.new.setMetadata 1 2 511, fun _ => .idle, Hist.empty⟩

theorem boot_init : Init boot := ⟨rfl, rfl, fun _ => rfl, rfl⟩

/-- A step that does not panic. -/
def next (s : Sys) (l : Pid × Act) : Option Sys :=
  match step s l.1 l.2 with
  | some (.ok s') => some s'
  | _ => none

theorem next_step (s : Sys) (l : Pid × Act) (s' : Sys) (h : next s l = some s') : Step s l s' := by
  unfold next at h
  split at h
  · next hs =>
    cases h
    exact hs
  · cases h

/-- Two operations that overlap and log a block in common. The last one out
commits, and a third waits for the end of the commit. -/
def twoOperations : List (Pid × Act) :=
  [(1, .begin), (1, .tryBegin), (2, .begin), (1, .write 600), (2, .tryBegin), (2, .write 601),
    (1, .endOp), (2, .write 600), (2, .endOp), (3, .begin), (3, .tryBegin)] ++
    List.replicate 11 (2, .commit) ++ [(3, .tryBegin), (3, .write 602)]

theorem transaction_grouping_twoOperations :
    ∃ s, replay next boot twoOperations = some s ∧ s.pc 3 = .inOp ∧
      s.hist.finished = [[601, 600]] ∧
      s.hist.ended.map OpRecord.blocks = [[600, 601], [600]] ∧
      ∀ o ∈ s.hist.ended, o.began = o.ended ∧ ∀ b ∈ o.blocks, b ∈ [601, 600] := by
  have hrun : (replay next boot twoOperations).map (fun s => (s.pc 3, s.hist.finished,
      s.hist.ended.map fun o => (o.blocks, o.ended))) =
      some (.inOp, [[601, 600]], [([600, 601], 0), ([600], 0)]) := by decide +kernel
  obtain ⟨s, hs, hall⟩ := Option.map_eq_some_iff.mp hrun
  simp only [Prod.mk.injEq] at hall
  obtain ⟨hpc, hfinished, hended⟩ := hall
  have h := transaction_grouping s (Reach.replay next_step (.init boot_init) hs)
  have hblocks := congrArg (List.map Prod.fst) hended
  rw [List.map_map] at hblocks
  refine ⟨s, hs, hpc, hfinished, hblocks, fun o ho => ?_⟩
  have hzero : o.ended = 0 := by
    have hmem : (o.blocks, o.ended) ∈ s.hist.ended.map fun o => (o.blocks, o.ended) :=
      List.mem_map_of_mem ho
    rw [hended] at hmem
    simp only [List.mem_cons, Prod.mk.injEq, List.not_mem_nil, or_false] at hmem
    exact hmem.elim And.right And.right
  obtain ⟨htogether, -, hwritten⟩ := h.2.2.2.2 o ho
  exact ⟨htogether, hwritten _ (by rw [hzero, hfinished]; rfl)⟩

end Rxv64.Fslog
