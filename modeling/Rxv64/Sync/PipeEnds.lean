import Rxv64.Sync.Pipe

/-!
# Sync.PipeEnds — the descriptors of a pipe

An end of a pipe is closed when the last descriptor of its file goes away
(`File::close`), and a process reads or writes through a descriptor of its
own. So nobody is inside `read` once the read end is closed; this is what
makes up for the exit of `write` that calls no wakeup.
-/

namespace Rxv64.Sync

open Monitor Runs

variable {ι : Type} [DecidableEq ι]

/-- The pipe and the descriptors each process has for its ends. -/
structure Ends (ι : Type) where
  mon : State ι PipeCall (Traffic ι) PipePoint Chan
  rfds : ι → Nat
  wfds : ι → Nat

/-- One descriptor less for `p`. -/
def drop (fds : ι → Nat) (p : ι) : ι → Nat := Function.update fds p (fds p - 1)

/-- One descriptor more for `p`. -/
def share (fds : ι → Nat) (p : ι) : ι → Nat := Function.update fds p (fds p + 1)

inductive EndsEvent (ι : Type) where
  | read (p : ι) (len : Nat)
  | write (p : ι) (buf : List UInt8)
  | run (p : ι)
  | kill (p : ι)
  | wakeup (c : Chan)
  /-- `dup`, or `fork` with the child `q` -/
  | shareRead (p q : ι)
  | shareWrite (p q : ι)
  | closeRead (p : ι)
  | closeWrite (p : ι)

inductive Ends.Step (s : Ends ι) : EndsEvent ι → Ends ι → Prop where
  | read {p : ι} {len : Nat} {mon : State ι PipeCall (Traffic ι) PipePoint Chan} :
      0 < s.rfds p → Monitor.Step pipeCode s.mon (.call p (.read len)) mon →
      Step s (.read p len) { s with mon }
  | write {p : ι} {buf : List UInt8} {mon : State ι PipeCall (Traffic ι) PipePoint Chan} :
      0 < s.wfds p → Monitor.Step pipeCode s.mon (.call p (.write buf)) mon →
      Step s (.write p buf) { s with mon }
  | run {p : ι} {mon : State ι PipeCall (Traffic ι) PipePoint Chan} :
      Monitor.Step pipeCode s.mon (.run p) mon → Step s (.run p) { s with mon }
  | kill {p : ι} {mon : State ι PipeCall (Traffic ι) PipePoint Chan} :
      Monitor.Step pipeCode s.mon (.kill p) mon → Step s (.kill p) { s with mon }
  | wakeup {c : Chan} {mon : State ι PipeCall (Traffic ι) PipePoint Chan} :
      Monitor.Step pipeCode s.mon (.wakeup c) mon → Step s (.wakeup c) { s with mon }
  | shareRead {p q : ι} : s.mon.phase p = .out → 0 < s.rfds p →
      Step s (.shareRead p q) { s with rfds := share s.rfds q }
  | shareWrite {p q : ι} : s.mon.phase p = .out → 0 < s.wfds p →
      Step s (.shareWrite p q) { s with wfds := share s.wfds q }
  /-- not the last descriptor -/
  | dropRead {p q : ι} : s.mon.phase p = .out → 0 < s.rfds p → drop s.rfds p q ≠ 0 →
      Step s (.closeRead p) { s with rfds := drop s.rfds p }
  | dropWrite {p q : ι} : s.mon.phase p = .out → 0 < s.wfds p → drop s.wfds p q ≠ 0 →
      Step s (.closeWrite p) { s with wfds := drop s.wfds p }
  /-- the last descriptor: `PipeReader::close` -/
  | closeRead {p : ι} {mon : State ι PipeCall (Traffic ι) PipePoint Chan} :
      0 < s.rfds p → (∀ q, drop s.rfds p q = 0) →
      Monitor.Step pipeCode s.mon (.call p .closeRead) mon →
      Step s (.closeRead p) { s with mon, rfds := drop s.rfds p }
  | closeWrite {p : ι} {mon : State ι PipeCall (Traffic ι) PipePoint Chan} :
      0 < s.wfds p → (∀ q, drop s.wfds p q = 0) →
      Monitor.Step pipeCode s.mon (.call p .closeWrite) mon →
      Step s (.closeWrite p) { s with mon, wfds := drop s.wfds p }

/-- Points inside `PipeReader::read`. -/
def PipePoint.reading : PipePoint → Bool
  | .readWait _ | .readCopy _ _ | .readEnd _ _ => true
  | _ => false

/-- A process reads through a descriptor, and closes the read end when there
is none left. -/
structure Fits (rfds : ι → Nat) (p : ι) (ph : Phase PipePoint Chan) : Prop where
  reading : ∀ k, ph.spot = some k → k.reading = true → 0 < rfds p
  waiting : ph.waits = some .read → 0 < rfds p
  closing : ph.spot = some .closeRead → ∀ q, rfds q = 0

structure Ends.Inv (s : Ends ι) : Prop where
  sound : Sound Lossless PipeAt WaitsFor PipeOwes s.mon
  fits : ∀ p, Fits s.rfds p (s.mon.phase p)
  closed : s.mon.data.pipe.readOpen = false → ∀ q, s.rfds q = 0

omit [DecidableEq ι] in
theorem Fits.of_none {rfds : ι → Nat} {p : ι} {ph : Phase PipePoint Chan} (h : ph = .out) :
    Fits rfds p ph := by
  subst h
  exact ⟨fun k hk => (by cases hk), fun hw => (by cases hw), fun hc => (by cases hc)⟩

omit [DecidableEq ι] in
/-- The same place in the code, and asleep at most as before. -/
theorem Fits.congr {rfds : ι → Nat} {p : ι} {ph ph' : Phase PipePoint Chan} (h : Fits rfds p ph)
    (hspot : ph'.spot = ph.spot) (hwait : ph'.waits = some .read → ph.waits = some .read) :
    Fits rfds p ph' :=
  ⟨fun k hk => h.reading k (hspot ▸ hk), fun hw => h.waiting (hwait hw),
    fun hc => h.closing (hspot ▸ hc)⟩

omit [DecidableEq ι] in
/-- Awake at a point that reads only if the last one did. -/
theorem Fits.point {rfds : ι → Nat} {p : ι} {ph ph' : Phase PipePoint Chan} {k k' : PipePoint}
    (h : Fits rfds p ph) (hk : ph.spot = some k) (hk' : ph'.spot = some k')
    (hread : k'.reading = true → k.reading = true) (hc : k' ≠ .closeRead)
    (hwait : ph'.waits = some .read → k.reading = true) : Fits rfds p ph' := by
  refine ⟨fun k₁ h₁ hr => h.reading k hk ?_, fun hw => h.reading k hk (hwait hw), fun h₁ => ?_⟩
  · rw [hk'] at h₁
    cases h₁
    exact hread hr
  · rw [hk'] at h₁
    exact absurd (Option.some.inj h₁) hc

omit [DecidableEq ι] in
/-- What a step of one process does to its place and to the read end. -/
theorem fits_own {s s' : State ι PipeCall (Traffic ι) PipePoint Chan} {rfds : ι → Nat} {p : ι}
    {ph ph' : Phase PipePoint Chan} {l t : Option ι} {r : Option (ι × PipeResult)}
    (h : Fits rfds p ph) (hclosed : s.data.pipe.readOpen = false → ∀ q, rfds q = 0)
    (hown : Own pipeCode s p ph ph' s'.data l t r) :
    Fits rfds p ph' ∧ (s'.data.pipe.readOpen = false → ∀ q, rfds q = 0) := by
  generalize s'.data = d at hown
  cases hown with
  | enter k _ => exact ⟨h.congr rfl (fun hw => by cases hw), hclosed⟩
  | go hm =>
      cases PipeMove.of_next hm with
      | readable len hr =>
          exact ⟨h.point rfl rfl (fun _ => rfl) (by simp) (fun hw => by cases hw), hclosed⟩
      | take len got he =>
          exact ⟨h.point rfl rfl (fun _ => rfl) (by simp) (fun hw => by cases hw), hclosed⟩
      | put n buf i b hb hf =>
          exact ⟨h.point rfl rfl (fun hr => by cases hr) (by simp) (fun hw => by cases hw), hclosed⟩
      | closeRead =>
          exact ⟨h.point rfl rfl (fun hr => by cases hr) (by simp) (fun hw => by cases hw),
            fun _ => h.closing rfl⟩
      | closeWrite =>
          exact ⟨h.point rfl rfl (fun hr => by cases hr) (by simp) (fun hw => by cases hw), hclosed⟩
  | wake hm =>
      cases PipeMove.of_next hm with
      | taken len got hc =>
          exact ⟨h.point rfl rfl (fun _ => rfl) (by simp) (fun hw => by cases hw), hclosed⟩
      | _ => exact ⟨h.point rfl rfl (fun hr => by cases hr) (by simp) (fun hw => by cases hw), hclosed⟩
  | sleep hm =>
      cases PipeMove.of_next hm with
      | waitRead len he ho =>
          exact ⟨h.point rfl rfl (fun _ => rfl) (by simp) (fun _ => rfl), hclosed⟩
      | waitWrite n buf i =>
          exact ⟨h.point rfl rfl (fun hr => by cases hr) (by simp) (fun hw => by cases hw), hclosed⟩
  | again hm => cases PipeMove.of_next hm
  | done hm => cases PipeMove.of_next hm <;> exact ⟨.of_none rfl, hclosed⟩
  | fall c k _ => exact ⟨h.congr rfl id, hclosed⟩
  | hand c k => exact ⟨h.congr rfl id, hclosed⟩
  | doze c k => exact ⟨h.congr rfl id, hclosed⟩

variable {s s' : Ends ι}

/-- A step in the monitor that is not a call. -/
theorem Ends.Inv.mon (h : s.Inv) {a : Event ι PipeCall Chan}
    {mon : State ι PipeCall (Traffic ι) PipePoint Chan} (hs : Monitor.Step pipeCode s.mon a mon)
    (ha : ∀ p r, a ≠ .call p r) : Ends.Inv { s with mon } := by
  have hsound := pipe_disciplined.step h.sound hs
  rcases step_cases hs with ⟨p, r, he, -⟩ | ⟨p, ph, ph', hp, hown, hphase, -⟩ |
    ⟨p, c, k, hp, -, rfl, -⟩ | ⟨p, -, rfl, -⟩ | ⟨c, -, rfl, -⟩
  · exact absurd he (ha p r)
  · obtain ⟨hfit, hclosed⟩ := fits_own (hp ▸ h.fits p) h.closed hown
    refine ⟨hsound, fun q => ?_, hclosed⟩
    show Fits s.rfds q (mon.phase q)
    rw [hphase]
    by_cases hq : q = p
    · subst hq
      rw [Function.update_self]
      exact hfit
    · rw [Function.update_of_ne hq]
      exact h.fits q
  · refine ⟨hsound, fun q => ?_, h.closed⟩
    by_cases hq : q = p
    · subst hq
      refine (h.fits q).congr ?_ ?_
      · simp only [State.setPhase, Function.update_self, hp]
        rfl
      · simp only [State.setPhase, Function.update_self]
        exact fun hw => by cases hw
    · refine (h.fits q).congr ?_ ?_
      · simp only [State.setPhase, Function.update_of_ne hq]
        exact Phase.spot_rouse c _
      · simp only [State.setPhase, Function.update_of_ne hq]
        exact Phase.waits_rouse c _ _
  · refine ⟨hsound, fun q => ?_, h.closed⟩
    by_cases hq : q = p
    · subst hq
      refine (h.fits q).congr ?_ ?_
      · simp only [State.setPhase, Function.update_self, Phase.spot_stir]
      · simp only [State.setPhase, Function.update_self]
        exact Phase.waits_stir _ _
    · simpa only [State.setPhase, Function.update_of_ne hq] using h.fits q
  · exact ⟨hsound, fun q => (h.fits q).congr (Phase.spot_rouse c _) (Phase.waits_rouse c _ _), h.closed⟩

/-- A call, with the descriptors as they are after it. -/
theorem Ends.Inv.call (h : s.Inv) {p : ι} {r : PipeCall} {rfds wfds : ι → Nat}
    {mon : State ι PipeCall (Traffic ι) PipePoint Chan}
    (hs : Monitor.Step pipeCode s.mon (.call p r) mon)
    (hfit : Fits rfds p (.enter (pipeCode.start p (s.mon.begun p).length r)))
    (hothers : ∀ q, q ≠ p → Fits rfds q (s.mon.phase q))
    (hclosed : s.mon.data.pipe.readOpen = false → ∀ q, rfds q = 0) :
    Ends.Inv ⟨mon, rfds, wfds⟩ := by
  have hsound := pipe_disciplined.step h.sound hs
  have hmon : mon = s.mon.called pipeCode p r := by
    simp only [Monitor.Step, step] at hs
    split at hs
    · cases hs
      rfl
    · cases hs
  subst hmon
  refine ⟨hsound, fun q => ?_, hclosed⟩
  by_cases hq : q = p
  · subst hq
    simpa only [State.called, State.setPhase, Function.update_self] using hfit
  · simpa only [State.called, State.setPhase, Function.update_of_ne hq] using hothers q hq

omit [DecidableEq ι] in
/-- The start of a call: a read has its descriptor, and a close of the read end
has taken the last one. -/
theorem fits_start {rfds : ι → Nat} {p : ι} {n : Nat} {r : PipeCall}
    (hread : ∀ len, r = .read len → 0 < rfds p) (hclose : r = .closeRead → ∀ q, rfds q = 0) :
    Fits rfds p (.enter (pipeCode.start p n r)) := by
  refine ⟨fun k hk hr => ?_, fun hw => (by cases hw), fun hc => ?_⟩
  · cases r with
    | read len => exact hread len rfl
    | _ =>
        cases hk
        cases hr
  · cases r with
    | closeRead => exact hclose rfl
    | _ => cases hc

omit [DecidableEq ι] in
/-- Only the descriptors change, and no process in a call loses one. -/
theorem Ends.Inv.fds (h : s.Inv) {rfds wfds : ι → Nat}
    (hfit : ∀ q, s.mon.phase q ≠ .out → 0 < s.rfds q → 0 < rfds q)
    (hsome : ∃ p, 0 < s.rfds p) : Ends.Inv ⟨s.mon, rfds, wfds⟩ := by
  obtain ⟨p, hp⟩ := hsome
  have hno : ¬∀ q, s.rfds q = 0 := fun hall => by
    rw [hall p] at hp
    cases hp
  refine ⟨h.sound, fun q => ?_, fun hc => absurd (h.closed hc) hno⟩
  by_cases hq : s.mon.phase q = .out
  · exact .of_none hq
  · exact ⟨fun k hk hr => hfit q hq ((h.fits q).reading k hk hr),
      fun hw => hfit q hq ((h.fits q).waiting hw),
      fun hc => absurd ((h.fits q).closing hc) hno⟩

theorem Ends.Inv.step (h : s.Inv) {a : EndsEvent ι} (hs : s.Step a s') : s'.Inv := by
  cases hs with
  | read hfd hm =>
      exact h.call hm (fits_start (fun _ _ => hfd) (fun hc => by cases hc)) (fun q _ => h.fits q)
        h.closed
  | write hfd hm =>
      exact h.call hm (fits_start (fun _ hr => by cases hr) (fun hc => by cases hc))
        (fun q _ => h.fits q) h.closed
  | run hm => exact h.mon hm (fun _ _ he => by cases he)
  | kill hm => exact h.mon hm (fun _ _ he => by cases he)
  | wakeup hm => exact h.mon hm (fun _ _ he => by cases he)
  | @shareRead p q hp hfd =>
      refine h.fds (fun r _ hr => ?_) ⟨p, hfd⟩
      unfold share
      by_cases hrq : r = q
      · subst hrq
        rw [Function.update_self]
        exact Nat.succ_pos _
      · rw [Function.update_of_ne hrq]
        exact hr
  | shareWrite hp hfd => exact ⟨h.sound, h.fits, h.closed⟩
  | @dropRead p q hp hfd hq =>
      refine h.fds (fun r hr hpos => ?_) ⟨p, hfd⟩
      unfold drop
      have hrp : r ≠ p := by
        rintro rfl
        exact hr hp
      rw [Function.update_of_ne hrp]
      exact hpos
  | dropWrite hp hfd hq => exact ⟨h.sound, h.fits, h.closed⟩
  | @closeRead p mon hfd hall hm =>
      refine h.call hm (fits_start (fun _ hr => by cases hr) (fun _ => hall)) (fun q hq => ?_)
        (fun _ => hall)
      -- whoever else is in a call has no descriptor left to read through
      have hzero : s.rfds q = 0 := by
        have := hall q
        rwa [drop, Function.update_of_ne hq] at this
      have hfit := h.fits q
      refine ⟨fun k hk hr => absurd (hfit.reading k hk hr) (by omega),
        fun hw => absurd (hfit.waiting hw) (by omega), fun _ => hall⟩
  | closeWrite hfd hall hm =>
      exact h.call hm (fits_start (fun _ hr => by cases hr) (fun hc => by cases hc))
        (fun q _ => h.fits q) h.closed

/-- A pipe as `pipe` returns it, with descriptors for its two ends. -/
def Ends.Init (s : Ends ι) : Prop := PipeReset s.mon

omit [DecidableEq ι] in
theorem Ends.Init.inv (h : s.Init) : s.Inv := by
  refine ⟨.fresh h.1 h.lossless, fun p => .of_none (h.1.2.2.1 p), fun hc => ?_⟩
  obtain ⟨-, page, hd⟩ := h
  rw [hd] at hc
  cases hc

/-- **No lost wakeup on pipes.** While nobody holds the lock of the pipe,
whoever holds that of the process table, a process asleep on the write channel
finds the pipe full and the read end open, and one asleep on the read channel
finds the pipe empty and the write end open. -/
theorem pipe_no_lost_wakeup (h : Reach Ends.Init Ends.Step s) (hl : s.mon.lock = none)
    (q : ι) (k : PipePoint) :
    (s.mon.phase q = .asleep .write k →
      s.mon.data.pipe.isFull = true ∧ s.mon.data.pipe.readOpen = true) ∧
    (s.mon.phase q = .asleep .read k →
      s.mon.data.pipe.isEmpty = true ∧ s.mon.data.pipe.writeOpen = true) := by
  have hinv : s.Inv :=
    Reach.invariant (I := Ends.Inv) (fun _ hs => hs.inv) (fun _ _ _ hi hs => hi.step hs) h
  refine ⟨fun hq => ?_, fun hq => ?_⟩
  · exact hinv.sound.quiet hl (q := q) (c := .write) (by rw [hq]; rfl)
  · have hwait : (s.mon.phase q).waits = some .read := by rw [hq]; rfl
    rcases hinv.sound.quiet hl hwait with hclosed | hw
    · have hfd := (hinv.fits q).waiting hwait
      rw [hinv.closed hclosed q] at hfd
      cases hfd
    · exact hw

/-- A process that goes on with its call. -/
theorem Ends.reach_runs {t : Ends ι} (h : Reach Ends.Init Ends.Step t) (p : ι) :
    ∀ (n : Nat) {mon : State ι PipeCall (Traffic ι) PipePoint Chan},
      replay (Monitor.step pipeCode) t.mon (List.replicate n (.run p)) = some mon →
      Reach Ends.Init Ends.Step { t with mon } := by
  intro n
  induction n generalizing t with
  | zero =>
      intro mon hm
      cases hm
      exact h
  | succ n ih =>
      intro mon hm
      rw [List.replicate_succ, replay] at hm
      cases hs : Monitor.step pipeCode t.mon (.run p) with
      | none => simp [hs] at hm
      | some mid =>
          rw [hs] at hm
          exact ih (h.step (.run hs)) hm

/-- A read of an empty pipe that has come to rest on the read channel. -/
theorem pipe_no_lost_wakeup_reader :
    ∃ s : Ends Bool, Reach Ends.Init Ends.Step s ∧ s.mon.lock = none ∧
      s.mon.phase true = .asleep .read (.readWait 1) ∧
      s.mon.data.pipe.isEmpty = true ∧ s.mon.data.pipe.writeOpen = true := by
  have h₀ : Reach Ends.Init Ends.Step (⟨twoEnds, fun _ => 1, fun _ => 1⟩ : Ends Bool) :=
    .init pipeReset_twoEnds
  obtain ⟨mon, hm⟩ : ∃ mon, Monitor.step pipeCode twoEnds (.call true (.read 1)) = some mon :=
    ⟨_, rfl⟩
  have h₁ := h₀.step (.read Nat.one_pos hm)
  obtain ⟨mon', hr, hl, hp⟩ : ∃ mon', replay (Monitor.step pipeCode) mon
      (List.replicate 5 (.run true)) = some mon' ∧ mon'.lock = none ∧
      mon'.phase true = .asleep .read (.readWait 1) := by
    cases hm
    exact ⟨_, rfl, rfl, rfl⟩
  have h₂ := Ends.reach_runs h₁ true 5 hr
  exact ⟨_, h₂, hl, hp, (pipe_no_lost_wakeup h₂ hl true _).2 hp⟩

end Rxv64.Sync
