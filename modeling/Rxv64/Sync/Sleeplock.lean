import Rxv64.Lib.Monitor

/-!
# Sync.Sleeplock — the lock it is possible to sleep on

`kernel/src/sleeplock.rs`. The fields `locked` and `pid` are data protected
by the spin lock `lock`; `acquire` and `release` first ask `holding`, which
is a section of its own.
-/

namespace Rxv64.Sync.Sleeplock

open Monitor Runs

/-- The fields of `struct Sleeplock`. -/
structure Lock where
  locked : Bool
  pid : UInt32

def Lock.new : Lock := ⟨false, 0⟩

inductive Call where
  | acquire | release | holding

/-- Points in the code of the three calls. -/
inductive Point where
  /-- `acquire`, in `assert!(!self.holding())` -/
  | acquireCheck
  /-- `acquire`, `while self.locked.get()` -/
  | acquireLoop
  /-- `release`, in `assert!(self.holding())` -/
  | releaseCheck
  | releaseClear
  | releaseWake
  | releaseEnd
  | holding
  deriving DecidableEq

inductive Answer where
  | acquired | released | holding (yes : Bool)
  deriving DecidableEq

section Code

variable {ι : Type} (pid : ι → UInt32)

def next (p : ι) : Point → Lock → Move Lock Point Unit Answer
  | .acquireCheck, l => if l.pid = pid p then .panic else .again l .acquireLoop
  | .acquireLoop, l =>
      if l.locked then .sleep () .acquireLoop else .done ⟨true, pid p⟩ .acquired
  | .releaseCheck, l => if l.pid = pid p then .again l .releaseClear else .panic
  | .releaseClear, _ => .go ⟨false, 0⟩ .releaseWake
  | .releaseWake, _ => .wake () .releaseEnd
  | .releaseEnd, l => .done l .released
  | .holding, l => .done l (.holding (l.pid = pid p))

/-- The code of the lock, for processes with these pids. -/
def code : Code ι Call Lock Point Unit Answer where
  start _ _
    | .acquire => .acquireCheck
    | .release => .releaseCheck
    | .holding => .holding
  next p _ k l := next pid p k l

/-! ## Sleepers -/

/-- A lock that is not locked has no owner. -/
def Tidy (l : Lock) : Prop := l.locked = false → l.pid = 0

/-- Between clearing the lock and the wakeup it stays clear. -/
def At (_ : ι) : Point → Lock → Prop
  | .releaseWake, l | .releaseEnd, l => l = ⟨false, 0⟩
  | _, l => Tidy l

def Owes : Point → Unit → Prop
  | .releaseWake, _ => True
  | _, _ => False

theorem disciplined :
    Disciplined (code pid) Tidy At (fun _ l => l.locked = true) Owes where
  start := by
    rintro p n (_ | _ | _) l h <;> exact h
  keeps := by
    rintro p (_ | _ | _ | _ | _ | _ | _) l h
    case releaseWake | releaseEnd =>
      subst h
      exact fun _ => rfl
    all_goals exact h
  go := by
    rintro p b (_ | _ | _ | _ | _ | _ | _) l l' k' h hm
    all_goals simp only [code, next] at hm
    case releaseClear =>
      cases hm
      exact ⟨rfl, fun _ _ => .inr trivial⟩
    all_goals first | cases hm | (split at hm <;> cases hm)
  wake := by
    rintro p b (_ | _ | _ | _ | _ | _ | _) l c k' h hm
    all_goals simp only [code, next] at hm
    case releaseWake =>
      cases hm
      exact ⟨h, fun _ _ => .inr (.inl rfl)⟩
    all_goals first | cases hm | (split at hm <;> cases hm)
  sleep := by
    rintro p b (_ | _ | _ | _ | _ | _ | _) l c k' h hm
    all_goals simp only [code, next] at hm
    case acquireLoop =>
      split at hm
      · next hl =>
          cases hm
          exact ⟨fun _ h => h, hl, fun _ ho => ho.elim⟩
      · cases hm
    all_goals first | cases hm | (split at hm <;> cases hm)
  again := by
    rintro p b (_ | _ | _ | _ | _ | _ | _) l l' k' h hm
    all_goals simp only [code, next] at hm
    case acquireCheck | releaseCheck =>
      split at hm <;> cases hm
      exact ⟨h, fun _ h => h, fun _ hw => hw.resolve_right id⟩
    all_goals first | cases hm | (split at hm <;> cases hm)
  done := by
    rintro p b (_ | _ | _ | _ | _ | _ | _) l l' r h hm
    all_goals simp only [code, next] at hm
    case acquireLoop =>
      split at hm
      · cases hm
      · cases hm
        refine ⟨fun hl => ?_, fun _ _ => rfl⟩
        cases hl
    case releaseEnd =>
      cases hm
      subst h
      exact ⟨fun _ => rfl, fun _ hw => hw.resolve_right id⟩
    case holding =>
      cases hm
      exact ⟨h, fun _ hw => hw.resolve_right id⟩
    all_goals first | cases hm | (split at hm <;> cases hm)

/-! ## Owners -/

/-- `held p` says that `p` has completed an `acquire` and not yet the
`release` after it. -/
structure Sys (ι : Type) where
  mon : State ι Call Lock Point Unit
  held : ι → Bool

variable [DecidableEq ι]

def note (held : ι → Bool) : Option (ι × Answer) → ι → Bool
  | some (p, .acquired) => Function.update held p true
  | some (p, .released) => Function.update held p false
  | _ => held

/-- One event, and what is known of the owners after it. -/
def Sys.Step (s : Sys ι) (a : Event ι Call Unit) (s' : Sys ι) : Prop :=
  Monitor.Step (code pid) s.mon a s'.mon ∧ s'.held = note s.held (result (code pid) s.mon a)

/-- The step as a function. -/
def Sys.next (s : Sys ι) (a : Event ι Call Unit) : Option (Sys ι) :=
  (Monitor.step (code pid) s.mon a).map fun mon =>
    ⟨mon, note s.held (result (code pid) s.mon a)⟩

theorem Sys.step_of_next {s s' : Sys ι} {a : Event ι Call Unit} (h : Sys.next pid s a = some s') :
    Sys.Step pid s a s' := by
  obtain ⟨mon, hm, rfl⟩ := Option.map_eq_some_iff.mp h
  exact ⟨hm, rfl⟩

omit [DecidableEq ι] in
/-- The lock as it is made. -/
def Sys.Init (s : Sys ι) : Prop :=
  s.mon.Fresh ∧ s.mon.data = Lock.new ∧ ∀ p, s.held p = false

/-- The process has cleared the lock and not yet returned. -/
def Clearing (ph : Phase Point Unit) : Prop :=
  ph.spot = some .releaseWake ∨ ph.spot = some .releaseEnd

/-- The owner is the process whose pid is in the lock. -/
structure Owned (s : Sys ι) : Prop where
  sound : Sound Tidy At (fun _ l => l.locked = true) Owes s.mon
  owner : ∀ p, s.held p = true ↔ s.mon.data.pid = pid p ∨ Clearing (s.mon.phase p)
  claim : ∀ p, (s.mon.phase p).spot = some .releaseClear → s.mon.data.pid = pid p
  locked : s.mon.data.locked = true → ∃ p, s.mon.data.pid = pid p

variable {pid} {s s' : Sys ι}

omit [DecidableEq ι] in
/-- Nobody enters the section in the middle of `release`, so a process that
has cleared the lock still has the spin lock. -/
theorem Owned.clearing (h : Owned pid s) {p : ι} (hp : Clearing (s.mon.phase p)) :
    (s.mon.phase p).locks = true ∧ s.mon.data = ⟨false, 0⟩ := by
  obtain ⟨k, hk, hAt⟩ : ∃ k, (s.mon.phase p).spot = some k ∧ ∀ l, At p k l ↔ l = ⟨false, 0⟩ := by
    rcases hp with hp | hp
    · exact ⟨_, hp, fun _ => Iff.rfl⟩
    · exact ⟨_, hp, fun _ => Iff.rfl⟩
  rcases Phase.spot_cases hk with hpoint | hres
  · exact ⟨Phase.locks_of_point hpoint, (hAt _).mp (h.sound.point p k hpoint)⟩
  · have hentry : At p k ⟨true, 1⟩ := h.sound.entry p k hres _ (fun hl => by cases hl)
    cases (hAt _).mp hentry

omit [DecidableEq ι] in
/-- Steps that leave the lock, the owners and the places in the code alone. -/
theorem Owned.frame (h : Owned pid s)
    (hs : Sound Tidy At (fun _ l => l.locked = true) Owes s'.mon)
    (hd : s'.mon.data = s.mon.data) (hh : s'.held = s.held)
    (hspot : ∀ p, (s'.mon.phase p).spot = (s.mon.phase p).spot) : Owned pid s' where
  sound := hs
  owner := by
    intro p
    unfold Clearing
    rw [hh, hd, hspot]
    exact h.owner p
  claim := by
    intro p hp
    rw [hspot] at hp
    rw [hd]
    exact h.claim p hp
  locked := by
    rw [hd]
    exact h.locked

/-- A step of `p` from one point of the code to another. -/
theorem Owned.move (h : Owned pid s) {p : ι} {ph' : Phase Point Unit}
    (hs : Sound Tidy At (fun _ l => l.locked = true) Owes s'.mon)
    (hphase : s'.mon.phase = Function.update s.mon.phase p ph')
    (hd : s'.mon.data = s.mon.data) (hh : s'.held = s.held)
    (hclear : Clearing ph' ↔ Clearing (s.mon.phase p))
    (hclaim : ph'.spot = some .releaseClear → s.mon.data.pid = pid p) : Owned pid s' where
  sound := hs
  owner := by
    intro q
    rw [hh, hd, hphase]
    by_cases hq : q = p
    · subst hq
      rw [Function.update_self, hclear]
      exact h.owner q
    · rw [Function.update_of_ne hq]
      exact h.owner q
  claim := by
    intro q hk
    rw [hd]
    rw [hphase] at hk
    by_cases hq : q = p
    · subst hq
      rw [Function.update_self] at hk
      exact hclaim hk
    · rw [Function.update_of_ne hq] at hk
      exact h.claim q hk
  locked := by
    rw [hd]
    exact h.locked

section Distinct

variable (hinj : Function.Injective pid) (hpid : ∀ p, pid p ≠ 0)
include hinj hpid

/-- `acquire` finds the lock free and takes it. -/
theorem Owned.acquire (h : Owned pid s) {p : ι} (hp : s.mon.phase p = .inside .acquireLoop)
    (hfree : s.mon.data.locked = false)
    (hs : Sound Tidy At (fun _ l => l.locked = true) Owes s'.mon)
    (hphase : s'.mon.phase = Function.update s.mon.phase p .out)
    (hd : s'.mon.data = ⟨true, pid p⟩) (hh : s'.held = Function.update s.held p true) :
    Owned pid s' := by
  have hzero : s.mon.data.pid = 0 := h.sound.inv hfree
  have hnone : ∀ q, s.mon.data.pid ≠ pid q := fun q he => hpid q (he.symm.trans hzero)
  refine ⟨hs, fun q => ?_, fun q hq => ?_, fun _ => ⟨p, by rw [hd]⟩⟩
  · rw [hd, hh, hphase]
    by_cases hq : q = p
    · subst hq
      simp
    · rw [Function.update_of_ne hq, Function.update_of_ne hq, h.owner q]
      refine or_congr (iff_of_false (hnone q) ?_) Iff.rfl
      exact fun he => hq (hinj he).symm
  · rw [hphase] at hq
    by_cases hqp : q = p
    · subst hqp
      rw [Function.update_self] at hq
      cases hq
    · rw [Function.update_of_ne hqp] at hq
      exact absurd (h.claim q hq) (hnone q)

/-- `release` clears the lock it holds. -/
theorem Owned.clear (h : Owned pid s) {p : ι} (hp : s.mon.phase p = .inside .releaseClear)
    (hs : Sound Tidy At (fun _ l => l.locked = true) Owes s'.mon)
    (hphase : s'.mon.phase = Function.update s.mon.phase p (.inside .releaseWake))
    (hd : s'.mon.data = ⟨false, 0⟩) (hh : s'.held = s.held) : Owned pid s' := by
  have hmine : s.mon.data.pid = pid p := h.claim p (by rw [hp]; rfl)
  have hothers : ∀ q, q ≠ p → s.mon.data.pid ≠ pid q := fun q hq he =>
    hq (hinj (he.symm.trans hmine))
  refine ⟨hs, fun q => ?_, fun q hq => ?_, fun hl => ?_⟩
  · rw [hd, hh, hphase, h.owner q]
    by_cases hq : q = p
    · subst hq
      rw [Function.update_self]
      exact iff_of_true (.inl hmine) (.inr (.inl rfl))
    · rw [Function.update_of_ne hq]
      exact or_congr (iff_of_false (hothers q hq) (Ne.symm (hpid q))) Iff.rfl
  · rw [hphase] at hq
    by_cases hqp : q = p
    · subst hqp
      rw [Function.update_self] at hq
      cases hq
    · rw [Function.update_of_ne hqp] at hq
      exact absurd (h.claim q hq) (hothers q hqp)
  · rw [hd] at hl
    cases hl

omit hinj in
/-- `release` returns. -/
theorem Owned.release (h : Owned pid s) {p : ι} (hp : s.mon.phase p = .inside .releaseEnd)
    (hs : Sound Tidy At (fun _ l => l.locked = true) Owes s'.mon)
    (hphase : s'.mon.phase = Function.update s.mon.phase p .out)
    (hd : s'.mon.data = s.mon.data) (hh : s'.held = Function.update s.held p false) :
    Owned pid s' := by
  have hclear : s.mon.data = ⟨false, 0⟩ := (h.clearing (p := p) (.inr (by rw [hp]; rfl))).2
  refine ⟨hs, fun q => ?_, fun q hq => ?_, fun hl => ?_⟩
  · rw [hd, hh, hphase]
    by_cases hq : q = p
    · subst hq
      rw [Function.update_self, Function.update_self, hclear]
      refine iff_of_false (by decide) ?_
      rintro (he | he | he)
      · exact hpid q he.symm
      · cases he
      · cases he
    · rw [Function.update_of_ne hq, Function.update_of_ne hq]
      exact h.owner q
  · rw [hphase] at hq
    rw [hd]
    by_cases hqp : q = p
    · subst hqp
      rw [Function.update_self] at hq
      cases hq
    · rw [Function.update_of_ne hqp] at hq
      exact h.claim q hq
  · rw [hd] at hl
    exact hd ▸ h.locked hl

/-- The steps of one process. -/
theorem Owned.own (h : Owned pid s) {p : ι} {ph ph' : Phase Point Unit}
    (hp : s.mon.phase p = ph)
    (hs : Sound Tidy At (fun _ l => l.locked = true) Owes s'.mon)
    (hphase : s'.mon.phase = Function.update s.mon.phase p ph') {r : Option (ι × Answer)}
    (hh : s'.held = note s.held r)
    (hown : Own (code pid) s.mon p ph ph' s'.mon.data s'.mon.lock s'.mon.table r) :
    Owned pid s' := by
  generalize hd : s'.mon.data = d' at hown
  generalize s'.mon.lock = l' at hown
  generalize s'.mon.table = t' at hown
  cases hown with
  | enter k hfree =>
      refine h.move hs hphase hd hh (by rw [hp]; exact Iff.rfl) fun hk => h.claim p ?_
      rw [hp]
      exact hk
  | @go k k' d hm =>
      cases k with
      | releaseClear =>
          cases hm
          exact h.clear hinj hpid hp hs hphase hd hh
      | _ =>
          simp only [code, next] at hm
          first | cases hm | (split at hm <;> cases hm)
  | @wake k k' c hm =>
      cases k with
      | releaseWake =>
          cases hm
          refine h.move hs hphase hd hh ?_ (fun hk => by cases hk)
          rw [hp]
          exact iff_of_true (.inr rfl) (.inl rfl)
      | _ =>
          simp only [code, next] at hm
          first | cases hm | (split at hm <;> cases hm)
  | @sleep k k' c hm =>
      cases k with
      | acquireLoop =>
          simp only [code, next] at hm
          split at hm <;> cases hm
          refine h.move hs hphase hd hh ?_ (fun hk => by cases hk)
          rw [hp]
          exact Iff.rfl
      | _ =>
          simp only [code, next] at hm
          first | cases hm | (split at hm <;> cases hm)
  | @again k k' d hm =>
      cases k with
      | acquireCheck =>
          simp only [code, next] at hm
          split at hm <;> cases hm
          refine h.move hs hphase hd hh ?_ (fun hk => by cases hk)
          rw [hp]
          refine iff_of_false ?_ ?_ <;> rintro (he | he) <;> cases he
      | releaseCheck =>
          simp only [code, next] at hm
          split at hm
          · next hmine =>
              cases hm
              refine h.move hs hphase hd hh ?_ (fun _ => hmine)
              rw [hp]
              refine iff_of_false ?_ ?_ <;> rintro (he | he) <;> cases he
          · cases hm
      | _ =>
          simp only [code, next] at hm
          first | cases hm | (split at hm <;> cases hm)
  | @done k d r hm =>
      cases k with
      | acquireLoop =>
          simp only [code, next] at hm
          split at hm
          · cases hm
          · next hfree =>
              cases hm
              exact h.acquire hinj hpid hp (by simpa using hfree) hs hphase hd hh
      | releaseEnd =>
          cases hm
          exact h.release hpid hp hs hphase hd hh
      | holding =>
          cases hm
          refine h.move hs hphase hd hh ?_ (fun hk => by cases hk)
          rw [hp]
          refine iff_of_false ?_ ?_ <;> rintro (he | he) <;> cases he
      | _ =>
          simp only [code, next] at hm
          first | cases hm | (split at hm <;> cases hm)
  | fall c k hfree =>
      refine h.move hs hphase hd hh (by rw [hp]; exact Iff.rfl) fun hk => h.claim p ?_
      rw [hp]
      exact hk
  | hand c k =>
      refine h.move hs hphase hd hh (by rw [hp]; exact Iff.rfl) fun hk => h.claim p ?_
      rw [hp]
      exact hk
  | doze c k =>
      refine h.move hs hphase hd hh (by rw [hp]; exact Iff.rfl) fun hk => h.claim p ?_
      rw [hp]
      exact hk

/-- One event. -/
theorem Owned.step (h : Owned pid s) {a : Event ι Call Unit} (hs : Sys.Step pid s a s') :
    Owned pid s' := by
  obtain ⟨hm, hh⟩ := hs
  have hsound := (disciplined pid).step h.sound hm
  rcases step_cases hm with ⟨p, r, -, hp, hs', hr⟩ | ⟨p, ph, ph', hp, hown, hphase, -⟩ |
    ⟨p, c, k, hp, -, hs', hr⟩ | ⟨p, -, hs', hr⟩ | ⟨c, -, hs', hr⟩
  · rw [hr] at hh
    refine h.move (p := p) hsound (by rw [hs']; rfl) (by rw [hs']; rfl) hh ?_ ?_
    · rw [hp]
      refine iff_of_false ?_ ?_
      · cases r <;> rintro (he | he) <;> cases he
      · rintro (he | he) <;> cases he
    · cases r <;> intro he <;> cases he
  · exact h.own hinj hpid hp hsound hphase hh hown
  · rw [hr] at hh
    refine h.frame hsound (by rw [hs']; rfl) hh fun q => ?_
    rw [hs']
    by_cases hq : q = p
    · subst hq
      rw [hp]
      simp only [State.setPhase, Function.update_self]
      rfl
    · simp only [State.setPhase, Function.update_of_ne hq]
      exact Phase.spot_rouse c _
  · rw [hr] at hh
    refine h.frame hsound (by rw [hs']; rfl) hh fun q => ?_
    rw [hs']
    by_cases hq : q = p
    · subst hq
      simp only [State.setPhase, Function.update_self, Phase.spot_stir]
    · simp only [State.setPhase, Function.update_of_ne hq]
  · rw [hr] at hh
    refine h.frame hsound (by rw [hs']; rfl) hh fun q => ?_
    rw [hs']
    exact Phase.spot_rouse c _

omit [DecidableEq ι] hinj in
theorem Owned.init (h : Sys.Init s) : Owned pid s := by
  obtain ⟨hfresh, hd, hheld⟩ := h
  refine ⟨.fresh hfresh (by rw [hd]; exact fun _ => rfl), fun p => ?_, fun p hp => ?_, fun hl => ?_⟩
  · rw [hheld p, hd, hfresh.2.2.1 p]
    refine iff_of_false (by decide) ?_
    rintro (he | he | he)
    · exact hpid p he.symm
    · cases he
    · cases he
  · rw [hfresh.2.2.1 p] at hp
    cases hp
  · rw [hd] at hl
    cases hl

/-- **Sleep locks exclude and do not strand sleepers.** At most one process
is between a completed `acquire` and its `release`; `holding` answers true
for that process and no other; and while neither the spin lock nor the
process table is held, a process asleep on the lock's channel sleeps because
the lock is held. -/
theorem sleeplock_excludes (h : Reach Sys.Init (Sys.Step pid) s) :
    (∀ p q, s.held p = true → s.held q = true → p = q) ∧
    (∀ p yes, result (code pid) s.mon (.run p) = some (p, .holding yes) →
      (yes = true ↔ s.held p = true)) ∧
    (s.mon.lock = none → s.mon.table = none → ∀ q k, s.mon.phase q = .asleep () k →
      s.mon.data.locked = true ∧ ∃ p, s.held p = true) := by
  have hown : Owned pid s :=
    Reach.invariant (I := Owned pid) (fun _ hs => .init hpid hs)
      (fun _ _ _ hi hs => hi.step hinj hpid hs) h
  refine ⟨fun p q hp hq => ?_, fun p yes hr => ?_, fun hl _ q k hq => ?_⟩
  · rcases (hown.owner p).mp hp with h1 | h1 <;> rcases (hown.owner q).mp hq with h2 | h2
    · exact hinj (h1.symm.trans h2)
    · rw [(hown.clearing h2).2] at h1
      exact absurd h1.symm (hpid p)
    · rw [(hown.clearing h1).2] at h2
      exact absurd h2.symm (hpid q)
    · exact hown.sound.exclusive (hown.clearing h1).1 (hown.clearing h2).1
  · -- the answer is given inside the section, where nobody is clearing the lock
    obtain ⟨k, d, hk, hm⟩ := result_run hr
    rw [hown.owner p]
    cases k with
    | holding =>
        cases hm
        have hnot : ¬Clearing (s.mon.phase p) := by
          rw [hk]
          rintro (he | he) <;> cases he
        simp [hnot]
    | _ =>
        simp only [code, next] at hm
        first | cases hm | (split at hm <;> cases hm)
  · have hlocked := hown.sound.quiet hl (q := q) (c := ()) (by rw [hq]; rfl)
    obtain ⟨p, hp⟩ := hown.locked hlocked
    exact ⟨hlocked, p, (hown.owner p).mpr (.inl hp)⟩

end Distinct

end Code

/-- Two processes, with pids 1 and 2. -/
def twoPids : Bool → UInt32
  | false => 1
  | true => 2

/-- The second process has found the lock taken by the first. -/
theorem sleeplock_excludes_waiter :
    ∃ s, Reach Sys.Init (Sys.Step twoPids) s ∧ s.mon.lock = none ∧ s.mon.table = none ∧
      s.mon.phase true = .asleep () .acquireLoop ∧ s.held false = true ∧
      s.mon.data.locked = true := by
  let s₀ : Sys Bool :=
    ⟨⟨Lock.new, none, none, fun _ => .out, fun _ => false, fun _ => []⟩, fun _ => false⟩
  have h₀ : Reach Sys.Init (Sys.Step twoPids) s₀ :=
    .init ⟨⟨rfl, rfl, fun _ => rfl, fun _ => rfl⟩, rfl, fun _ => rfl⟩
  obtain ⟨s, hs, hl, ht, hq, hh⟩ : ∃ s,
      replay (Sys.next twoPids) s₀
        (.call false .acquire :: List.replicate 4 (.run false) ++
          .call true .acquire :: List.replicate 7 (.run true)) = some s ∧
      s.mon.lock = none ∧ s.mon.table = none ∧ s.mon.phase true = .asleep () .acquireLoop ∧
      s.held false = true := ⟨_, rfl, rfl, rfl, rfl, rfl⟩
  have hreach := h₀.replay (fun _ _ _ => Sys.step_of_next twoPids) hs
  have hinj : ∀ p q, twoPids p = twoPids q → p = q := by decide
  have hex := sleeplock_excludes (fun p q => hinj p q) (by decide) hreach
  exact ⟨s, hreach, hl, ht, hq, hh, (hex.2.2 hl ht true _ hq).1⟩

end Rxv64.Sync.Sleeplock
