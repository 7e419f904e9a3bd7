import Mathlib.Logic.Function.Basic
import Rxv64.Lib.Runs

/-!
# Monitor — critical sections that sleep and wake each other

Some data is protected by a spin lock; processes run code on it with the
lock held. The code may call `wakeup` on a channel, which takes the lock of
the process table, and it may `sleep` on a channel: it takes the lock of the
process table, gives back its own, is marked as asleep and gives back the
lock of the process table; awake again, it takes its own lock and goes on.
Every acquisition and every release is a step of its own, so the steps of
other processes come in between wherever the locks allow it.

`Disciplined` is what has to be checked of the code, section by section:
a process goes to sleep only while its wait condition holds, and code that
may have broken a wait condition owes a wakeup before it gives back the
lock. Then nobody sleeps without reason while the lock is free.
-/

namespace Monitor

open Runs

/-- What the code does next. -/
inductive Move (δ κ γ τ : Type) where
  /-- go on at `k` with the data changed -/
  | go (d : δ) (k : κ)
  /-- `wakeup(c)` -/
  | wake (c : γ) (k : κ)
  /-- `sleep(c, lock)`, to go on at `k` -/
  | sleep (c : γ) (k : κ)
  /-- end the section and enter the next one at `k` -/
  | again (d : δ) (k : κ)
  /-- end the section and return -/
  | done (d : δ) (r : τ)
  | panic

/-- Code for processes `ι`: how a call starts, and what it does at each of
its points `κ` given whether its process has been killed. A call knows the
number of calls its process has made before. -/
structure Code (ι ρ δ κ γ τ : Type) where
  start : ι → Nat → ρ → κ
  next : ι → (dead : Bool) → κ → δ → Move δ κ γ τ

/-- Where a process is. -/
inductive Phase (κ γ : Type) where
  | out
  /-- spins for the lock -/
  | enter (k : κ)
  /-- has the lock -/
  | inside (k : κ)
  /-- has the lock, spins in `wakeup` for the process table -/
  | waking (c : γ) (k : κ)
  /-- has the lock, spins in `sleep` for the process table -/
  | falling (c : γ) (k : κ)
  /-- has both locks -/
  | handing (c : γ) (k : κ)
  /-- has the process table, not yet marked -/
  | dozing (c : γ) (k : κ)
  | asleep (c : γ) (k : κ)

namespace Phase

variable {κ γ : Type}

/-- The process has the lock. -/
def locks : Phase κ γ → Bool
  | inside _ | waking _ _ | falling _ _ | handing _ _ => true
  | out | enter _ | dozing _ _ | asleep _ _ => false

/-- The process has the lock of the process table. -/
def tables : Phase κ γ → Bool
  | handing _ _ | dozing _ _ => true
  | out | enter _ | inside _ | waking _ _ | falling _ _ | asleep _ _ => false

/-- The channel of a process that sleeps or has decided to. -/
def waits : Phase κ γ → Option γ
  | falling c _ | handing c _ | dozing c _ | asleep c _ => some c
  | out | enter _ | inside _ | waking _ _ => none

/-- Where the process goes on once it has the lock again. -/
def resumes : Phase κ γ → Option κ
  | enter k | falling _ k | handing _ k | dozing _ k | asleep _ k => some k
  | out | inside _ | waking _ _ => none

/-- Where the process is in its section. -/
def point : Phase κ γ → Option κ
  | inside k | waking _ k => some k
  | out | enter _ | falling _ _ | handing _ _ | dozing _ _ | asleep _ _ => none

/-- Where the process is in its call. -/
def spot : Phase κ γ → Option κ
  | out => none
  | enter k | inside k | waking _ k | falling _ k | handing _ k | dozing _ k | asleep _ k => some k

/-- What `wakeup(c)` does to a process. -/
def rouse [DecidableEq γ] (c : γ) : Phase κ γ → Phase κ γ
  | asleep c' k => if c' = c then enter k else asleep c' k
  | ph => ph

/-- What `kill` does to the state of a process. -/
def stir : Phase κ γ → Phase κ γ
  | asleep _ k => enter k
  | ph => ph

@[simp] theorem spot_stir (ph : Phase κ γ) : ph.stir.spot = ph.spot := by
  cases ph <;> rfl

@[simp] theorem spot_rouse [DecidableEq γ] (c : γ) (ph : Phase κ γ) :
    (ph.rouse c).spot = ph.spot := by
  cases ph with
  | asleep c' k =>
      rw [rouse]
      split <;> rfl
  | _ => rfl

@[simp] theorem resumes_stir (ph : Phase κ γ) : ph.stir.resumes = ph.resumes := by
  cases ph <;> rfl

@[simp] theorem resumes_rouse [DecidableEq γ] (c : γ) (ph : Phase κ γ) :
    (ph.rouse c).resumes = ph.resumes := by
  cases ph with
  | asleep c' k =>
      rw [rouse]
      split <;> rfl
  | _ => rfl

/-- Waking and killing put nobody to sleep. -/
theorem waits_stir (ph : Phase κ γ) (c : γ) (h : ph.stir.waits = some c) :
    ph.waits = some c := by
  cases ph with
  | asleep c' k => cases h
  | _ => exact h

theorem waits_rouse [DecidableEq γ] (c : γ) (ph : Phase κ γ) (c' : γ)
    (h : (ph.rouse c).waits = some c') : ph.waits = some c' := by
  cases ph with
  | asleep c₀ k =>
      rw [rouse] at h
      split at h
      · cases h
      · exact h
  | _ => exact h

theorem spot_cases {ph : Phase κ γ} {k : κ} (h : ph.spot = some k) :
    ph.point = some k ∨ ph.resumes = some k := by
  cases ph with
  | out => cases h
  | inside k' => exact .inl h
  | waking c k' => exact .inl h
  | _ => exact .inr h

end Phase

/-- `begun p` are the calls process `p` has made. -/
structure State (ι ρ δ κ γ : Type) where
  data : δ
  lock : Option ι
  table : Option ι
  phase : ι → Phase κ γ
  killed : ι → Bool
  begun : ι → List ρ

/-- What happens: a process makes a call or takes its next step, somebody
kills a process or calls `wakeup` for reasons of his own. -/
inductive Event (ι ρ γ : Type) where
  | call (p : ι) (r : ρ)
  | run (p : ι)
  | kill (p : ι)
  | wakeup (c : γ)

section Steps

variable {ι ρ δ κ γ τ : Type} [DecidableEq ι] [DecidableEq γ]

namespace State

def setPhase (s : State ι ρ δ κ γ) (p : ι) (ph : Phase κ γ) : State ι ρ δ κ γ :=
  { s with phase := Function.update s.phase p ph }

def rouse (s : State ι ρ δ κ γ) (c : γ) : State ι ρ δ κ γ :=
  { s with phase := fun q => (s.phase q).rouse c }

/-- Nothing has been called yet. -/
def Fresh (s : State ι ρ δ κ γ) : Prop :=
  s.lock = none ∧ s.table = none ∧ (∀ p, s.phase p = .out) ∧ ∀ p, s.begun p = []

end State

/-- A step inside the section. -/
def act (s : State ι ρ δ κ γ) (p : ι) : Move δ κ γ τ → Option (State ι ρ δ κ γ)
  | .go d k => some { s.setPhase p (.inside k) with data := d }
  | .wake c k => some (s.setPhase p (.waking c k))
  | .sleep c k => some (s.setPhase p (.falling c k))
  | .again d k => some { s.setPhase p (.enter k) with data := d, lock := none }
  | .done d _ => some { s.setPhase p .out with data := d, lock := none }
  | .panic => none

/-- The next step of a process; `none` while it has to wait. -/
def run (M : Code ι ρ δ κ γ τ) (s : State ι ρ δ κ γ) (p : ι) : Option (State ι ρ δ κ γ) :=
  match s.phase p with
  | .out => none
  | .enter k =>
      if s.lock = none then some { s.setPhase p (.inside k) with lock := some p } else none
  | .inside k => act s p (M.next p (s.killed p) k s.data)
  | .waking c k => if s.table = none then some ((s.rouse c).setPhase p (.inside k)) else none
  | .falling c k =>
      if s.table = none then some { s.setPhase p (.handing c k) with table := some p } else none
  | .handing c k => some { s.setPhase p (.dozing c k) with lock := none }
  | .dozing c k => some { s.setPhase p (.asleep c k) with table := none }
  | .asleep _ _ => none

/-- Process `p` has made the call `r` and wants the lock. -/
def State.called (M : Code ι ρ δ κ γ τ) (s : State ι ρ δ κ γ) (p : ι) (r : ρ) :
    State ι ρ δ κ γ :=
  { s.setPhase p (.enter (M.start p (s.begun p).length r)) with
    begun := Function.update s.begun p (s.begun p ++ [r]) }

def step (M : Code ι ρ δ κ γ τ) (s : State ι ρ δ κ γ) :
    Event ι ρ γ → Option (State ι ρ δ κ γ)
  | .call p r =>
      match s.phase p with
      | .out => some (s.called M p r)
      | _ => none
  | .run p => run M s p
  | .kill p =>
      if s.table = none then
        some { s.setPhase p (s.phase p).stir with killed := Function.update s.killed p true }
      else none
  | .wakeup c => if s.table = none then some (s.rouse c) else none

/-- What a step returns, if it ends a call. -/
def result (M : Code ι ρ δ κ γ τ) (s : State ι ρ δ κ γ) : Event ι ρ γ → Option (ι × τ)
  | .run p =>
      match s.phase p with
      | .inside k =>
          match M.next p (s.killed p) k s.data with
          | .done _ r => some (p, r)
          | _ => none
      | _ => none
  | _ => none

omit [DecidableEq ι] [DecidableEq γ] in
theorem result_run {M : Code ι ρ δ κ γ τ} {s : State ι ρ δ κ γ} {p q : ι} {r : τ}
    (h : result M s (.run p) = some (q, r)) :
    ∃ k d, s.phase p = .inside k ∧ M.next p (s.killed p) k s.data = .done d r := by
  simp only [result] at h
  split at h
  · next k hk =>
      split at h
      · next d r' hm =>
          cases h
          exact ⟨k, d, hk, hm⟩
      · cases h
  · cases h

/-- One event. -/
def Step (M : Code ι ρ δ κ γ τ) (s : State ι ρ δ κ γ) (a : Event ι ρ γ)
    (s' : State ι ρ δ κ γ) : Prop := step M s a = some s'

/-- The steps of a process that leave the others where they are: it goes
from `ph` to `ph'`, data and locks become those given, and its call may
return. -/
inductive Own (M : Code ι ρ δ κ γ τ) (s : State ι ρ δ κ γ) (p : ι) :
    Phase κ γ → Phase κ γ → δ → Option ι → Option ι → Option (ι × τ) → Prop where
  | enter (k : κ) : s.lock = none → Own M s p (.enter k) (.inside k) s.data (some p) s.table none
  | go {k k' : κ} {d : δ} : M.next p (s.killed p) k s.data = .go d k' →
      Own M s p (.inside k) (.inside k') d s.lock s.table none
  | wake {k k' : κ} {c : γ} : M.next p (s.killed p) k s.data = .wake c k' →
      Own M s p (.inside k) (.waking c k') s.data s.lock s.table none
  | sleep {k k' : κ} {c : γ} : M.next p (s.killed p) k s.data = .sleep c k' →
      Own M s p (.inside k) (.falling c k') s.data s.lock s.table none
  | again {k k' : κ} {d : δ} : M.next p (s.killed p) k s.data = .again d k' →
      Own M s p (.inside k) (.enter k') d none s.table none
  | done {k : κ} {d : δ} {r : τ} : M.next p (s.killed p) k s.data = .done d r →
      Own M s p (.inside k) .out d none s.table (some (p, r))
  | fall (c : γ) (k : κ) : s.table = none →
      Own M s p (.falling c k) (.handing c k) s.data s.lock (some p) none
  | hand (c : γ) (k : κ) : Own M s p (.handing c k) (.dozing c k) s.data none s.table none
  | doze (c : γ) (k : κ) : Own M s p (.dozing c k) (.asleep c k) s.data s.lock none none

/-- Everything a step can do. -/
theorem step_cases {M : Code ι ρ δ κ γ τ} {s s' : State ι ρ δ κ γ} {a : Event ι ρ γ}
    (h : Step M s a s') :
    (∃ p r, a = .call p r ∧ s.phase p = .out ∧ s' = s.called M p r ∧ result M s a = none) ∨
    (∃ p ph ph', s.phase p = ph ∧ Own M s p ph ph' s'.data s'.lock s'.table (result M s a) ∧
      s'.phase = Function.update s.phase p ph' ∧ s'.begun = s.begun) ∨
    (∃ p c k, s.phase p = .waking c k ∧ s.table = none ∧
      s' = (s.rouse c).setPhase p (.inside k) ∧ result M s a = none) ∨
    (∃ p, s.table = none ∧
      s' = { s.setPhase p (s.phase p).stir with killed := Function.update s.killed p true } ∧
      result M s a = none) ∨
    (∃ c, s.table = none ∧ s' = s.rouse c ∧ result M s a = none) := by
  cases a with
  | call p r =>
      simp only [Step, step] at h
      split at h
      · next hp =>
          cases h
          exact .inl ⟨p, r, rfl, hp, rfl, rfl⟩
      · cases h
  | run p =>
      simp only [Step, step, run] at h
      split at h
      · cases h
      · next k hp =>
          split at h
          · next hl =>
              cases h
              refine .inr (.inl ⟨p, _, _, hp, ?_, rfl, rfl⟩)
              simp only [result, hp]
              exact .enter k hl
          · cases h
      · next k hp =>
          cases hm : M.next p (s.killed p) k s.data with
          | go d k' =>
              rw [hm] at h
              cases h
              refine .inr (.inl ⟨p, _, _, hp, ?_, rfl, rfl⟩)
              simp only [result, hp, hm]
              exact .go hm
          | wake c k' =>
              rw [hm] at h
              cases h
              refine .inr (.inl ⟨p, _, _, hp, ?_, rfl, rfl⟩)
              simp only [result, hp, hm]
              exact .wake hm
          | sleep c k' =>
              rw [hm] at h
              cases h
              refine .inr (.inl ⟨p, _, _, hp, ?_, rfl, rfl⟩)
              simp only [result, hp, hm]
              exact .sleep hm
          | again d k' =>
              rw [hm] at h
              cases h
              refine .inr (.inl ⟨p, _, _, hp, ?_, rfl, rfl⟩)
              simp only [result, hp, hm]
              exact .again hm
          | done d r =>
              rw [hm] at h
              cases h
              refine .inr (.inl ⟨p, _, _, hp, ?_, rfl, rfl⟩)
              simp only [result, hp, hm]
              exact .done hm
          | panic =>
              rw [hm] at h
              cases h
      · next c k hp =>
          split at h
          · next ht =>
              cases h
              exact .inr (.inr (.inl ⟨p, c, k, hp, ht, rfl, by simp only [result, hp]⟩))
          · cases h
      · next c k hp =>
          split at h
          · next ht =>
              cases h
              refine .inr (.inl ⟨p, _, _, hp, ?_, rfl, rfl⟩)
              simp only [result, hp]
              exact .fall c k ht
          · cases h
      · next c k hp =>
          cases h
          refine .inr (.inl ⟨p, _, _, hp, ?_, rfl, rfl⟩)
          simp only [result, hp]
          exact .hand c k
      · next c k hp =>
          cases h
          refine .inr (.inl ⟨p, _, _, hp, ?_, rfl, rfl⟩)
          simp only [result, hp]
          exact .doze c k
      · cases h
  | kill p =>
      simp only [Step, step] at h
      split at h
      · next ht =>
          cases h
          exact .inr (.inr (.inr (.inl ⟨p, ht, rfl, rfl⟩)))
      · cases h
  | wakeup c =>
      simp only [Step, step] at h
      split at h
      · next ht =>
          cases h
          exact .inr (.inr (.inr (.inr ⟨c, ht, rfl, rfl⟩)))
      · cases h

end Steps

/-! ## The discipline -/

section Discipline

variable {ι ρ δ κ γ τ : Type} (M : Code ι ρ δ κ γ τ)

/-- What has to be checked of the code: `J` holds of the data, `A` at a
point of a section, `W c` whenever somebody sleeps on `c`, and code at a
point that owes a wakeup has yet to call it. -/
structure Disciplined (J : δ → Prop) (A : ι → κ → δ → Prop) (W : γ → δ → Prop)
    (owes : κ → γ → Prop) : Prop where
  start : ∀ p n r d, J d → A p (M.start p n r) d
  keeps : ∀ p k d, A p k d → J d
  go : ∀ {p b k d d' k'}, A p k d → M.next p b k d = .go d' k' →
    A p k' d' ∧ ∀ c, W c d ∨ owes k c → W c d' ∨ owes k' c
  wake : ∀ {p b k d c k'}, A p k d → M.next p b k d = .wake c k' →
    A p k' d ∧ ∀ c', W c' d ∨ owes k c' → W c' d ∨ c' = c ∨ owes k' c'
  sleep : ∀ {p b k d c k'}, A p k d → M.next p b k d = .sleep c k' →
    (∀ d', J d' → A p k' d') ∧ W c d ∧ ∀ c', owes k c' → W c' d
  again : ∀ {p b k d d' k'}, A p k d → M.next p b k d = .again d' k' →
    J d' ∧ (∀ d'', J d'' → A p k' d'') ∧ ∀ c, W c d ∨ owes k c → W c d'
  done : ∀ {p b k d d' r}, A p k d → M.next p b k d = .done d' r →
    J d' ∧ ∀ c, W c d ∨ owes k c → W c d'

/-- Any code, if nothing is asked of it: what remains is who has the locks. -/
theorem Disciplined.any :
    Disciplined M (fun _ => True) (fun _ _ _ => True) (fun _ _ => True) (fun _ _ => False) where
  start _ _ _ _ _ := trivial
  keeps _ _ _ _ := trivial
  go _ _ := ⟨trivial, fun _ _ => .inl trivial⟩
  wake _ _ := ⟨trivial, fun _ _ => .inl trivial⟩
  sleep _ _ := ⟨fun _ _ => trivial, trivial, fun _ _ => trivial⟩
  again _ _ := ⟨trivial, fun _ _ => trivial, fun _ _ => trivial⟩
  done _ _ := ⟨trivial, fun _ _ => trivial⟩

/-- The wakeups a process has yet to call. -/
def Debt (owes : κ → γ → Prop) : Phase κ γ → γ → Prop
  | .inside k, c => owes k c
  | .waking c' k, c => c = c' ∨ owes k c
  | _, _ => False

/-- What holds in every state. -/
structure Sound (J : δ → Prop) (A : ι → κ → δ → Prop) (W : γ → δ → Prop)
    (owes : κ → γ → Prop) (s : State ι ρ δ κ γ) : Prop where
  locked : ∀ p, s.lock = some p ↔ (s.phase p).locks = true
  tabled : ∀ p, s.table = some p ↔ (s.phase p).tables = true
  inv : J s.data
  entry : ∀ p k, (s.phase p).resumes = some k → ∀ d, J d → A p k d
  point : ∀ p k, (s.phase p).point = some k → A p k s.data
  waits : ∀ q c, (s.phase q).waits = some c → W c s.data ∨ ∃ r, Debt owes (s.phase r) c

variable {M} {J : δ → Prop} {A : ι → κ → δ → Prop} {W : γ → δ → Prop}
  {owes : κ → γ → Prop} {s s' : State ι ρ δ κ γ}

theorem Debt.locks {ph : Phase κ γ} {c : γ} (h : Debt owes ph c) : ph.locks = true := by
  cases ph with
  | inside k => rfl
  | waking c' k => rfl
  | _ => exact h.elim

theorem Phase.locks_of_point {ph : Phase κ γ} {k : κ} (h : ph.point = some k) :
    ph.locks = true := by
  cases ph with
  | inside k => rfl
  | waking c k => rfl
  | _ => cases h

/-- **Nobody sleeps without reason**: while the lock is free, whoever is
asleep on a channel waits for what its wait condition says. -/
theorem Sound.quiet (h : Sound J A W owes s) (hl : s.lock = none) {q : ι} {c : γ}
    (hq : (s.phase q).waits = some c) : W c s.data := by
  rcases h.waits q c hq with hw | ⟨r, hr⟩
  · exact hw
  · have := (h.locked r).mpr hr.locks
    rw [hl] at this
    cases this

/-- Two processes do not have the lock. -/
theorem Sound.exclusive (h : Sound J A W owes s) {p q : ι} (hp : (s.phase p).locks = true)
    (hq : (s.phase q).locks = true) : p = q :=
  Option.some.inj (((h.locked p).mpr hp).symm.trans ((h.locked q).mpr hq))

/-- Some sleepers are awake: they want the lock and go on where they were. -/
theorem Sound.stirred (h : Sound J A W owes s) (hd : s'.data = s.data) (hl : s'.lock = s.lock)
    (ht : s'.table = s.table)
    (hph : ∀ q, s'.phase q = s.phase q ∨ ∃ c k, s.phase q = .asleep c k ∧ s'.phase q = .enter k) :
    Sound J A W owes s' := by
  have hcases : ∀ q, (s'.phase q).locks = (s.phase q).locks ∧
      (s'.phase q).tables = (s.phase q).tables ∧ (s'.phase q).resumes = (s.phase q).resumes ∧
      (s'.phase q).point = (s.phase q).point ∧
      (∀ c, (s'.phase q).waits = some c → (s.phase q).waits = some c) ∧
      ∀ c, Debt owes (s.phase q) c → Debt owes (s'.phase q) c := by
    intro q
    rcases hph q with he | ⟨c, k, h1, h2⟩
    · rw [he]
      exact ⟨rfl, rfl, rfl, rfl, fun _ h => h, fun _ h => h⟩
    · rw [h1, h2]
      exact ⟨rfl, rfl, rfl, rfl, fun _ h => (by cases h), fun _ h => h.elim⟩
  refine ⟨fun p => ?_, fun p => ?_, ?_, fun p k hk => ?_, fun p k hk => ?_, fun q c hq => ?_⟩
  · rw [hl, (hcases p).1]
    exact h.locked p
  · rw [ht, (hcases p).2.1]
    exact h.tabled p
  · rw [hd]
    exact h.inv
  · rw [(hcases p).2.2.1] at hk
    exact h.entry p k hk
  · rw [(hcases p).2.2.2.1] at hk
    rw [hd]
    exact h.point p k hk
  · rw [hd]
    rcases h.waits q c ((hcases q).2.2.2.2.1 c hq) with hw | ⟨r, hr⟩
    · exact .inl hw
    · exact .inr ⟨r, (hcases r).2.2.2.2.2 c hr⟩

/-- What a step of one process does to a lock it may hold. -/
def Hands (p : ι) (before after : Bool) (l l' : Option ι) : Prop :=
  (after = before ∧ l' = l) ∨ (after = true ∧ l = none ∧ l' = some p) ∨
    (after = false ∧ before = true ∧ l' = none)

variable [DecidableEq ι]

theorem Hands.update {f : Phase κ γ → Bool} {phase : ι → Phase κ γ} {l l' : Option ι} {p : ι}
    {ph' : Phase κ γ} (h : ∀ q, l = some q ↔ f (phase q) = true)
    (hp : Hands p (f (phase p)) (f ph') l l') (q : ι) :
    l' = some q ↔ f (Function.update phase p ph' q) = true := by
  rcases hp with ⟨hf, rfl⟩ | ⟨hf, rfl, rfl⟩ | ⟨hf, hb, rfl⟩
  · by_cases hq : q = p
    · subst hq
      rw [Function.update_self, hf]
      exact h q
    · rw [Function.update_of_ne hq]
      exact h q
  · by_cases hq : q = p
    · subst hq
      rw [Function.update_self, hf]
      exact iff_of_true rfl rfl
    · rw [Function.update_of_ne hq, ← h q]
      simpa using Ne.symm hq
  · by_cases hq : q = p
    · subst hq
      rw [Function.update_self, hf]
      simp
    · -- the lock was held by `p`, so not by `q`
      rw [Function.update_of_ne hq, ← h q, (h p).mpr hb]
      simpa using Ne.symm hq

/-- A step of one process. -/
theorem Sound.own (h : Sound J A W owes s) {p : ι} {ph' : Phase κ γ}
    (hphase : s'.phase = Function.update s.phase p ph')
    (hlock : Hands p (s.phase p).locks ph'.locks s.lock s'.lock)
    (htable : Hands p (s.phase p).tables ph'.tables s.table s'.table)
    (hdata : s'.data = s.data ∨ (s.phase p).locks = true) (hinv : J s'.data)
    (hentry : ∀ k, ph'.resumes = some k → ∀ d, J d → A p k d)
    (hpoint : ∀ k, ph'.point = some k → A p k s'.data)
    (hwait : ∀ c, ph'.waits = some c → (s.phase p).waits = some c ∨ W c s'.data)
    (hdebt : ∀ c, W c s.data ∨ Debt owes (s.phase p) c → W c s'.data ∨ Debt owes ph' c) :
    Sound J A W owes s' := by
  -- whoever waits for `c` is still owed a wakeup, or its condition holds
  have hkeep : ∀ c, (W c s.data ∨ ∃ r, Debt owes (s.phase r) c) →
      W c s'.data ∨ ∃ r, Debt owes (s'.phase r) c := by
    intro c hc
    have hp : W c s.data ∨ Debt owes (s.phase p) c →
        W c s'.data ∨ ∃ r, Debt owes (s'.phase r) c := by
      intro hc
      rcases hdebt c hc with hw | hd
      · exact .inl hw
      · refine .inr ⟨p, ?_⟩
        rw [hphase, Function.update_self]
        exact hd
    rcases hc with hw | ⟨r, hr⟩
    · exact hp (.inl hw)
    · by_cases hrp : r = p
      · subst hrp
        exact hp (.inr hr)
      · refine .inr ⟨r, ?_⟩
        rw [hphase, Function.update_of_ne hrp]
        exact hr
  refine ⟨?_, ?_, hinv, fun q k hk => ?_, fun q k hk => ?_, fun q c hq => ?_⟩
  · rw [hphase]
    exact Hands.update h.locked hlock
  · rw [hphase]
    exact Hands.update h.tabled htable
  · by_cases hqp : q = p
    · subst hqp
      rw [hphase, Function.update_self] at hk
      exact hentry k hk
    · rw [hphase, Function.update_of_ne hqp] at hk
      exact h.entry q k hk
  · by_cases hqp : q = p
    · subst hqp
      rw [hphase, Function.update_self] at hk
      exact hpoint k hk
    · rw [hphase, Function.update_of_ne hqp] at hk
      rcases hdata with hd | hl
      · rw [hd]
        exact h.point q k hk
      · exact absurd (h.exclusive (Phase.locks_of_point hk) hl) hqp
  · by_cases hqp : q = p
    · subst hqp
      rw [hphase, Function.update_self] at hq
      rcases hwait c hq with hw | hw
      · exact hkeep c (h.waits q c hw)
      · exact .inl hw
    · rw [hphase, Function.update_of_ne hqp] at hq
      exact hkeep c (h.waits q c hq)

/-- The steps of a process that leave the others where they are. -/
theorem Disciplined.own (hM : Disciplined M J A W owes) (h : Sound J A W owes s) {p : ι}
    {ph ph' : Phase κ γ} (hp : s.phase p = ph)
    {r : Option (ι × τ)} (hown : Own M s p ph ph' s'.data s'.lock s'.table r)
    (hphase : s'.phase = Function.update s.phase p ph') : Sound J A W owes s' := by
  have hA : ∀ k, ph = .inside k → A p k s.data := fun k hk => h.point p k (by rw [hp, hk]; rfl)
  generalize hd : s'.data = d' at hown
  generalize hl : s'.lock = l' at hown
  generalize ht : s'.table = t' at hown
  cases hown with
  | enter k hfree =>
      have hk : A p k s.data := h.entry p k (by rw [hp]; rfl) _ h.inv
      refine h.own hphase (.inr (.inl ⟨rfl, hfree, hl⟩)) (.inl ⟨by rw [hp]; rfl, ht⟩) (.inl hd)
        (hd ▸ h.inv) (fun k hk => by cases hk) (fun k' hk' => ?_) (fun c hc => by cases hc) ?_
      · cases hk'
        rw [hd]
        exact hk
      · rw [hp, hd]
        exact fun c hc => .inl (hc.resolve_right id)
  | go hm =>
      obtain ⟨hA', hdebt⟩ := hM.go (hA _ rfl) hm
      refine h.own hphase (.inl ⟨by rw [hp]; rfl, hl⟩) (.inl ⟨by rw [hp]; rfl, ht⟩)
        (.inr (by rw [hp]; rfl)) (hd ▸ hM.keeps _ _ _ hA') (fun k hk => by cases hk)
        (fun k' hk' => ?_) (fun c hc => by cases hc) ?_
      · cases hk'
        rw [hd]
        exact hA'
      · rw [hp, hd]
        exact hdebt
  | wake hm =>
      obtain ⟨hA', hdebt⟩ := hM.wake (hA _ rfl) hm
      refine h.own hphase (.inl ⟨by rw [hp]; rfl, hl⟩) (.inl ⟨by rw [hp]; rfl, ht⟩) (.inl hd)
        (hd ▸ h.inv) (fun k hk => by cases hk) (fun k' hk' => ?_) (fun c hc => by cases hc) ?_
      · cases hk'
        rw [hd]
        exact hA'
      · rw [hp, hd]
        exact hdebt
  | sleep hm =>
      obtain ⟨hA', hw, hdebt⟩ := hM.sleep (hA _ rfl) hm
      refine h.own hphase (.inl ⟨by rw [hp]; rfl, hl⟩) (.inl ⟨by rw [hp]; rfl, ht⟩) (.inl hd)
        (hd ▸ h.inv) (fun k hk => ?_) (fun k hk => by cases hk) (fun c hc => ?_) ?_
      · cases hk
        exact hA'
      · cases hc
        rw [hd]
        exact .inr hw
      · rw [hp, hd]
        exact fun c hc => .inl (hc.elim id (hdebt c))
  | again hm =>
      obtain ⟨hJ, hA', hdebt⟩ := hM.again (hA _ rfl) hm
      refine h.own hphase (.inr (.inr ⟨rfl, by rw [hp]; rfl, hl⟩)) (.inl ⟨by rw [hp]; rfl, ht⟩)
        (.inr (by rw [hp]; rfl)) (hd ▸ hJ) (fun k hk => ?_) (fun k hk => by cases hk)
        (fun c hc => by cases hc) ?_
      · cases hk
        exact hA'
      · rw [hp, hd]
        exact fun c hc => .inl (hdebt c hc)
  | done hm =>
      obtain ⟨hJ, hdebt⟩ := hM.done (hA _ rfl) hm
      refine h.own hphase (.inr (.inr ⟨rfl, by rw [hp]; rfl, hl⟩)) (.inl ⟨by rw [hp]; rfl, ht⟩)
        (.inr (by rw [hp]; rfl)) (hd ▸ hJ) (fun k hk => by cases hk) (fun k hk => by cases hk)
        (fun c hc => by cases hc) ?_
      rw [hp, hd]
      exact fun c hc => .inl (hdebt c hc)
  | fall c k hfree =>
      refine h.own hphase (.inl ⟨by rw [hp]; rfl, hl⟩) (.inr (.inl ⟨rfl, hfree, ht⟩)) (.inl hd)
        (hd ▸ h.inv) (fun k' hk => ?_) (fun k hk => by cases hk) (fun c' hc => ?_) ?_
      · exact h.entry p k' (by rw [hp]; exact hk)
      · rw [hp]
        exact .inl hc
      · rw [hp, hd]
        exact fun c hc => hc
  | hand c k =>
      refine h.own hphase (.inr (.inr ⟨rfl, by rw [hp]; rfl, hl⟩)) (.inl ⟨by rw [hp]; rfl, ht⟩)
        (.inl hd) (hd ▸ h.inv) (fun k' hk => ?_) (fun k hk => by cases hk) (fun c' hc => ?_) ?_
      · exact h.entry p k' (by rw [hp]; exact hk)
      · rw [hp]
        exact .inl hc
      · rw [hp, hd]
        exact fun c hc => hc
  | doze c k =>
      refine h.own hphase (.inl ⟨by rw [hp]; rfl, hl⟩) (.inr (.inr ⟨rfl, by rw [hp]; rfl, ht⟩))
        (.inl hd) (hd ▸ h.inv) (fun k' hk => ?_) (fun k hk => by cases hk) (fun c' hc => ?_) ?_
      · exact h.entry p k' (by rw [hp]; exact hk)
      · rw [hp]
        exact .inl hc
      · rw [hp, hd]
        exact fun c hc => hc

/-- A process makes a call. -/
theorem Disciplined.called (hM : Disciplined M J A W owes) (h : Sound J A W owes s) {p : ι}
    (hp : s.phase p = .out) (r : ρ) : Sound J A W owes (s.called M p r) := by
  refine h.own rfl (.inl ⟨by rw [hp]; rfl, rfl⟩) (.inl ⟨by rw [hp]; rfl, rfl⟩) (.inl rfl) h.inv
    (fun k hk => ?_) (fun k hk => by cases hk) (fun c hc => by cases hc) ?_
  · cases hk
    exact hM.start p _ r
  · rw [hp]
    exact fun c hc => hc.imp_right False.elim

variable [DecidableEq γ]

omit [DecidableEq ι] in
theorem Sound.rouse (h : Sound J A W owes s) (c : γ) : Sound J A W owes (s.rouse c) := by
  refine h.stirred rfl rfl rfl fun q => ?_
  show (s.phase q).rouse c = s.phase q ∨ ∃ c' k, s.phase q = .asleep c' k ∧ (s.phase q).rouse c = .enter k
  cases hq : s.phase q with
  | asleep c' k =>
      by_cases hc : c' = c
      · exact .inr ⟨c', k, rfl, if_pos hc⟩
      · exact .inl (if_neg hc)
  | _ => exact .inl rfl

/-- The wakeup itself: nobody else is about to sleep on the channel, for
that takes one of the two locks. -/
theorem Sound.wake (h : Sound J A W owes s) (ht : s.table = none) {p : ι} {c : γ} {k : κ}
    (hp : s.phase p = .waking c k) :
    Sound J A W owes ((s.rouse c).setPhase p (.inside k)) := by
  have hr := h.rouse c
  have hp' : (s.rouse c).phase p = .waking c k := by
    show (s.phase p).rouse c = _
    rw [hp]
    rfl
  have hnone : ∀ q, ((s.rouse c).phase q).waits ≠ some c := by
    intro q hq
    have hqp : q ≠ p := by
      rintro rfl
      rw [hp'] at hq
      cases hq
    have hfree : ((s.rouse c).phase q).tables = false := by
      by_contra hn
      have := (hr.tabled q).mpr (by simpa using hn)
      rw [show (s.rouse c).table = s.table from rfl, ht] at this
      cases this
    have hopen : ((s.rouse c).phase q).locks = false := by
      by_contra hn
      exact hqp (hr.exclusive (by simpa using hn) (by rw [hp']; rfl))
    cases hph : (s.rouse c).phase q with
    | falling c' k' =>
        rw [hph] at hopen
        cases hopen
    | handing c' k' =>
        rw [hph] at hopen
        cases hopen
    | dozing c' k' =>
        rw [hph] at hfree
        cases hfree
    | asleep c' k' =>
        -- it was asleep on `c` before, and has been roused
        rw [hph] at hq
        have hcc : c' = c := Option.some.inj hq
        have hbefore : (s.phase q).rouse c = .asleep c' k' := hph
        cases hs : s.phase q with
        | asleep c₀ k₀ =>
            rw [hs] at hbefore
            by_cases h0 : c₀ = c
            · rw [Phase.rouse, if_pos h0] at hbefore
              cases hbefore
            · rw [Phase.rouse, if_neg h0] at hbefore
              cases hbefore
              exact h0 hcc
        | _ =>
            rw [hs] at hbefore
            cases hbefore
    | _ =>
        rw [hph] at hq
        cases hq
  refine ⟨?_, ?_, hr.inv, fun q k' hk => ?_, fun q k' hk => ?_, fun q c' hq => ?_⟩
  · exact Hands.update hr.locked (.inl ⟨by rw [hp']; rfl, rfl⟩)
  · exact Hands.update hr.tabled (.inl ⟨by rw [hp']; rfl, rfl⟩)
  · by_cases hqp : q = p
    · subst hqp
      simp only [State.setPhase, Function.update_self] at hk
      cases hk
    · simp only [State.setPhase, Function.update_of_ne hqp] at hk
      exact hr.entry q k' hk
  · by_cases hqp : q = p
    · subst hqp
      simp only [State.setPhase, Function.update_self] at hk
      cases hk
      exact hr.point q _ (by rw [hp']; rfl)
    · simp only [State.setPhase, Function.update_of_ne hqp] at hk
      exact hr.point q k' hk
  · by_cases hqp : q = p
    · subst hqp
      simp only [State.setPhase, Function.update_self] at hq
      cases hq
    · simp only [State.setPhase, Function.update_of_ne hqp] at hq
      have hcc : c' ≠ c := by
        rintro rfl
        exact hnone q hq
      rcases hr.waits q c' hq with hw | ⟨r, hd⟩
      · exact .inl hw
      · refine .inr ⟨r, ?_⟩
        by_cases hrp : r = p
        · subst hrp
          rw [hp'] at hd
          simp only [State.setPhase, Function.update_self]
          exact hd.resolve_left hcc
        · simp only [State.setPhase, Function.update_of_ne hrp]
          exact hd

omit [DecidableEq γ] in
theorem Sound.kill (h : Sound J A W owes s) (p : ι) :
    Sound J A W owes
      { s.setPhase p (s.phase p).stir with killed := Function.update s.killed p true } := by
  refine h.stirred rfl rfl rfl fun q => ?_
  show Function.update s.phase p (s.phase p).stir q = s.phase q ∨
    ∃ c k, s.phase q = .asleep c k ∧ Function.update s.phase p (s.phase p).stir q = .enter k
  by_cases hq : q = p
  · subst hq
    rw [Function.update_self]
    cases hph : s.phase q with
    | asleep c k => exact .inr ⟨c, k, rfl, rfl⟩
    | _ => exact .inl rfl
  · rw [Function.update_of_ne hq]
    exact .inl rfl

/-- One event. -/
theorem Disciplined.step (hM : Disciplined M J A W owes) (h : Sound J A W owes s)
    {a : Event ι ρ γ} (hs : Step M s a s') : Sound J A W owes s' := by
  rcases step_cases hs with ⟨p, r, -, hp, rfl, -⟩ | ⟨p, ph, ph', hp, hown, hphase, -⟩ |
    ⟨p, c, k, hp, ht, rfl, -⟩ | ⟨p, -, rfl, -⟩ | ⟨c, -, rfl, -⟩
  · exact hM.called h hp r
  · exact hM.own h hp hown hphase
  · exact h.wake ht hp
  · exact h.kill p
  · exact h.rouse c

omit [DecidableEq ι] [DecidableEq γ] in
theorem Sound.fresh (h : s.Fresh) (hJ : J s.data) : Sound J A W owes s := by
  obtain ⟨hl, ht, hph, -⟩ := h
  refine ⟨fun p => ?_, fun p => ?_, hJ, fun p k hk => ?_, fun p k hk => ?_, fun q c hq => ?_⟩
  · simp [hl, hph p, Phase.locks]
  · simp [ht, hph p, Phase.tables]
  · rw [hph p] at hk
    cases hk
  · rw [hph p] at hk
    cases hk
  · rw [hph q] at hq
    cases hq

/-- Disciplined code is sound in every run. -/
theorem Disciplined.sound {Init : State ι ρ δ κ γ → Prop} (hM : Disciplined M J A W owes)
    (hinit : ∀ s, Init s → s.Fresh ∧ J s.data) (h : Reach Init (Step M) s) : Sound J A W owes s :=
  Reach.invariant (I := Sound J A W owes) (fun s hs => .fresh (hinit s hs).1 (hinit s hs).2)
    (fun _ _ _ hi hs => hM.step hi hs) h

end Discipline

end Monitor
