import Mathlib.Logic.Basic

/-!
# Outcome — stateful code that may fail, panic or wait forever

Code runs in an environment it cannot change and a state it can. It
returns, returns an error in the state reached so far, panics, or blocks.
`Sat` is what one run guarantees, with one postcondition for a result, one
for an error and one for the message of a panic; a run that blocks owes
nothing. The rules below follow the operations of the monad.
-/

inductive Outcome (σ α : Type) where
  | ok (a : α) (s : σ)
  | err (e : String) (s : σ)
  | panic (m : String)
  | blocked

/-- The value and the state of an outcome that is `ok`. -/
def Outcome.result? {σ α : Type} : Outcome σ α → Option (α × σ)
  | .ok a s => some (a, s)
  | _ => none

theorem Outcome.result?_eq_some {σ α : Type} {o : Outcome σ α} {a : α} {s : σ} :
    o.result? = some (a, s) ↔ o = .ok a s := by
  cases o <;> simp [result?]

theorem Outcome.ok_of_map {σ α γ : Type} {o : Outcome σ α} {f : α × σ → γ} {c : γ}
    (h : o.result?.map f = some c) : ∃ a s, o = .ok a s ∧ f (a, s) = c := by
  obtain ⟨⟨a, s⟩, hres, hf⟩ := Option.map_eq_some_iff.mp h
  exact ⟨a, s, result?_eq_some.mp hres, hf⟩

theorem Outcome.ok_of_isSome {σ α : Type} {o : Outcome σ α} (h : o.result?.isSome = true) :
    ∃ a s, o = .ok a s := by
  obtain ⟨⟨a, s⟩, hres⟩ := Option.isSome_iff_exists.mp h
  exact ⟨a, s, result?_eq_some.mp hres⟩

/-- Code over environments `ρ` and states `σ`. -/
def Prog (ρ σ α : Type) : Type := ρ → σ → Outcome σ α

namespace Prog

variable {ρ σ α β : Type}

protected def pure (a : α) : Prog ρ σ α := fun _ s => .ok a s

protected def bind (p : Prog ρ σ α) (f : α → Prog ρ σ β) : Prog ρ σ β :=
  fun r s => match p r s with
    | .ok a s' => f a r s'
    | .err e s' => .err e s'
    | .panic m => .panic m
    | .blocked => .blocked

instance : Monad (Prog ρ σ) where
  pure := Prog.pure
  bind := Prog.bind

/-- The environment. -/
def env : Prog ρ σ ρ := fun r s => .ok r s

/-- A function of the state. -/
def gets (f : σ → α) : Prog ρ σ α := fun _ s => .ok (f s) s

def modify (f : σ → σ) : Prog ρ σ Unit := fun _ s => .ok () (f s)

/-- `return Err(e)`. -/
def throw (e : String) : Prog ρ σ α := fun _ s => .err e s

/-- `panic!(m)`. -/
def abort (m : String) : Prog ρ σ α := fun _ _ => .panic m

/-- Sleep with nobody left to wake the sleeper. -/
def block : Prog ρ σ α := fun _ _ => .blocked

/-- `assert!(c, m)`. -/
def assert (c : Prop) [Decidable c] (m : String) : Prog ρ σ Unit :=
  if c then pure () else abort m

/-- The `Result` of a call, when the caller looks at it itself. -/
def attempt (p : Prog ρ σ α) : Prog ρ σ (Except String α) :=
  fun r s => match p r s with
    | .ok a s' => .ok (.ok a) s'
    | .err e s' => .ok (.error e) s'
    | .panic m => .panic m
    | .blocked => .blocked

/-- `let _ = p`. -/
def ignore (p : Prog ρ σ α) : Prog ρ σ Unit := do
  let _ ← attempt p
  pure ()

/-- `p.expect(m)`. -/
def expect (p : Prog ρ σ α) (m : String) : Prog ρ σ α :=
  fun r s => match p r s with
    | .err _ _ => .panic m
    | o => o

/-- `p`, and `fin` on the way out when `p` fails. -/
def onErr (p : Prog ρ σ α) (fin : Prog ρ σ Unit) : Prog ρ σ α := do
  match ← attempt p with
  | .ok a => pure a
  | .error e => do
      fin
      throw e

/-- `before; p; after`, with `after` run however `p` returns. -/
def around (before after : Prog ρ σ Unit) (p : Prog ρ σ α) : Prog ρ σ α := do
  before
  match ← attempt p with
  | .ok a => do
      after
      pure a
  | .error e => do
      after
      throw e

/-- `p` in a changed environment. -/
def within (f : ρ → ρ) (p : Prog ρ σ α) : Prog ρ σ α := fun r s => p (f r) s

/-- Code that works on a part of a larger state. -/
def zoom {τ : Type} (part : τ → σ) (put : σ → τ → τ) (p : Prog ρ σ α) : Prog ρ τ α :=
  fun r t => match p r (part t) with
    | .ok a s => .ok a (put s t)
    | .err e s => .err e (put s t)
    | .panic m => .panic m
    | .blocked => .blocked

/-- `for a in l { f(a) }`. -/
def each (f : α → Prog ρ σ Unit) : List α → Prog ρ σ Unit
  | [] => pure ()
  | a :: l => do
      f a
      each f l

/-! Runs, step by step. -/

section Step

variable {r : ρ} {s s' : σ} {p : Prog ρ σ α} {f : α → Prog ρ σ β} {a : α} {m : String}

theorem bind_ok (h : p r s = .ok a s') : (p >>= f) r s = f a r s' := by
  show Prog.bind p f r s = _
  unfold Prog.bind
  rw [h]

theorem bind_err (h : p r s = .err m s') : (p >>= f) r s = .err m s' := by
  show Prog.bind p f r s = _
  unfold Prog.bind
  rw [h]

theorem bind_panic (h : p r s = .panic m) : (p >>= f) r s = .panic m := by
  show Prog.bind p f r s = _
  unfold Prog.bind
  rw [h]

/-- What returns after two steps returned after the first. -/
theorem of_bind_ok {b : β} (h : (p >>= f) r s = .ok b s') :
    ∃ a s₁, p r s = .ok a s₁ ∧ f a r s₁ = .ok b s' := by
  have hrun : Prog.bind p f r s = .ok b s' := h
  unfold Prog.bind at hrun
  cases hp : p r s with
  | ok a s₁ =>
      rw [hp] at hrun
      exact ⟨a, s₁, rfl, hrun⟩
  | err e s₁ =>
      rw [hp] at hrun
      cases hrun
  | panic m =>
      rw [hp] at hrun
      cases hrun
  | blocked =>
      rw [hp] at hrun
      cases hrun

theorem assert_ok {c : Prop} [Decidable c] (h : c) : (assert c m : Prog ρ σ Unit) r s = .ok () s := by
  unfold assert
  rw [if_pos h]
  rfl

end Step

end Prog

/-- What one run guarantees. -/
def Outcome.Meets {σ α : Type} (o : Outcome σ α) (Q : α → σ → Prop) (E : String → σ → Prop)
    (X : String → Prop) : Prop :=
  match o with
  | .ok a s => Q a s
  | .err e s => E e s
  | .panic m => X m
  | .blocked => True

/-- `Outcome.Meets`, closed to unfolding: goals about a run are taken apart
by the rules and not by evaluating the run. -/
structure Sat {σ α : Type} (o : Outcome σ α) (Q : α → σ → Prop) (E : String → σ → Prop)
    (X : String → Prop) : Prop where
  meets : o.Meets Q E X

namespace Sat

variable {ρ σ α β : Type} {r : ρ} {s : σ} {p : Prog ρ σ α} {f : α → Prog ρ σ β}
  {Q Q' : α → σ → Prop} {R : β → σ → Prop} {E E' : String → σ → Prop}
  {X X' : String → Prop}

theorem of_ok {o : Outcome σ α} {a : α} (h : Sat o Q E X) (ho : o = .ok a s) : Q a s := by
  subst ho
  exact h.meets

theorem of_err {o : Outcome σ α} {e : String} (h : Sat o Q E X) (ho : o = .err e s) :
    E e s := by
  subst ho
  exact h.meets

theorem of_panic {o : Outcome σ α} {m : String} (h : Sat o Q E X) (ho : o = .panic m) :
    X m := by
  subst ho
  exact h.meets

theorem trivial (o : Outcome σ α) :
    Sat o (fun _ _ => True) (fun _ _ => True) (fun _ => True) := by
  cases o <;> exact ⟨True.intro⟩

theorem imp {o : Outcome σ α} (h : Sat o Q E X) (hq : ∀ a s, Q a s → Q' a s)
    (he : ∀ e s, E e s → E' e s) (hx : ∀ m, X m → X' m) : Sat o Q' E' X' := by
  cases o with
  | ok a s => exact ⟨hq a s h.meets⟩
  | err e s => exact ⟨he e s h.meets⟩
  | panic m => exact ⟨hx m h.meets⟩
  | blocked => exact ⟨True.intro⟩

/-- Two guarantees of one run hold together. -/
theorem and {o : Outcome σ α} (h : Sat o Q E X) (h' : Sat o Q' E' X') :
    Sat o (fun a s => Q a s ∧ Q' a s) (fun e s => E e s ∧ E' e s)
      (fun m => X m ∧ X' m) := by
  cases o with
  | ok a s => exact ⟨h.meets, h'.meets⟩
  | err e s => exact ⟨h.meets, h'.meets⟩
  | panic m => exact ⟨h.meets, h'.meets⟩
  | blocked => exact ⟨True.intro⟩

/-- More about what is returned. -/
theorem also {o : Outcome σ α} (h : Sat o Q E X) (h' : Sat o Q' (fun _ _ => True) (fun _ => True)) :
    Sat o (fun a s => Q a s ∧ Q' a s) E X :=
  (h.and h').imp (fun _ _ hq => hq) (fun _ _ he => he.1) (fun _ hx => hx.1)

/-- A run remembered as an equation. -/
theorem with_eq {o : Outcome σ α} (h : Sat o Q E X) :
    Sat o (fun a s => Q a s ∧ o = .ok a s) (fun e s => E e s ∧ o = .err e s) X := by
  cases o with
  | ok a s => exact ⟨h.meets, rfl⟩
  | err e s => exact ⟨h.meets, rfl⟩
  | panic m => exact ⟨h.meets⟩
  | blocked => exact ⟨True.intro⟩

theorem pure {a : α} (h : Q a s) : Sat ((Pure.pure a : Prog ρ σ α) r s) Q E X := ⟨h⟩

theorem bind (hp : Sat (p r s) Q E' X) (he : ∀ e s', E' e s' → E e s')
    (hf : ∀ a s', Q a s' → Sat (f a r s') R E X) : Sat ((p >>= f) r s) R E X := by
  show Sat (Prog.bind p f r s) R E X
  unfold Prog.bind
  cases ho : p r s with
  | ok a s' => exact hf a s' (hp.of_ok ho)
  | err e s' => exact ⟨he e s' (hp.of_err ho)⟩
  | panic m => exact ⟨hp.of_panic ho⟩
  | blocked => exact ⟨True.intro⟩

/-- `bind`, when errors already carry the postcondition wanted. -/
theorem seq (hp : Sat (p r s) Q E X) (hf : ∀ a s', Q a s' → Sat (f a r s') R E X) :
    Sat ((p >>= f) r s) R E X :=
  bind hp (fun _ _ h => h) hf

/-- `bind`, when the first part is known to return. -/
theorem bind_ok {a : α} {s' : σ} (hp : p r s = .ok a s') (hf : Sat (f a r s') R E X) :
    Sat ((p >>= f) r s) R E X := by
  show Sat (Prog.bind p f r s) R E X
  unfold Prog.bind
  rw [hp]
  exact hf

theorem env {f : ρ → Prog ρ σ β} (h : Sat (f r r s) R E X) :
    Sat ((Prog.env >>= f) r s) R E X := h

theorem gets {g : σ → α} (h : Sat (f (g s) r s) R E X) :
    Sat ((Prog.gets g >>= f) r s) R E X := h

theorem modify {g : σ → σ} {f : Unit → Prog ρ σ β} (h : Sat (f () r (g s)) R E X) :
    Sat ((Prog.modify g >>= f) r s) R E X := h

theorem last_modify {g : σ → σ} {Q : Unit → σ → Prop} (h : Q () (g s)) :
    Sat ((Prog.modify g : Prog ρ σ Unit) r s) Q E X := ⟨h⟩

theorem throw {e : String} (h : E e s) : Sat ((Prog.throw e : Prog ρ σ α) r s) Q E X := ⟨h⟩

theorem abort {m : String} (h : X m) : Sat ((Prog.abort m : Prog ρ σ α) r s) Q E X := ⟨h⟩

theorem block : Sat ((Prog.block : Prog ρ σ α) r s) Q E X := ⟨True.intro⟩

theorem assert {c : Prop} [Decidable c] {m : String} {f : Unit → Prog ρ σ β}
    (hx : ¬c → X m) (h : c → Sat (f () r s) R E X) :
    Sat ((Prog.assert c m >>= f) r s) R E X := by
  unfold Prog.assert
  by_cases hc : c
  · rw [if_pos hc]
    exact h hc
  · rw [if_neg hc]
    exact ⟨hx hc⟩

theorem last_assert {c : Prop} [Decidable c] {m : String} {Q : Unit → σ → Prop}
    (hx : ¬c → X m) (h : c → Q () s) : Sat ((Prog.assert c m : Prog ρ σ Unit) r s) Q E X := by
  unfold Prog.assert
  by_cases hc : c
  · rw [if_pos hc]
    exact ⟨h hc⟩
  · rw [if_neg hc]
    exact ⟨hx hc⟩

theorem ite {c : Prop} [Decidable c] {p p' : Prog ρ σ α} (h : c → Sat (p r s) Q E X)
    (h' : ¬c → Sat (p' r s) Q E X) : Sat ((if c then p else p') r s) Q E X := by
  by_cases hc : c
  · rw [if_pos hc]
    exact h hc
  · rw [if_neg hc]
    exact h' hc

theorem attempt (hp : Sat (p r s) Q E X) :
    Sat (Prog.attempt p r s)
      (fun a s' => match a with | .ok a => Q a s' | .error e => E e s') E' X := by
  unfold Prog.attempt
  cases ho : p r s with
  | ok a s' => exact ⟨hp.of_ok ho⟩
  | err e s' => exact ⟨hp.of_err ho⟩
  | panic m => exact ⟨hp.of_panic ho⟩
  | blocked => exact ⟨True.intro⟩

theorem ignore {Z : σ → Prop} (hp : Sat (p r s) (fun _ s' => Z s') (fun _ s' => Z s') X) :
    Sat (Prog.ignore p r s) (fun _ s' => Z s') E X := by
  refine seq (attempt hp) fun a s' h => ?_
  cases a <;> exact ⟨h⟩

theorem expect {m : String} (hp : Sat (p r s) Q E' X) (hm : ∀ e s', E' e s' → X m) :
    Sat (Prog.expect p m r s) Q E X := by
  unfold Prog.expect
  cases ho : p r s with
  | ok a s' => exact ⟨hp.of_ok ho⟩
  | err e s' => exact ⟨hm e s' (hp.of_err ho)⟩
  | panic m' => exact ⟨hp.of_panic ho⟩
  | blocked => exact ⟨True.intro⟩

theorem onErr {fin : Prog ρ σ Unit} (hp : Sat (p r s) Q E' X)
    (hfin : ∀ e s', E' e s' → Sat (fin r s') (fun _ s' => E e s') E X) :
    Sat (Prog.onErr p fin r s) Q E X := by
  refine seq (attempt hp) fun a s' h => ?_
  cases a with
  | ok a => exact ⟨h⟩
  | error e => exact seq (hfin e s' h) fun _ s'' h' => ⟨h'⟩

/-- `after` may not fail here: it only gives things back. -/
theorem around {before after : Prog ρ σ Unit} {B : Unit → σ → Prop}
    {Q' : α → σ → Prop} {E' : String → σ → Prop}
    (hb : Sat (before r s) B E X)
    (hp : ∀ s', B () s' → Sat (p r s') Q' E' X)
    (hq : ∀ a s', Q' a s' → Sat (after r s') (fun _ s'' => Q a s'') E X)
    (he : ∀ e s', E' e s' → Sat (after r s') (fun _ s'' => E e s'') E X) :
    Sat (Prog.around before after p r s) Q E X := by
  refine seq hb fun _ s' hs' => seq (attempt (hp s' hs')) fun a s'' h => ?_
  cases a with
  | ok a => exact seq (hq a s'' h) fun _ s₃ h' => ⟨h'⟩
  | error e => exact seq (he e s'' h) fun _ s₃ h' => ⟨h'⟩

theorem within {g : ρ → ρ} (h : Sat (p (g r) s) Q E X) :
    Sat (Prog.within g p r s) Q E X := h

/-- The loop rule: the invariant says what is still to be done. -/
theorem each {f : α → Prog ρ σ Unit} {I : List α → σ → Prop}
    (hstep : ∀ a l s, I (a :: l) s → Sat (f a r s) (fun _ s' => I l s') E X) {l : List α}
    (h : I l s) : Sat (Prog.each f l r s) (fun _ s' => I [] s') E X := by
  induction l generalizing s with
  | nil => exact ⟨h⟩
  | cons a l ih => exact seq (hstep a l s h) fun _ _ h' => ih h'

theorem zoom {τ : Type} {part : τ → σ} {put : σ → τ → τ} {t : τ} {R : α → τ → Prop}
    {F : String → τ → Prop} (hp : Sat (p r (part t)) Q E X) (hq : ∀ a s, Q a s → R a (put s t))
    (he : ∀ e s, E e s → F e (put s t)) : Sat (Prog.zoom part put p r t) R F X := by
  unfold Prog.zoom
  cases ho : p r (part t) with
  | ok a s' => exact ⟨hq a s' (hp.of_ok ho)⟩
  | err e s' => exact ⟨he e s' (hp.of_err ho)⟩
  | panic m => exact ⟨hp.of_panic ho⟩
  | blocked => exact ⟨True.intro⟩

end Sat

/-! ## Code that never returns an error -/

/-- In the environment `r`, code returns, panics or blocks. -/
def NeverFails {ρ σ α : Type} (r : ρ) (p : Prog ρ σ α) : Prop :=
  ∀ s, Sat (p r s) (fun _ _ => True) (fun _ _ => False) (fun _ => True)

namespace NeverFails

variable {ρ σ α β : Type} {r : ρ} {p : Prog ρ σ α} {f : α → Prog ρ σ β}

theorem pure {a : α} : NeverFails r (Pure.pure a : Prog ρ σ α) := fun _ => ⟨trivial⟩

theorem bind (hp : NeverFails r p) (hf : ∀ a, NeverFails r (f a)) : NeverFails r (p >>= f) :=
  fun s => (hp s).seq fun a s' _ => hf a s'

theorem env {f : ρ → Prog ρ σ β} (h : NeverFails r (f r)) : NeverFails r (Prog.env >>= f) := h

theorem gets {g : σ → α} (h : ∀ a, NeverFails r (f a)) : NeverFails r (Prog.gets g >>= f) :=
  fun s => h (g s) s

theorem modify {g : σ → σ} : NeverFails r (Prog.modify g : Prog ρ σ Unit) := fun _ => ⟨trivial⟩

theorem abort {m : String} : NeverFails r (Prog.abort m : Prog ρ σ α) := fun _ => ⟨trivial⟩

theorem assert {c : Prop} [Decidable c] {m : String} {f : Unit → Prog ρ σ β}
    (h : NeverFails r (f ())) : NeverFails r (Prog.assert c m >>= f) :=
  fun s => Sat.assert (fun _ => trivial) fun _ => h s

theorem last_assert {c : Prop} [Decidable c] {m : String} :
    NeverFails r (Prog.assert c m : Prog ρ σ Unit) :=
  fun _ => Sat.last_assert (fun _ => trivial) fun _ => trivial

theorem ite {c : Prop} [Decidable c] {p p' : Prog ρ σ α} (h : NeverFails r p)
    (h' : NeverFails r p') : NeverFails r (if c then p else p') := by
  split
  · exact h
  · exact h'

theorem expect {m : String} (p : Prog ρ σ α) : NeverFails r (Prog.expect p m) := by
  intro s
  unfold Prog.expect
  cases p r s <;> exact ⟨trivial⟩

end NeverFails

/-! ## Code that never sleeps -/

/-- Code returns, fails or panics, wherever it starts. -/
def Awake {ρ σ α : Type} (p : Prog ρ σ α) : Prop := ∀ r s, p r s ≠ .blocked

namespace Awake

variable {ρ σ α β : Type} {p : Prog ρ σ α} {f : α → Prog ρ σ β}

theorem pure {a : α} : Awake (Pure.pure a : Prog ρ σ α) := fun _ _ h => nomatch h

theorem bind (hp : Awake p) (hf : ∀ a, Awake (f a)) : Awake (p >>= f) := by
  intro r s
  show Prog.bind p f r s ≠ .blocked
  unfold Prog.bind
  cases ho : p r s with
  | ok a s' => exact hf a r s'
  | err e s' => exact fun h => nomatch h
  | panic m => exact fun h => nomatch h
  | blocked => exact absurd ho (hp r s)

theorem env {f : ρ → Prog ρ σ β} (h : ∀ r, Awake (f r)) : Awake (Prog.env >>= f) :=
  fun r s => h r r s

theorem gets {g : σ → α} (h : ∀ a, Awake (f a)) : Awake (Prog.gets g >>= f) :=
  fun r s => h (g s) r s

theorem modify {g : σ → σ} : Awake (Prog.modify g : Prog ρ σ Unit) := fun _ _ h => nomatch h

theorem throw {e : String} : Awake (Prog.throw e : Prog ρ σ α) := fun _ _ h => nomatch h

theorem abort {m : String} : Awake (Prog.abort m : Prog ρ σ α) := fun _ _ h => nomatch h

theorem ite {c : Prop} [Decidable c] {p p' : Prog ρ σ α} (h : Awake p) (h' : Awake p') :
    Awake (if c then p else p') := by
  split
  · exact h
  · exact h'

theorem last_assert {c : Prop} [Decidable c] {m : String} :
    Awake (Prog.assert c m : Prog ρ σ Unit) := ite pure abort

theorem assert {c : Prop} [Decidable c] {m : String} {f : Unit → Prog ρ σ β}
    (h : Awake (f ())) : Awake (Prog.assert c m >>= f) := last_assert.bind fun _ => h

theorem expect {m : String} (hp : Awake p) : Awake (Prog.expect p m) := by
  intro r s
  unfold Prog.expect
  cases ho : p r s with
  | ok a s' => exact fun h => nomatch h
  | err e s' => exact fun h => nomatch h
  | panic m => exact fun h => nomatch h
  | blocked => exact absurd ho (hp r s)

theorem attempt (hp : Awake p) : Awake (Prog.attempt p) := by
  intro r s
  unfold Prog.attempt
  cases ho : p r s with
  | ok a s' => exact fun h => nomatch h
  | err e s' => exact fun h => nomatch h
  | panic m => exact fun h => nomatch h
  | blocked => exact absurd ho (hp r s)

theorem onErr {fin : Prog ρ σ Unit} (hp : Awake p) (hfin : Awake fin) :
    Awake (Prog.onErr p fin) := by
  refine hp.attempt.bind fun r => ?_
  cases r with
  | ok a => exact pure
  | error e => exact hfin.bind fun _ => throw

theorem each {f : α → Prog ρ σ Unit} {l : List α} (h : ∀ a, Awake (f a)) : Awake (Prog.each f l) := by
  induction l with
  | nil => exact pure
  | cons a l ih => exact (h a).bind fun _ => ih

theorem within {g : ρ → ρ} (h : Awake p) : Awake (Prog.within g p) := fun r s => h (g r) s

theorem zoom {τ : Type} {part : τ → σ} {put : σ → τ → τ} (h : Awake p) :
    Awake (Prog.zoom part put p) := by
  intro r t
  unfold Prog.zoom
  cases ho : p r (part t) with
  | ok a s' => exact fun h => nomatch h
  | err e s' => exact fun h => nomatch h
  | panic m => exact fun h => nomatch h
  | blocked => exact absurd ho (h r (part t))

end Awake

/-! ## Code without a certain panic -/

/-- Code does not panic with `m`, wherever it starts. -/
def Avoids {ρ σ α : Type} (m : String) (p : Prog ρ σ α) : Prop := ∀ r s, p r s ≠ .panic m

namespace Avoids

variable {ρ σ α β : Type} {m t : String} {p : Prog ρ σ α} {f : α → Prog ρ σ β}

theorem pure {a : α} : Avoids m (Pure.pure a : Prog ρ σ α) := fun _ _ h => nomatch h

theorem bind (hp : Avoids m p) (hf : ∀ a, Avoids m (f a)) : Avoids m (p >>= f) := by
  intro r s
  show Prog.bind p f r s ≠ .panic m
  unfold Prog.bind
  cases ho : p r s with
  | ok a s' => exact hf a r s'
  | err e s' => exact fun h => nomatch h
  | panic t =>
      intro h
      refine hp r s ?_
      rw [ho, Outcome.panic.inj h]
  | blocked => exact fun h => nomatch h

theorem env {f : ρ → Prog ρ σ β} (h : ∀ r, Avoids m (f r)) : Avoids m (Prog.env >>= f) :=
  fun r s => h r r s

theorem gets {g : σ → α} (h : ∀ a, Avoids m (f a)) : Avoids m (Prog.gets g >>= f) :=
  fun r s => h (g s) r s

theorem modify {g : σ → σ} : Avoids m (Prog.modify g : Prog ρ σ Unit) := fun _ _ h => nomatch h

theorem throw {e : String} : Avoids m (Prog.throw e : Prog ρ σ α) := fun _ _ h => nomatch h

theorem abort (h : t ≠ m) : Avoids m (Prog.abort t : Prog ρ σ α) :=
  fun _ _ he => h (Outcome.panic.inj he)

theorem ite {c : Prop} [Decidable c] {p p' : Prog ρ σ α} (h : Avoids m p) (h' : Avoids m p') :
    Avoids m (if c then p else p') := by
  split
  · exact h
  · exact h'

theorem last_assert {c : Prop} [Decidable c] (h : t ≠ m) :
    Avoids m (Prog.assert c t : Prog ρ σ Unit) := ite pure (abort h)

theorem assert {c : Prop} [Decidable c] {f : Unit → Prog ρ σ β} (h : t ≠ m)
    (hf : Avoids m (f ())) : Avoids m (Prog.assert c t >>= f) := (last_assert h).bind fun _ => hf

theorem expect (hp : Avoids m p) (h : t ≠ m) : Avoids m (Prog.expect p t) := by
  intro r s
  unfold Prog.expect
  cases ho : p r s with
  | ok a s' => exact fun h => nomatch h
  | err e s' => exact fun he => h (Outcome.panic.inj he)
  | panic t' =>
      intro he
      refine hp r s ?_
      rw [ho]
      exact he
  | blocked => exact fun h => nomatch h

/-- What a run guarantees whatever its state. -/
theorem sat (hp : Avoids m p) (r : ρ) (s : σ) :
    Sat (p r s) (fun _ _ => True) (fun _ _ => True) (fun t => t ≠ m) := by
  cases ho : p r s with
  | ok a s' => exact ⟨trivial⟩
  | err e s' => exact ⟨trivial⟩
  | panic t => exact ⟨fun he => hp r s (ho.trans (congrArg _ he))⟩
  | blocked => exact ⟨trivial⟩

end Avoids

/-- A guarantee without the message of a panic, beside one of the message. -/
theorem Sat.avoids {ρ σ α : Type} {m : String} {p : Prog ρ σ α} {r : ρ} {s : σ}
    {Q : α → σ → Prop} {E : String → σ → Prop} {X : String → Prop} (h : Sat (p r s) Q E X)
    (hp : Avoids m p) : Sat (p r s) Q E (fun t => t ≠ m) :=
  (h.and (hp.sat r s)).imp (fun _ _ hq => hq.1) (fun _ _ he => he.1) fun _ hx => hx.2

/-- Code that may neither fail nor panic nor sleep returns. -/
theorem Sat.returns {σ α : Type} {o : Outcome σ α} {Q : α → σ → Prop}
    (h : Sat o Q (fun _ _ => False) (fun _ => False)) (ho : o ≠ .blocked) :
    ∃ a s, o = .ok a s ∧ Q a s := by
  cases o with
  | ok a s => exact ⟨a, s, rfl, h.meets⟩
  | err e s => exact h.meets.elim
  | panic m => exact h.meets.elim
  | blocked => exact absurd rfl ho

/-- Code that may neither panic nor sleep returns or fails. -/
theorem Sat.ends {σ α : Type} {o : Outcome σ α} {Q : α → σ → Prop} {E : String → σ → Prop}
    (h : Sat o Q E (fun _ => False)) (ho : o ≠ .blocked) :
    (∃ a s, o = .ok a s ∧ Q a s) ∨ ∃ e s, o = .err e s ∧ E e s := by
  cases o with
  | ok a s => exact .inl ⟨a, s, rfl, h.meets⟩
  | err e s => exact .inr ⟨e, s, rfl, h.meets⟩
  | panic m => exact h.meets.elim
  | blocked => exact absurd rfl ho

/-! ## Code that keeps an invariant -/

/-- Whether it returns or fails, the code keeps `I`. -/
def Preserves {ρ σ α : Type} (I : σ → Prop) (r : ρ) (p : Prog ρ σ α) : Prop :=
  ∀ s, I s → Sat (p r s) (fun _ s' => I s') (fun _ s' => I s') fun _ => True

namespace Preserves

variable {ρ σ α β : Type} {I : σ → Prop} {r : ρ} {p : Prog ρ σ α} {f : α → Prog ρ σ β}
  {m : String}

theorem pure {a : α} : Preserves I r (Pure.pure a : Prog ρ σ α) := fun _ h => Sat.pure h

theorem throw {e : String} : Preserves I r (Prog.throw e : Prog ρ σ α) := fun _ h => Sat.throw h

theorem bind (hp : Preserves I r p) (hf : ∀ a, Preserves I r (f a)) : Preserves I r (p >>= f) :=
  fun s h => Sat.seq (hp s h) fun a s' h' => hf a s' h'

theorem env {f : ρ → Prog ρ σ β} (h : Preserves I r (f r)) : Preserves I r (Prog.env >>= f) := h

theorem gets {g : σ → α} (h : ∀ a, Preserves I r (f a)) : Preserves I r (Prog.gets g >>= f) :=
  fun s hs => Sat.gets (h (g s) s hs)

theorem ite {c : Prop} [Decidable c] {p p' : Prog ρ σ α} (h : c → Preserves I r p)
    (h' : ¬c → Preserves I r p') : Preserves I r (if c then p else p') :=
  fun s hs => Sat.ite (fun hc => h hc s hs) fun hc => h' hc s hs

theorem assert {c : Prop} [Decidable c] {f : Unit → Prog ρ σ β} (h : Preserves I r (f ())) :
    Preserves I r (Prog.assert c m >>= f) :=
  fun s hs => Sat.assert (fun _ => trivial) fun _ => h s hs

theorem last_assert {c : Prop} [Decidable c] :
    Preserves I r (Prog.assert c m : Prog ρ σ Unit) :=
  fun _ hs => Sat.last_assert (fun _ => trivial) fun _ => hs

theorem expect (hp : Preserves I r p) : Preserves I r (Prog.expect p m) :=
  fun s h => Sat.expect (hp s h) fun _ _ _ => trivial

end Preserves
