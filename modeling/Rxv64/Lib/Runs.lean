import Mathlib.Logic.Relation

/-!
# Runs — reachable states of a step relation

A system is a step relation labelled with what was done. `Reach` collects
the states of all its runs, and the one induction over runs is done here:
a property of the initial states that every step keeps holds everywhere.
-/

namespace Runs

variable {σ α : Type}

/-- States reached from an initial state by finitely many steps. -/
inductive Reach (init : σ → Prop) (step : σ → α → σ → Prop) : σ → Prop where
  | init {s : σ} : init s → Reach init step s
  | step {s s' : σ} {a : α} : Reach init step s → step s a s' → Reach init step s'

/-- The invariant rule. -/
theorem Reach.invariant {init : σ → Prop} {step : σ → α → σ → Prop} {I : σ → Prop}
    (hinit : ∀ s, init s → I s) (hstep : ∀ s a s', I s → step s a s' → I s')
    {s : σ} (h : Reach init step s) : I s := by
  induction h with
  | init h => exact hinit _ h
  | step _ hs ih => exact hstep _ _ _ ih hs

/-- The steps of `step` whose start meets a condition. -/
def Guarded (guard : σ → α → Prop) (step : σ → α → σ → Prop) : σ → α → σ → Prop :=
  fun s a s' => guard s a ∧ step s a s'

/-- A run is one of every system that has at least these steps. -/
theorem Reach.mono {init : σ → Prop} {step step' : σ → α → σ → Prop}
    (hstep : ∀ s a s', step s a s' → step' s a s') {s : σ} (h : Reach init step s) :
    Reach init step' s := by
  induction h with
  | init h => exact .init h
  | step _ hs ih => exact ih.step (hstep _ _ _ hs)

/-- A run whose steps have other labels. -/
theorem Reach.relabel {β : Type} {f : β → α} {init : σ → Prop} {step : σ → α → σ → Prop} {s : σ}
    (h : Reach init (fun s b s' => step s (f b) s') s) : Reach init step s := by
  induction h with
  | init h => exact .init h
  | step _ hs ih => exact ih.step hs

/-- A run given by what was done, for steps that can be computed. -/
def replay (next : σ → α → Option σ) : σ → List α → Option σ
  | s, [] => some s
  | s, a :: as => (next s a).bind fun s' => replay next s' as

theorem Reach.replay {init : σ → Prop} {step : σ → α → σ → Prop} {next : σ → α → Option σ}
    (hnext : ∀ s a s', next s a = some s' → step s a s') {s s' : σ} {as : List α}
    (h : Reach init step s) (hr : replay next s as = some s') : Reach init step s' := by
  induction as generalizing s with
  | nil =>
      cases hr
      exact h
  | cons a as ih =>
      obtain ⟨t, ht, hrest⟩ := Option.bind_eq_some_iff.mp hr
      exact ih (h.step (hnext s a t ht)) hrest

/-- The same for steps without labels. -/
theorem replay_chain {step : σ → σ → Prop} {next : σ → α → Option σ}
    (hnext : ∀ s a s', next s a = some s' → step s s') {s s' : σ} {as : List α}
    (hr : replay next s as = some s') : Relation.ReflTransGen step s s' := by
  induction as generalizing s with
  | nil =>
      cases hr
      exact .refl
  | cons a as ih =>
      obtain ⟨t, ht, hrest⟩ := Option.bind_eq_some_iff.mp hr
      exact .head (hnext s a t ht) (ih hrest)

/-- The steps of `next` whose start meets a condition. -/
def guarded (guard : σ → α → Prop) [∀ s a, Decidable (guard s a)] (next : σ → α → Option σ)
    (s : σ) (a : α) : Option σ :=
  if guard s a then next s a else none

theorem guarded_step {guard : σ → α → Prop} [∀ s a, Decidable (guard s a)]
    {step : σ → α → σ → Prop} {next : σ → α → Option σ}
    (hnext : ∀ s a s', next s a = some s' → step s a s') (s : σ) (a : α) (s' : σ)
    (h : guarded guard next s a = some s') : Guarded guard step s a s' := by
  unfold guarded at h
  split at h
  · next hg => exact ⟨hg, hnext s a s' h⟩
  · cases h

/-! ## Machines that answer -/

variable {β τ : Type}

/-- The answers to a list of inputs, and the last state. -/
def feed (step : σ → α → β × σ) : σ → List α → List β × σ
  | s, [] => ([], s)
  | s, a :: as => ((step s a).1 :: (feed step (step s a).2 as).1, (feed step (step s a).2 as).2)

/-- Two machines that answer alike step by step answer alike. -/
theorem feed_refines {step : σ → α → β × σ} {spec : τ → α → β × τ} {R : σ → τ → Prop}
    (hstep : ∀ s t a, R s t → (step s a).1 = (spec t a).1 ∧ R (step s a).2 (spec t a).2)
    {s : σ} {t : τ} (h : R s t) (as : List α) :
    (feed step s as).1 = (feed spec t as).1 ∧ R (feed step s as).2 (feed spec t as).2 := by
  induction as generalizing s t with
  | nil => exact ⟨rfl, h⟩
  | cons a as ih =>
      obtain ⟨hout, hnext⟩ := hstep s t a h
      obtain ⟨hrest, hlast⟩ := ih hnext
      refine ⟨?_, hlast⟩
      rw [feed, feed, hout, hrest]

end Runs
