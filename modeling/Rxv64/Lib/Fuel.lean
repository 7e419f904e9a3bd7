import Rxv64.Lib.Outcome

/-!
# Fuel — recursion that is cut off

A recursive function of the code is a family of programs: the `n`-th may go `n`
calls deep and is `blocked` where it would go deeper. `Le` compares two of them:
what ends with less fuel ends in the same way with more. `Yields` is a result for
all fuel that is enough, and `Ends` is total correctness: a result that meets a
postcondition or a panic from a list.
-/

namespace Prog

variable {ρ σ α β : Type} {p p' q : Prog ρ σ α} {f f' : α → Prog ρ σ β} {r : ρ} {s : σ}

/-! ## More fuel -/

/-- Where `p` ends, `q` ends in the same way. -/
def Le (p q : Prog ρ σ α) : Prop := ∀ r s, p r s ≠ .blocked → q r s = p r s

namespace Le

theorem refl : Le p p := fun _ _ _ => rfl

theorem trans (h : Le p p') (h' : Le p' q) : Le p q := by
  intro r s hp
  rw [h' r s (by rwa [h r s hp]), h r s hp]

theorem block : Le Prog.block p := fun _ _ h => absurd rfl h

theorem bind (h : Le p p') (hf : ∀ a, Le (f a) (f' a)) : Le (p >>= f) (p' >>= f') := by
  intro r s hp
  change Prog.bind p f r s ≠ .blocked at hp
  change Prog.bind p' f' r s = Prog.bind p f r s
  unfold Prog.bind at hp ⊢
  cases ho : p r s with
  | ok a s' =>
      rw [ho] at hp
      rw [h r s (by rw [ho]; intro h; cases h), ho]
      exact hf a r s' hp
  | err e s' => rw [h r s (by rw [ho]; intro h; cases h), ho]
  | panic m => rw [h r s (by rw [ho]; intro h; cases h), ho]
  | blocked =>
      rw [ho] at hp
      exact absurd rfl hp

theorem ite {c : Prop} [Decidable c] {q' : Prog ρ σ α} (h : Le p p') (h' : Le q q') :
    Le (if c then p else q) (if c then p' else q') := by
  split
  · exact h
  · exact h'

/-- A family that grows step by step grows. -/
theorem of_step {g : Nat → Prog ρ σ α} (h : ∀ n, Le (g n) (g (n + 1))) {n m : Nat} (hle : n ≤ m) :
    Le (g n) (g m) := by
  induction hle with
  | refl => exact refl
  | step _ ih => exact ih.trans (h _)

end Le

/-! ## Enough fuel -/

/-- With enough fuel the result is `a` in state `s'`. -/
def Yields (g : Nat → Prog ρ σ α) (r : ρ) (s : σ) (a : α) (s' : σ) : Prop :=
  ∃ n, ∀ m, n ≤ m → g m r s = .ok a s'

namespace Yields

variable {g : Nat → Prog ρ σ α} {k : Nat → α → Prog ρ σ β} {a : α} {b : β} {s' s'' : σ}

theorem const (h : p r s = .ok a s') : Yields (fun _ => p) r s a s' := ⟨0, fun _ _ => h⟩

theorem pure {a : α} : Yields (fun _ => (Pure.pure a : Prog ρ σ α)) r s a s := const rfl

theorem succ (h : Yields (fun n => g (n + 1)) r s a s') : Yields g r s a s' := by
  obtain ⟨n, hn⟩ := h
  refine ⟨n + 1, fun m hm => ?_⟩
  obtain ⟨m, rfl⟩ := Nat.exists_eq_add_of_le' (Nat.le_of_add_left_le hm)
  exact hn m (Nat.le_of_succ_le_succ hm)

theorem bind (h : Yields g r s a s') (hk : Yields (fun n => k n a) r s' b s'') :
    Yields (fun n => g n >>= k n) r s b s'' := by
  obtain ⟨n, hn⟩ := h
  obtain ⟨n', hn'⟩ := hk
  refine ⟨max n n', fun m hm => ?_⟩
  exact (bind_ok (hn m (Nat.le_trans (Nat.le_max_left n n') hm))).trans
    (hn' m (Nat.le_trans (Nat.le_max_right n n') hm))

theorem pos {c : Prop} [Decidable c] {g' : Nat → Prog ρ σ α} (hc : c)
    (h : Yields g r s a s') : Yields (fun n => if c then g n else g' n) r s a s' := by
  obtain ⟨n, hn⟩ := h
  refine ⟨n, fun m hm => ?_⟩
  show (if c then g m else g' m) r s = _
  rw [if_pos hc]
  exact hn m hm

theorem neg {c : Prop} [Decidable c] {g' : Nat → Prog ρ σ α} (hc : ¬c)
    (h : Yields g r s a s') : Yields (fun n => if c then g' n else g n) r s a s' := by
  obtain ⟨n, hn⟩ := h
  refine ⟨n, fun m hm => ?_⟩
  show (if c then g' m else g m) r s = _
  rw [if_neg hc]
  exact hn m hm

/-- Fuel with which the code ends is enough. -/
theorem eq_of_ends {n : Nat} (h : Yields g r s a s') (hle : ∀ n, Le (g n) (g (n + 1)))
    (hn : g n r s ≠ .blocked) : g n r s = .ok a s' := by
  obtain ⟨n', hn'⟩ := h
  rw [← hn' (max n n') (Nat.le_max_right n n')]
  exact (Le.of_step hle (Nat.le_max_left n n') r s hn).symm

end Yields

end Prog

/-! ## Ending -/

/-- A result that meets `Q`, or a panic with a message in `X`. -/
def Ends {σ α : Type} (o : Outcome σ α) (Q : α → σ → Prop) (X : String → Prop) : Prop :=
  (∃ a s, o = .ok a s ∧ Q a s) ∨ ∃ m, o = .panic m ∧ X m

namespace Ends

variable {ρ σ α β : Type} {p : Prog ρ σ α} {f : α → Prog ρ σ β} {r : ρ} {s : σ}
  {Q Q' : α → σ → Prop} {R : β → σ → Prop} {X : String → Prop}

theorem ok {o : Outcome σ α} {a : α} (h : o = .ok a s) (hQ : Q a s) : Ends o Q X :=
  .inl ⟨a, s, h, hQ⟩

theorem pure {a : α} (h : Q a s) : Ends ((Pure.pure a : Prog ρ σ α) r s) Q X := ok rfl h

theorem abort {m : String} (h : X m) : Ends ((Prog.abort m : Prog ρ σ α) r s) Q X :=
  .inr ⟨m, rfl, h⟩

theorem ite {c : Prop} [Decidable c] {p' : Prog ρ σ α} (h : c → Ends (p r s) Q X)
    (h' : ¬c → Ends (p' r s) Q X) : Ends ((if c then p else p') r s) Q X := by
  split
  · next hc => exact h hc
  · next hc => exact h' hc

theorem bind (h : Ends (p r s) Q X) (hf : ∀ a s', Q a s' → Ends (f a r s') R X) :
    Ends ((p >>= f) r s) R X := by
  rcases h with ⟨a, s', heq, hQ⟩ | ⟨m, heq, hX⟩
  · rw [Prog.bind_ok heq]
    exact hf a s' hQ
  · refine .inr ⟨m, ?_, hX⟩
    show Prog.bind p f r s = _
    unfold Prog.bind
    rw [heq]

theorem imp {o : Outcome σ α} (h : Ends o Q X) (hQ : ∀ a s, Q a s → Q' a s) : Ends o Q' X := by
  rcases h with ⟨a, s, heq, ha⟩ | hpanic
  · exact .inl ⟨a, s, heq, hQ a s ha⟩
  · exact .inr hpanic

theorem ne_blocked {o : Outcome σ α} (h : Ends o Q X) : o ≠ .blocked := by
  rcases h with ⟨a, s, heq, -⟩ | ⟨m, heq, -⟩
  · rw [heq]
    intro hb
    cases hb
  · rw [heq]
    intro hb
    cases hb

theorem of_ok {o : Outcome σ α} {a : α} (h : Ends o Q X) (ho : o = .ok a s) : Q a s := by
  rcases h with ⟨a', s', heq, hQ⟩ | ⟨m, heq, -⟩
  · rw [ho] at heq
    cases heq
    exact hQ
  · rw [ho] at heq
    cases heq

end Ends
