import Mathlib.Data.Fintype.Card
import Mathlib.Data.Set.Basic

/-!
# Radix — trees of tables in a heap

A table is a frame of a heap; its slots hold entries, and an entry points at
the next frame. `heap f k` is what slot `k` of frame `f` holds. A tree of `n`
levels of tables ends in frames that are not read as tables. Of the first
table only the slots in `K` belong to the tree.

Frames of a tree are pairwise different. The one lemma about changes,
`Tree.edit`, replaces what hangs below one slot of the first table; changes
further down go through it level by level.
-/

namespace Radix

variable {F κ ε : Type} (tgt : ε → F)

/-- The frames of a tree. -/
def foot (heap : F → κ → Option ε) : Nat → (κ → Prop) → F → Set F
  | 0, _, f => {f}
  | n + 1, K, f =>
      {g | g = f ∨ ∃ k x, K k ∧ heap f k = some x ∧ g ∈ foot heap n (fun _ => True) (tgt x)}

/-- The tables among them. -/
def nodes (heap : F → κ → Option ε) : Nat → (κ → Prop) → F → Set F
  | 0, _, _ => ∅
  | n + 1, K, f =>
      {g | g = f ∨ ∃ k x, K k ∧ heap f k = some x ∧ g ∈ nodes heap n (fun _ => True) (tgt x)}

/-- No frame occurs twice. -/
def Tree (heap : F → κ → Option ε) : Nat → (κ → Prop) → F → Prop
  | 0, _, _ => True
  | n + 1, K, f =>
      (∀ k x, K k → heap f k = some x →
        f ∉ foot tgt heap n (fun _ => True) (tgt x) ∧ Tree heap n (fun _ => True) (tgt x)) ∧
      ∀ k k' x x', K k → K k' → heap f k = some x → heap f k' = some x' → k ≠ k' →
        ∀ g ∈ foot tgt heap n (fun _ => True) (tgt x), g ∉ foot tgt heap n (fun _ => True) (tgt x')

/-- The entry at the end of a path. -/
def lookup (heap : F → κ → Option ε) : F → List κ → Option ε
  | _, [] => none
  | f, [k] => heap f k
  | f, k :: k' :: p =>
      match heap f k with
      | none => none
      | some x => lookup heap (tgt x) (k' :: p)

variable {tgt} {heap heap' : F → κ → Option ε} {n : Nat} {K : κ → Prop} {f g : F} {k : κ} {x : ε}

theorem mem_foot_self : f ∈ foot tgt heap n K f := by
  cases n with
  | zero => exact rfl
  | succ n => exact .inl rfl

theorem foot_child (hk : K k) (hx : heap f k = some x)
    (hg : g ∈ foot tgt heap n (fun _ => True) (tgt x)) : g ∈ foot tgt heap (n + 1) K f :=
  .inr ⟨k, x, hk, hx, hg⟩

theorem nodes_subset_foot (hg : g ∈ nodes tgt heap n K f) : g ∈ foot tgt heap n K f := by
  induction n generalizing K f with
  | zero => exact absurd hg (Set.notMem_empty g)
  | succ n ih =>
      rcases hg with rfl | ⟨k, x, hk, hx, hg⟩
      · exact .inl rfl
      · exact .inr ⟨k, x, hk, hx, ih hg⟩

/-- The tables of a tree are the frames of the tree without its last level. -/
theorem nodes_eq_foot : nodes tgt heap (n + 1) K f = foot tgt heap n K f := by
  induction n generalizing K f with
  | zero =>
      ext g
      refine ⟨?_, fun hg => .inl hg⟩
      rintro (rfl | ⟨k, x, -, -, hg⟩)
      · exact rfl
      · exact absurd hg (Set.notMem_empty g)
  | succ n ih =>
      ext g
      refine or_congr_right (exists_congr fun k => exists_congr fun x => ?_)
      refine and_congr_right fun _ => and_congr_right fun _ => ?_
      rw [ih]

/-- A path of two steps and more. -/
theorem lookup_cons {k' : κ} {p : List κ} (hx : heap f k = some x) :
    lookup tgt heap f (k :: k' :: p) = lookup tgt heap (tgt x) (k' :: p) := by
  simp only [lookup, hx]

theorem lookup_cons_none {p : List κ} (hx : heap f k = none) :
    lookup tgt heap f (k :: p) = none := by
  cases p with
  | nil => exact hx
  | cons k' p => simp only [lookup, hx]

/-! ## Trees that keep their tables -/

theorem foot_congr (h : ∀ g ∈ nodes tgt heap n K f, heap' g = heap g) :
    foot tgt heap' n K f = foot tgt heap n K f := by
  induction n generalizing K f with
  | zero => rfl
  | succ n ih =>
      have hf : heap' f = heap f := h f (.inl rfl)
      have hsub : ∀ k x, K k → heap f k = some x →
          foot tgt heap' n (fun _ => True) (tgt x) = foot tgt heap n (fun _ => True) (tgt x) :=
        fun k x hk hx => ih fun g hg => h g (.inr ⟨k, x, hk, hx, hg⟩)
      ext g
      simp only [foot, hf, Set.mem_ofPred_eq]
      refine or_congr_right (exists_congr fun k => exists_congr fun x => ?_)
      refine and_congr_right fun hk => and_congr_right fun hx => ?_
      rw [hsub k x hk hx]

theorem nodes_congr (h : ∀ g ∈ nodes tgt heap n K f, heap' g = heap g) :
    nodes tgt heap' n K f = nodes tgt heap n K f := by
  induction n generalizing K f with
  | zero => rfl
  | succ n ih =>
      have hf : heap' f = heap f := h f (.inl rfl)
      have hsub : ∀ k x, K k → heap f k = some x →
          nodes tgt heap' n (fun _ => True) (tgt x) = nodes tgt heap n (fun _ => True) (tgt x) :=
        fun k x hk hx => ih fun g hg => h g (.inr ⟨k, x, hk, hx, hg⟩)
      ext g
      simp only [nodes, hf, Set.mem_ofPred_eq]
      refine or_congr_right (exists_congr fun k => exists_congr fun x => ?_)
      refine and_congr_right fun hk => and_congr_right fun hx => ?_
      rw [hsub k x hk hx]

theorem Tree.congr (ht : Tree tgt heap n K f) (h : ∀ g ∈ nodes tgt heap n K f, heap' g = heap g) :
    Tree tgt heap' n K f := by
  induction n generalizing K f with
  | zero => exact True.intro
  | succ n ih =>
      have hf : heap' f = heap f := h f (.inl rfl)
      have hsub : ∀ k x, K k → heap f k = some x →
          ∀ g ∈ nodes tgt heap n (fun _ => True) (tgt x), heap' g = heap g :=
        fun k x hk hx g hg => h g (.inr ⟨k, x, hk, hx, hg⟩)
      refine ⟨fun k x hk hx => ?_, fun k k' x x' hk hk' hx hx' hne => ?_⟩
      · rw [hf] at hx
        rw [foot_congr (hsub k x hk hx)]
        exact ⟨(ht.1 k x hk hx).1, ih (ht.1 k x hk hx).2 (hsub k x hk hx)⟩
      · rw [hf] at hx hx'
        rw [foot_congr (hsub k x hk hx), foot_congr (hsub k' x' hk' hx')]
        exact ht.2 k k' x x' hk hk' hx hx' hne

theorem lookup_congr (h : ∀ g ∈ nodes tgt heap n K f, heap' g = heap g) {p : List κ}
    (hp : p.length ≤ n) (hK : ∀ k ∈ p.head?, K k) :
    lookup tgt heap' f p = lookup tgt heap f p := by
  induction p generalizing n K f with
  | nil => rfl
  | cons k p ih =>
      obtain _ | n := n
      · simp at hp
      have hf : heap' f = heap f := h f (.inl rfl)
      cases hx : heap f k with
      | none => rw [lookup_cons_none hx, lookup_cons_none (by rw [hf]; exact hx)]
      | some x =>
          cases p with
          | nil => simp only [lookup, hf]
          | cons k' p =>
              rw [lookup_cons hx, lookup_cons (by rw [hf]; exact hx)]
              exact ih (fun g hg => h g (.inr ⟨k, x, hK k rfl, hx, hg⟩))
                (by simpa using hp) (fun _ _ => True.intro)

/-! ## What hangs below one slot -/

/-- The frames below slot `k` of the first table. -/
def below (tgt : ε → F) (heap : F → κ → Option ε) (n : Nat) (f : F) (k : κ) : Set F :=
  {g | ∃ x, heap f k = some x ∧ g ∈ foot tgt heap n (fun _ => True) (tgt x)}

theorem below_subset (hk : K k) (hg : g ∈ below tgt heap n f k) : g ∈ foot tgt heap (n + 1) K f := by
  obtain ⟨x, hx, hg⟩ := hg
  exact .inr ⟨k, x, hk, hx, hg⟩

theorem mem_foot_succ :
    g ∈ foot tgt heap (n + 1) K f ↔ g = f ∨ ∃ k, K k ∧ g ∈ below tgt heap n f k := by
  constructor
  · rintro (rfl | ⟨k, x, hk, hx, hg⟩)
    · exact .inl rfl
    · exact .inr ⟨k, hk, x, hx, hg⟩
  · rintro (rfl | ⟨k, hk, x, hx, hg⟩)
    · exact .inl rfl
    · exact .inr ⟨k, x, hk, hx, hg⟩

theorem Tree.notMem_below (ht : Tree tgt heap (n + 1) K f) (hk : K k) : f ∉ below tgt heap n f k := by
  rintro ⟨x, hx, hf⟩
  exact (ht.1 k x hk hx).1 hf

theorem Tree.below_disjoint (ht : Tree tgt heap (n + 1) K f) {k' : κ} (hk : K k) (hk' : K k')
    (hne : k ≠ k') (hg : g ∈ below tgt heap n f k) : g ∉ below tgt heap n f k' := by
  obtain ⟨x, hx, hg⟩ := hg
  rintro ⟨x', hx', hg'⟩
  exact ht.2 k k' x x' hk hk' hx hx' hne g hg hg'

theorem Tree.child (ht : Tree tgt heap (n + 1) K f) (hk : K k) (hx : heap f k = some x) :
    Tree tgt heap n (fun _ => True) (tgt x) :=
  (ht.1 k x hk hx).2

/-- The tables of a tree are a tree. -/
theorem Tree.tables (ht : Tree tgt heap (n + 1) K f) : Tree tgt heap n K f := by
  have hsub : ∀ {g x : F} {n : Nat}, g ∈ foot tgt heap n (fun _ => True) x →
      g ∈ foot tgt heap (n + 1) (fun _ => True) x := by
    intro g x n hg
    rw [← nodes_eq_foot] at hg
    exact nodes_subset_foot hg
  induction n generalizing K f with
  | zero => exact True.intro
  | succ n ih =>
      refine ⟨fun k x hk hx => ⟨fun hf => (ht.1 k x hk hx).1 (hsub hf), ih (ht.1 k x hk hx).2⟩,
        fun k k' x x' hk hk' hx hx' hne g hg hg' => ?_⟩
      exact ht.2 k k' x x' hk hk' hx hx' hne g (hsub hg) (hsub hg')

/-- A frame below a slot is a table of the tree if it is one there. -/
theorem Tree.nodes_child (ht : Tree tgt heap (n + 1) K f) (hk : K k) (hx : heap f k = some x)
    (hg : g ∈ foot tgt heap n (fun _ => True) (tgt x)) :
    g ∈ nodes tgt heap (n + 1) K f ↔ g ∈ nodes tgt heap n (fun _ => True) (tgt x) := by
  refine ⟨?_, fun hn => .inr ⟨k, x, hk, hx, hn⟩⟩
  rintro (rfl | ⟨k', x', hk', hx', hn⟩)
  · exact absurd hg (ht.1 k x hk hx).1
  · by_cases hkk : k = k'
    · subst hkk
      cases hx.symm.trans hx'
      exact hn
    · exact absurd (nodes_subset_foot hn) (ht.2 k k' x x' hk hk' hx hx' hkk g hg)

/-- A change of the tables outside the first one and outside what hangs below
slot `k` does not happen, and what hangs there afterwards was there before or
comes from outside the tree. -/
structure Edit (tgt : ε → F) (heap heap' : F → κ → Option ε) (n : Nat) (K : κ → Prop) (f : F)
    (k : κ) : Prop where
  slot : K k
  top : ∀ k', k' ≠ k → heap' f k' = heap f k'
  rest : ∀ g ∈ foot tgt heap (n + 1) K f, g ≠ f → g ∉ below tgt heap n f k → heap' g = heap g
  tree : ∀ x, heap' f k = some x → Tree tgt heap' n (fun _ => True) (tgt x)
  fresh : ∀ g ∈ below tgt heap' n f k, g ∈ below tgt heap n f k ∨ g ∉ foot tgt heap (n + 1) K f

section Edit

variable (ht : Tree tgt heap (n + 1) K f) (he : Edit tgt heap heap' n K f k)

include ht he

/-- The other frames below the first one stay. -/
theorem Edit.side_foot {k' : κ} (hk' : K k') (hne : k' ≠ k) {x : ε} (hx : heap f k' = some x) :
    ∀ g ∈ foot tgt heap n (fun _ => True) (tgt x), heap' g = heap g := by
  intro g hg
  have hgb : g ∈ below tgt heap n f k' := ⟨x, hx, hg⟩
  refine he.rest g (below_subset hk' hgb) ?_ (ht.below_disjoint hk' he.slot hne hgb)
  rintro rfl
  exact ht.notMem_below hk' hgb

theorem Edit.side {k' : κ} (hk' : K k') (hne : k' ≠ k) {x : ε} (hx : heap f k' = some x) :
    ∀ g ∈ nodes tgt heap n (fun _ => True) (tgt x), heap' g = heap g :=
  fun g hg => he.side_foot ht hk' hne hx g (nodes_subset_foot hg)

theorem Edit.below_side {k' : κ} (hk' : K k') (hne : k' ≠ k) :
    below tgt heap' n f k' = below tgt heap n f k' := by
  ext g
  refine exists_congr fun x => ?_
  rw [he.top k' hne]
  refine and_congr_right fun hx => ?_
  rw [foot_congr (he.side ht hk' hne hx)]

theorem Edit.lookup_side {k' : κ} (hk' : K k') (hne : k' ≠ k) {p : List κ}
    (hp : p.length ≤ n + 1) : lookup tgt heap' f (k' :: p) = lookup tgt heap f (k' :: p) := by
  cases hx : heap f k' with
  | none => rw [lookup_cons_none hx, lookup_cons_none (by rw [he.top k' hne]; exact hx)]
  | some x =>
      cases p with
      | nil => simp only [lookup, he.top k' hne]
      | cons k'' p =>
          rw [lookup_cons hx, lookup_cons (by rw [he.top k' hne]; exact hx)]
          refine lookup_congr (fun g hg => he.side_foot ht hk' hne hx g ?_) hp (fun _ _ => True.intro)
          rwa [nodes_eq_foot] at hg

theorem Edit.result : Tree tgt heap' (n + 1) K f := by
  have hfresh : f ∉ below tgt heap' n f k := fun hf =>
    (he.fresh f hf).elim (ht.notMem_below he.slot) fun hn => hn (.inl rfl)
  -- a frame below `k` is not below another slot
  have happart : ∀ k' g, K k' → k' ≠ k → g ∈ below tgt heap n f k' → g ∉ below tgt heap' n f k := by
    intro k' g hk' hne hg hgk
    rcases he.fresh g hgk with hold | hnew
    · exact ht.below_disjoint hk' he.slot hne hg hold
    · exact hnew (below_subset hk' hg)
  refine ⟨fun k' x hk' hx => ?_, fun k₁ k₂ x₁ x₂ hk₁ hk₂ hx₁ hx₂ hne g hg₁ hg₂ => ?_⟩
  · by_cases hkk : k' = k
    · subst hkk
      exact ⟨fun hf => hfresh ⟨x, hx, hf⟩, he.tree x hx⟩
    · rw [he.top k' hkk] at hx
      rw [foot_congr (he.side ht hk' hkk hx)]
      exact ⟨(ht.1 k' x hk' hx).1, (ht.1 k' x hk' hx).2.congr (he.side ht hk' hkk hx)⟩
  · have hb₁ : g ∈ below tgt heap' n f k₁ := ⟨x₁, hx₁, hg₁⟩
    have hb₂ : g ∈ below tgt heap' n f k₂ := ⟨x₂, hx₂, hg₂⟩
    by_cases h₁ : k₁ = k
    · have h₂ : k₂ ≠ k := fun h => hne (h₁.trans h.symm)
      rw [he.below_side ht hk₂ h₂] at hb₂
      exact happart k₂ g hk₂ h₂ hb₂ (h₁ ▸ hb₁)
    · rw [he.below_side ht hk₁ h₁] at hb₁
      by_cases h₂ : k₂ = k
      · exact happart k₁ g hk₁ h₁ hb₁ (h₂ ▸ hb₂)
      · rw [he.below_side ht hk₂ h₂] at hb₂
        exact ht.below_disjoint hk₁ hk₂ hne hb₁ hb₂

/-- The frames afterwards: those not below `k`, and the new ones below `k`. -/
theorem Edit.mem_foot :
    g ∈ foot tgt heap' (n + 1) K f ↔
      (g ∈ foot tgt heap (n + 1) K f ∧ g ∉ below tgt heap n f k) ∨ g ∈ below tgt heap' n f k := by
  constructor
  · intro hg
    rcases mem_foot_succ.mp hg with rfl | ⟨k', hk', hg⟩
    · exact .inl ⟨.inl rfl, ht.notMem_below he.slot⟩
    · by_cases hne : k' = k
      · exact .inr (hne ▸ hg)
      · rw [he.below_side ht hk' hne] at hg
        exact .inl ⟨below_subset hk' hg, ht.below_disjoint hk' he.slot hne hg⟩
  · rintro (⟨hg, hnb⟩ | hg)
    · rcases mem_foot_succ.mp hg with rfl | ⟨k', hk', hg⟩
      · exact .inl rfl
      · have hne : k' ≠ k := by
          rintro rfl
          exact hnb hg
        rw [← he.below_side ht hk' hne] at hg
        exact below_subset hk' hg
    · exact below_subset he.slot hg

end Edit

/-! ## Paths -/

/-- The frame at the end of a path. -/
def walk (tgt : ε → F) (heap : F → κ → Option ε) (f : F) (p : List κ) : Option F :=
  if p = [] then some f else (lookup tgt heap f p).map tgt

theorem walk_cons {p : List κ} (h : walk tgt heap f (k :: p) = some g) :
    ∃ x, heap f k = some x ∧ walk tgt heap (tgt x) p = some g := by
  rw [walk, if_neg (List.cons_ne_nil k p)] at h
  cases hx : heap f k with
  | none =>
      rw [lookup_cons_none hx] at h
      cases h
  | some x =>
      refine ⟨x, rfl, ?_⟩
      cases p with
      | nil =>
          rw [walk, if_pos rfl]
          simpa only [lookup, hx, Option.map_some] using h
      | cons k' p =>
          rw [walk, if_neg (List.cons_ne_nil k' p), ← lookup_cons hx]
          exact h

theorem walk_step {p : List κ} (hx : heap f k = some x) :
    walk tgt heap f (k :: p) = walk tgt heap (tgt x) p := by
  rw [walk, if_neg (List.cons_ne_nil k p)]
  cases p with
  | nil =>
      rw [walk, if_pos rfl]
      simp only [lookup, hx, Option.map_some]
  | cons k' p => rw [walk, if_neg (List.cons_ne_nil k' p), ← lookup_cons hx]

/-- A path leads somewhere as far as it is followed. -/
theorem walk_take {p : List κ} (h : walk tgt heap f p = some g) (j : Nat) :
    ∃ g', walk tgt heap f (p.take j) = some g' := by
  induction j generalizing f p with
  | zero => exact ⟨f, by rw [List.take_zero, walk, if_pos rfl]⟩
  | succ j ih =>
      cases p with
      | nil => exact ⟨f, by rw [List.take_nil, walk, if_pos rfl]⟩
      | cons k p =>
          obtain ⟨x, hx, hw⟩ := walk_cons h
          rw [List.take_succ_cons, walk_step hx]
          exact ih hw

theorem walk_mem_foot {p : List κ} (hp : p.length ≤ n) (hK : ∀ k ∈ p.head?, K k)
    (h : walk tgt heap f p = some g) : g ∈ foot tgt heap n K f := by
  induction p generalizing n K f with
  | nil =>
      cases h
      exact mem_foot_self
  | cons k p ih =>
      obtain _ | n := n
      · simp at hp
      obtain ⟨x, hx, hw⟩ := walk_cons h
      exact .inr ⟨k, x, hK k rfl, hx, ih (by simpa using hp) (fun _ _ => True.intro) hw⟩

/-- Each frame of a tree stands at the end of one path. -/
theorem Tree.walk_inj (ht : Tree tgt heap n K f) {p p' : List κ} (hp : p.length ≤ n)
    (hp' : p'.length ≤ n) (hK : ∀ k ∈ p.head?, K k) (hK' : ∀ k ∈ p'.head?, K k)
    (h : walk tgt heap f p = some g) (h' : walk tgt heap f p' = some g) : p = p' := by
  induction p generalizing n K f p' with
  | nil =>
      cases h
      cases p' with
      | nil => rfl
      | cons k p' =>
          obtain _ | n := n
          · simp at hp'
          obtain ⟨x, hx, hw⟩ := walk_cons h'
          have hg := walk_mem_foot (K := fun _ => True) (by simpa using hp') (fun _ _ => True.intro) hw
          exact absurd hg (ht.1 k x (hK' k rfl) hx).1
  | cons k p ih =>
      obtain _ | n := n
      · simp at hp
      obtain ⟨x, hx, hw⟩ := walk_cons h
      have hg := walk_mem_foot (n := n) (K := fun _ => True) (by simpa using hp)
        (fun _ _ => True.intro) hw
      cases p' with
      | nil =>
          cases h'
          exact absurd hg (ht.1 k x (hK k rfl) hx).1
      | cons k' p' =>
          obtain ⟨x', hx', hw'⟩ := walk_cons h'
          have hg' := walk_mem_foot (n := n) (K := fun _ => True) (by simpa using hp')
            (fun _ _ => True.intro) hw'
          have hkk : k = k' := by
            by_contra hne
            exact ht.2 k k' x x' (hK k rfl) (hK' k' rfl) hx hx' hne g hg hg'
          subst hkk
          cases hx.symm.trans hx'
          rw [ih (ht.1 k x (hK k rfl) hx).2 (by simpa using hp) (by simpa using hp')
            (fun _ _ => True.intro) (fun _ _ => True.intro) hw hw']

/-- There are no more paths than frames. -/
theorem Tree.card_paths {N c : Nat} (ht : Tree tgt heap n K f) {number : F → Fin c}
    (hnumber : Function.Injective number) {path : Fin N → List κ} (hpath : Function.Injective path)
    (hok : ∀ i, (path i).length ≤ n ∧ (∀ k ∈ (path i).head?, K k) ∧
      ∃ g, walk tgt heap f (path i) = some g) : N ≤ c := by
  choose hlen hhead g hg using hok
  have hinj : Function.Injective fun i => number (g i) := by
    intro i j hij
    have hgg : g i = g j := hnumber hij
    exact hpath (ht.walk_inj (hlen i) (hlen j) (hhead i) (hhead j) (hg i) (hgg ▸ hg j))
  simpa using Fintype.card_le_of_injective _ hinj

/-- The frames behind the last tables are not tables. -/
theorem Tree.leaf_notMem_nodes (ht : Tree tgt heap n K f) {p : List κ} (hp : p.length = n)
    (hK : ∀ k ∈ p.head?, K k) (h : walk tgt heap f p = some g) : g ∉ nodes tgt heap n K f := by
  induction p generalizing n K f with
  | nil =>
      subst hp
      exact Set.notMem_empty g
  | cons k p ih =>
      obtain _ | n := n
      · simp at hp
      have hp : p.length = n := by simpa using hp
      obtain ⟨x, hx, hw⟩ := walk_cons h
      have hg := walk_mem_foot (K := fun _ => True) hp.le (fun _ _ => True.intro) hw
      rintro (rfl | ⟨k', x', hk', hx', hg'⟩)
      · exact (ht.1 k x (hK k rfl) hx).1 hg
      · by_cases hkk : k = k'
        · subst hkk
          cases hx.symm.trans hx'
          exact ih (ht.1 k x (hK k rfl) hx).2 hp (fun _ _ => True.intro) hw hg'
        · exact ht.2 k k' x x' (hK k rfl) hk' hx hx' hkk g hg (nodes_subset_foot hg')

end Radix
