import Rxv64.Vm.Owned

/-!
# Vm.Map — mapping a page

`map_to` takes tables from the free list where they are missing and then sets
one entry. Whether or not it gets that far, no other address changes.
-/

namespace Rxv64.Vm

open Radix

variable {A B : Set Frame} {m m' : Mem} {n : Nat} {K : Fin 512 → Prop} {t page : Frame}
  {l l' : List Frame} {k : Fin 512} {x e : Entry} {va : Nat} {env : Env}
  {E : String → Mem → Prop} {X : String → Prop}

/-- Addresses behind other slots than the one that was changed. -/
theorem view_side (ht : Tree Entry.frame m.heap (n + 1) K t)
    (he : Edit Entry.frame m.heap m'.heap n K t k) {va' : Nat} (hK : K (index n va'))
    (hne : index n va' ≠ k) : m'.view (n + 1) t va' = m.view (n + 1) t va' :=
  he.lookup_side ht hK hne (Nat.le_succ_of_le (length_digits n va').le)

theorem view_empty (h : ∀ k, m.heap t k = none) (va' : Nat) : m.view n t va' = none := by
  obtain _ | n := n
  · rfl
  · exact view_none (h _)

theorem heap_zero (h : m.pages t = Page.zero) (k : Fin 512) : m.heap t k = none := by
  simp only [Mem.heap, h, Page.zero, Entry.isPresent_zero]
  rfl

/-- A tree has grown by pages of the free list. -/
structure Grown (A : Set Frame) (m m' : Mem) (n : Nat) (K : Fin 512 → Prop) (t : Frame)
    (l l' : List Frame) : Prop where
  own : Own A m' n K t l'
  same : Same A m m'
  less : ∀ g ∈ l', g ∈ l
  foot : ∀ g ∈ m'.foot n K t, g ∈ m.foot n K t ∨ g ∈ l
  view : ∀ va, (∀ k ∈ (digits n va).head?, K k) → m'.view n t va = m.view n t va

/-- `next_mut` finds the table or makes an empty one. -/
theorem nextMut_spec (h : Own A m (n + 1 + 1) K t l) (hk : K (index (n + 1) va)) :
    Sat (nextMut (n + 1) t va env m) (fun r m' => ∃ l', Grown A m m' (n + 1 + 1) K t l l' ∧
      ∀ t', r = some t' → ∃ x, m'.heap t (index (n + 1) va) = some x ∧ x.frame = t') E X := by
  unfold nextMut
  refine Sat.gets (Sat.ite (fun hpres => Sat.pure ?_) fun hpres => ?_)
  · refine ⟨l, ⟨h, Same.refl, fun _ hg => hg, fun _ hg => .inl hg, fun _ _ => rfl⟩, ?_⟩
    rintro t' ht'
    cases ht'
    exact ⟨m.pages t (index (n + 1) va), by simp [Mem.heap, hpres], rfl⟩
  · have hnone : m.heap t (index (n + 1) va) = none := by
      simp [Mem.heap, hpres]
    refine Sat.seq h.alloc fun r m₁ hr => ?_
    cases r with
    | none =>
        have hsame : ∀ g, m₁.pages g = m.pages g := fun g => by rw [hr.2]
        refine Sat.pure ⟨l, ⟨hr.1, fun g _ => hsame g, fun _ hg => hg, fun g hg => .inl ?_,
          fun va' hK => view_congr (fun g _ => hsame g) hK⟩, fun t' ht' => by cases ht'⟩
        rwa [foot_frame fun g _ => hsame g] at hg
    | some g =>
        obtain ⟨l', hg⟩ := hr
        have hne : g ≠ t := by
          rintro rfl
          exact hg.out mem_foot_self
        -- the page is cleared once more
        have hm₁ : m₁.setPage g Page.zero = m₁ := by
          rw [Mem.setPage, ← hg.zero, Function.update_eq_self]
        refine Sat.modify (Sat.modify (Sat.pure ?_))
        rw [hm₁]
        obtain ⟨hown', he, hself⟩ := hg.own.hang hk
          (e := Entry.new (physAddr g) ((PageFlags.present.union .user).union .write))
          (by rw [Entry.isPresent_new]; decide) (Entry.frame_new g _) hg.mem hg.notMem hg.out
          (.inr (heap_zero hg.zero))
        have hempty : ∀ k', (m₁.setEntry t (index (n + 1) va) (Entry.new (physAddr g)
            ((PageFlags.present.union .user).union .write))).heap g k' = none := fun k' => by
          rw [heap_eq (setEntry_pages hne)]
          exact heap_zero hg.zero k'
        refine ⟨l', ⟨hown', hg.same.trans (same_setPage (h.sub t mem_foot_self)), fun y hy => ?_,
          fun y hy => ?_, fun va' hK => ?_⟩, fun t' ht' => ?_⟩
        · rw [hg.list]
          exact List.mem_cons_of_mem g hy
        · rcases (he.mem_foot hg.own.tree).mp hy with ⟨hy, -⟩ | ⟨z, hz, hy⟩
          · have hy : y ∈ m₁.foot (n + 1 + 1) K t := hy
            rw [foot_frame hg.nodes] at hy
            exact .inl hy
          · rw [hself] at hz
            cases hz
            rw [Entry.frame_new] at hy
            have hy : y ∈ (m₁.setEntry t (index (n + 1) va) _).foot (n + 1) Any g := hy
            rw [foot_single (.inr fun k' _ => hempty k')] at hy
            rw [hg.list]
            exact .inr (List.mem_cons.mpr (.inl hy))
        · rw [← view_congr hg.nodes hK]
          by_cases hidx : index (n + 1) va' = index (n + 1) va
          · have hold : m₁.heap t (index (n + 1) va') = none := by
              rw [hidx, heap_eq (hg.nodes t (.inl rfl))]
              exact hnone
            rw [view_child (by rw [hidx]; exact hself), Entry.frame_new, view_empty hempty,
              view_none hold]
          · exact view_side hg.own.tree he (hK _ rfl) hidx
        · cases ht'
          exact ⟨_, hself, Entry.frame_new g _⟩

/-- What `map_to` leaves: the tree with `page` in it, or without. -/
structure Mapped (A : Set Frame) (m m' : Mem) (n : Nat) (K : Fin 512 → Prop) (t : Frame)
    (l l' : List Frame) (e : Entry) (va : Nat) (ok : Bool) : Prop where
  own : Own A m' n K t l'
  same : Same A m m'
  less : ∀ g ∈ l', g ∈ l
  out : ok = false → e.frame ∉ m'.foot n K t
  view : ∀ va', (∀ k ∈ (digits n va').head?, K k) → m'.view n t va' =
    if ok = true ∧ digits n va' = digits n va then some e else m.view n t va'

/-- By induction on the levels: the tree below the slot with the free list and
the page to be mapped is a world of its own. -/
theorem mapIn_spec (hpres : e.isPresent = true) (n : Nat) :
    ∀ {A : Set Frame} {m : Mem} {K : Fin 512 → Prop} {t : Frame} {l : List Frame},
      Own A m (n + 1) K t l → K (index n va) → e.frame ∈ A → e.frame ∉ l →
      e.frame ∉ m.foot (n + 1) K t →
      Sat (mapIn e n t va env m)
        (fun ok m' => ∃ l', Mapped A m m' (n + 1) K t l l' e va ok) E X := by
  induction n with
  | zero =>
      intro A m K t l h hk hA hl hf
      refine Sat.modify (Sat.pure ⟨l, ?_⟩)
      obtain ⟨hown, he, hself⟩ := h.hang hk hpres rfl hA hl hf (.inl rfl)
      refine ⟨hown, same_setPage (h.sub t mem_foot_self), fun _ hg => hg,
        fun hok => (by cases hok), fun va' hK => ?_⟩
      by_cases hidx : index 0 va' = index 0 va
      · rw [if_pos ⟨rfl, by simp [digits, hidx]⟩, view_one, hidx]
        exact hself
      · rw [if_neg (by simp [digits, hidx])]
        exact view_side h.tree he (hK _ rfl) hidx
  | succ n ih =>
      intro A m K t l h hk hA hl hf
      refine Sat.seq (nextMut_spec h hk) fun r m₁ hr => ?_
      obtain ⟨l₁, hgrown, hnext⟩ := hr
      have hl₁ : e.frame ∉ l₁ := fun hg => hl (hgrown.less _ hg)
      have hf₁ : e.frame ∉ m₁.foot (n + 1 + 1) K t := fun hg =>
        (hgrown.foot _ hg).elim hf hl
      cases r with
      | none =>
          refine Sat.pure ⟨l₁, hgrown.own, hgrown.same, hgrown.less, fun _ => hf₁, fun va' hK => ?_⟩
          rw [if_neg (by simp)]
          exact hgrown.view va' hK
      | some t' =>
          obtain ⟨x, hx, rfl⟩ := hnext t' rfl
          let B : Set Frame :=
            {g | g ∈ m₁.foot (n + 1) Any x.frame ∨ g ∈ l₁ ∨ g = e.frame}
          have hBA : ∀ g ∈ B, g ∈ A := by
            rintro g (hg | hg | rfl)
            · exact hgrown.own.sub g (foot_child hk hx hg)
            · exact hgrown.own.pool.mem g hg
            · exact hA
          have hB : ∀ g ∈ B, g ∈ m₁.foot (n + 1) Any x.frame ∨ g ∉ m₁.foot (n + 1 + 1) K t := by
            rintro g (hg | hg | rfl)
            · exact .inl hg
            · exact .inr fun hgf => hgrown.own.apart g hgf hg
            · exact .inr hf₁
          have hin := hgrown.own.enter (B := B) hk hx (fun g hg => .inr (.inl hg))
            (fun g hg => .inl hg)
          refine (ih hin True.intro (.inr (.inr rfl)) hl₁
            fun hg => hf₁ (foot_child hk hx hg)).imp ?_ (fun _ _ he => he) (fun _ hx => hx)
          rintro ok m₂ ⟨l₂, hmap⟩
          obtain ⟨he, htop⟩ := hgrown.own.edit hk hx hB hmap.own hmap.same
          have hx₂ : m₂.heap t (index (n + 1) va) = some x := by rw [htop]; exact hx
          refine ⟨l₂, hgrown.own.leave hk hx hBA hB hmap.own hmap.same,
            hgrown.same.trans (hmap.same.mono hBA), fun g hg => hgrown.less g (hmap.less g hg),
            fun hok hg => ?_, fun va' hK => ?_⟩
          · rcases (he.mem_foot hgrown.own.tree).mp hg with ⟨hold, -⟩ | ⟨y, hy, hg⟩
            · exact hf₁ hold
            · cases hx₂.symm.trans hy
              exact hmap.out hok hg
          · rw [← hgrown.view va' hK]
            by_cases hidx : index (n + 1) va' = index (n + 1) va
            · rw [view_child (by rw [hidx]; exact hx₂), view_child (by rw [hidx]; exact hx),
                hmap.view va' fun _ _ => True.intro]
              have hdig : digits (n + 1 + 1) va' = digits (n + 1 + 1) va ↔
                  digits (n + 1) va' = digits (n + 1) va := by
                simp [digits, hidx]
              simp only [hdig]
            · rw [if_neg (by simp [digits, hidx])]
              exact view_side hgrown.own.tree he (hK _ rfl) hidx

/-- `map_to`, on the user half of a table. -/
theorem mapTo_spec {root : Frame} {flags : PageFlags} (h : Own A m 4 UserHalf root l)
    (hva : UserHalf (index 3 va)) (hA : page ∈ A) (hl : page ∉ l)
    (hf : page ∉ m.foot 4 UserHalf root) :
    Sat (mapTo root (physAddr page) va flags env m)
      (fun _ m' => ∃ l', Mapped A m m' 4 UserHalf root l l'
        (Entry.new (physAddr page) flags).enable va true)
      (fun _ m' => ∃ l', Mapped A m m' 4 UserHalf root l l'
        (Entry.new (physAddr page) flags).enable va false) X := by
  have hframe : (Entry.new (physAddr page) flags).enable.frame = page := by simp
  refine Sat.seq (mapIn_spec (Entry.isPresent_enable _) 3 h hva (by rwa [hframe])
    (by rwa [hframe]) (by rwa [hframe])) fun ok m' hm => ?_
  cases ok with
  | true => exact Sat.pure hm
  | false => exact ⟨hm⟩

end Rxv64.Vm
