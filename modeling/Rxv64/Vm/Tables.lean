import Rxv64.Vm.Map

/-!
# Vm.Tables — a page table without the pages it maps

The tables of a page table are a tree of one level less. `map_to` changes only
them and takes from the free list only. So it does not matter what the entries
of the last level point to: in the kernel's half that is all of memory, the
tables themselves included.
-/

namespace Rxv64.Vm

open Radix

variable {A B : Set Frame} {m m' : Mem} {n lvl : Nat} {K : Fin 512 → Prop} {t : Frame}
  {l l' : List Frame} {k : Fin 512} {x e : Entry} {va : Nat} {env : Env}
  {E : String → Mem → Prop} {X : String → Prop}

/-- Something is refused, or there are less than `d` pages. -/
def Scarce (env : Env) (d : Nat) (l : List Frame) : Prop := (∃ i, env.deny i = true) ∨ l.length < d

theorem not_scarce {d : Nat} (hdeny : ∀ i, env.deny i = false) (hl : d ≤ l.length) :
    ¬Scarce env d l := by
  rintro (⟨i, hi⟩ | hlt)
  · cases (hdeny i).symm.trans hi
  · omega

/-- `next_mut`: the table is there, or a page of the free list hangs in the slot. -/
theorem nextMut_tables (h : Own A m (n + 1) K t l) (hk : K (index lvl va)) :
    Sat (nextMut lvl t va env m) (fun r m' => match r with
      | none => Own A m' (n + 1) K t l ∧ m'.pages = m.pages ∧ Scarce env 1 l
      | some t' => ∃ x l', m'.heap t (index lvl va) = some x ∧ x.frame = t' ∧
          Own A m' (n + 1) K t l' ∧ (∀ g ∈ l', g ∈ l) ∧ l.length ≤ l'.length + 1 ∧ Same A m m' ∧
          ((m' = m ∧ l' = l) ∨
            (m.heap t (index lvl va) = none ∧ (∀ k, m'.heap t' k = none) ∧
              Edit Entry.frame m.heap m'.heap n K t (index lvl va)))) E X := by
  unfold nextMut
  refine Sat.gets (Sat.ite (fun hpres => Sat.pure ?_) fun hpres => ?_)
  · have hx : m.heap t (index lvl va) = some (m.pages t (index lvl va)) := by
      rw [Mem.heap, if_pos hpres]
    exact ⟨_, l, hx, rfl, h, fun _ hg => hg, Nat.le_succ _, Same.refl, .inl ⟨rfl, rfl⟩⟩
  · have hnone : m.heap t (index lvl va) = none := by
      simp [Mem.heap, hpres]
    refine Sat.seq (h.alloc.also h.pool.alloc_count) fun r m₁ hr => ?_
    obtain ⟨hr, -, hwhy⟩ := hr
    cases r with
    | none =>
        refine Sat.pure ⟨hr.1, hr.2, hwhy.imp (fun hd => ⟨_, hd⟩) fun hl => ?_⟩
        rw [hl]
        exact Nat.one_pos
    | some g =>
        obtain ⟨l', hg⟩ := hr
        have hne : g ≠ t := by
          rintro rfl
          exact hg.out mem_foot_self
        have hm₁ : m₁.setPage g Page.zero = m₁ := by
          rw [Mem.setPage, ← hg.zero, Function.update_eq_self]
        refine Sat.modify (Sat.modify (Sat.pure ?_))
        rw [hm₁]
        obtain ⟨hown, he, hself⟩ := hg.own.hang hk
          (e := Entry.new (physAddr g) ((PageFlags.present.union .user).union .write))
          (by rw [Entry.isPresent_new]; decide) (Entry.frame_new g _) hg.mem hg.notMem hg.out
          (.inr (heap_zero hg.zero))
        have hless : ∀ y ∈ l', y ∈ l := fun y hy => by
          rw [hg.list]
          exact List.mem_cons_of_mem g hy
        have hnew : g ∈ l := by
          rw [hg.list]
          exact List.mem_cons_self
        have hfree : ∀ y ∈ m.foot (n + 1) K t, y ≠ g := by
          rintro y hy rfl
          exact h.apart y hy hnew
        have hone : l.length ≤ l'.length + 1 := by rw [hg.list, List.length_cons]
        refine ⟨_, l', hself, Entry.frame_new g _, hown, hless, hone,
          hg.same.trans (same_setPage (h.sub t mem_foot_self)), .inr ⟨hnone, fun k' => ?_, ?_⟩⟩
        · rw [heap_eq (setEntry_pages hne)]
          exact heap_zero hg.zero k'
        · -- nothing else was taken
          have hpages : ∀ y, y ≠ g → m₁.pages y = m.pages y := hg.pages
          refine ⟨he.slot, fun k' hk' => ?_, fun y hy hyt hnb => ?_, he.tree, fun y hy => ?_⟩
          · rw [he.top k' hk', heap_eq (hpages t (Ne.symm hne))]
          · rw [heap_eq (setEntry_pages hyt), heap_eq (hpages y (hfree y hy))]
          · right
            obtain ⟨z, hz, hy⟩ := hy
            rw [hself] at hz
            cases hz
            rw [Entry.frame_new] at hy
            have hy : y ∈ (m₁.setEntry t (index lvl va) _).foot n Any g := hy
            rw [foot_single (.inr fun k' _ => by
              rw [heap_eq (setEntry_pages hne)]; exact heap_zero hg.zero k')] at hy
            exact fun hf => hfree y hf hy

/-- Addresses behind other slots, one level below the frames of the tree. -/
theorem view_other (ht : Tree Entry.frame m.heap (n + 1) K t)
    (he : Edit Entry.frame m.heap m'.heap n K t k) {v : Nat} (hK : K (index (n + 1) v))
    (hne : index (n + 1) v ≠ k) : m'.view (n + 1 + 1) t v = m.view (n + 1 + 1) t v :=
  he.lookup_side ht hK hne (length_digits (n + 1) v).le

/-- What `map_to` does to the tables: the entry of one page is set, or nothing
is mapped. -/
structure Remapped (A : Set Frame) (m m' : Mem) (n : Nat) (K : Fin 512 → Prop) (t : Frame)
    (l l' : List Frame) (e : Entry) (va : Nat) (ok : Bool) : Prop where
  own : Own A m' n K t l'
  same : Same A m m'
  less : ∀ g ∈ l', g ∈ l
  view : ∀ v, (∀ k ∈ (digits (n + 1) v).head?, K k) → m'.view (n + 1) t v =
    if ok = true ∧ digits (n + 1) v = digits (n + 1) va then some e else m.view (n + 1) t v

theorem Remapped.last (hpres : e.isPresent = true) (h : Own A m 0 K t l) :
    Remapped A m (m.setEntry t (index 0 va) e) 0 K t l l e va true := by
  have htl : t ∉ l := h.apart t mem_foot_self
  refine ⟨⟨h.pool.frame rfl fun g hg => setEntry_pages ?_, True.intro, h.sub, h.apart⟩,
    same_setPage (h.sub t mem_foot_self), fun _ hg => hg, fun v _ => ?_⟩
  · rintro rfl
    exact htl hg
  · rw [view_one, view_one]
    by_cases hidx : index 0 v = index 0 va
    · rw [if_pos ⟨rfl, by simp [digits, hidx]⟩, hidx, heap_setEntry_self, if_pos hpres]
    · rw [if_neg (by simp [digits, hidx]), heap_setEntry _ e hidx]

/-- By induction on the levels. It takes a page for each level at most, and
gets what it needs if it can. -/
theorem mapIn_tables (hpres : e.isPresent = true) (n : Nat) :
    ∀ {A : Set Frame} {m : Mem} {K : Fin 512 → Prop} {t : Frame} {l : List Frame},
      Own A m n K t l → K (index n va) →
      Sat (mapIn e n t va env m)
        (fun ok m' => ∃ l', Remapped A m m' n K t l l' e va ok ∧ l.length ≤ l'.length + n ∧
          (ok = false → Scarce env n l)) E X := by
  induction n with
  | zero =>
      intro A m K t l h _
      exact Sat.modify (Sat.pure ⟨l, .last hpres h, Nat.le_refl _, fun hok => by cases hok⟩)
  | succ n ih =>
      intro A m K t l h hk
      refine Sat.seq (nextMut_tables h hk) fun r m₁ hr => ?_
      cases r with
      | none =>
          have hheap : m₁.heap = m.heap := by
            funext g
            exact heap_eq (by rw [hr.2.1])
          refine Sat.pure ⟨l, ⟨hr.1, fun g _ => by rw [hr.2.1], fun _ hg => hg, fun v _ => ?_⟩,
            Nat.le_add_right _ _, fun _ => hr.2.2.imp_right fun hlt => by omega⟩
          rw [if_neg (fun hn => Bool.false_ne_true hn.1), Mem.view, hheap]
          rfl
      | some t' =>
          obtain ⟨x, l₁, hx, rfl, hown, hless, hone, hsame, hcase⟩ := hr
          let B : Set Frame := {g | g ∈ m₁.foot n Any x.frame ∨ g ∈ l₁}
          have hBA : ∀ g ∈ B, g ∈ A := by
            rintro g (hg | hg)
            · exact hown.sub g (foot_child hk hx hg)
            · exact hown.pool.mem g hg
          have hB : ∀ g ∈ B, g ∈ m₁.foot n Any x.frame ∨ g ∉ m₁.foot (n + 1) K t := by
            rintro g (hg | hg)
            · exact .inl hg
            · exact .inr fun hgf => hown.apart g hgf hg
          have hin := hown.enter (B := B) hk hx (fun g hg => .inr hg) (fun g hg => .inl hg)
          refine (ih hin True.intro).imp ?_ (fun _ _ he => he) (fun _ hx => hx)
          rintro ok m₂ ⟨l₂, hmap, hcount, hwhy⟩
          obtain ⟨he, htop⟩ := hown.edit hk hx hB hmap.own hmap.same
          have hx₂ : m₂.heap t (index (n + 1) va) = some x := by rw [htop]; exact hx
          refine ⟨l₂, ⟨hown.leave hk hx hBA hB hmap.own hmap.same, hsame.trans (hmap.same.mono hBA),
            fun g hg => hless g (hmap.less g hg), fun v hK => ?_⟩, by omega,
            fun hok => (hwhy hok).imp_right fun hlt => by omega⟩
          by_cases hidx : index (n + 1) v = index (n + 1) va
          · have hdig : digits (n + 1 + 1) v = digits (n + 1 + 1) va ↔
                digits (n + 1) v = digits (n + 1) va := by
              simp [digits, hidx]
            have hold : m₁.view (n + 1) x.frame v = m.view (n + 1 + 1) t v := by
              rcases hcase with ⟨rfl, -⟩ | ⟨hnone, hempty, -⟩
              · rw [view_child (by rw [hidx]; exact hx)]
              · have hv : m.heap t (index (n + 1) v) = none := by rw [hidx]; exact hnone
                rw [view_none hv, view_empty hempty]
            rw [view_child (by rw [hidx]; exact hx₂), hmap.view v fun _ _ => True.intro, hold]
            simp only [hdig]
          · have hold : m₁.view (n + 1 + 1) t v = m.view (n + 1 + 1) t v := by
              rcases hcase with ⟨rfl, -⟩ | ⟨-, -, he₁⟩
              · rfl
              · exact view_other h.tree he₁ (hK _ rfl) hidx
            rw [view_other hown.tree he (hK _ rfl) hidx, hold, if_neg]
            rintro ⟨-, hd⟩
            rw [digits, digits] at hd
            exact hidx (List.cons.inj hd).1

/-- `map_to`, by the tables alone. -/
theorem mapTo_tables {root : Frame} {pa : BitVec 64} {flags : PageFlags} (h : Own A m 3 K root l)
    (hk : K (index 3 va)) :
    Sat (mapTo root pa va flags env m)
      (fun _ m' => ∃ l', Remapped A m m' 3 K root l l' (Entry.new pa flags).enable va true)
      (fun _ m' => ∃ l', Remapped A m m' 3 K root l l' (Entry.new pa flags).enable va false) X := by
  refine Sat.seq (mapIn_tables (Entry.isPresent_enable _) 3 h hk) fun ok m' hm => ?_
  obtain ⟨l', hmap, -⟩ := hm
  cases ok with
  | true => exact Sat.pure ⟨l', hmap⟩
  | false => exact ⟨l', hmap⟩

/-- With three free pages that nobody refuses, `map_to` does not fail. -/
theorem mapTo_supplied {root : Frame} {pa : BitVec 64} {flags : PageFlags}
    (hdeny : ∀ i, env.deny i = false) (h : Own A m 3 K root l) (hk : K (index 3 va))
    (hl : 3 ≤ l.length) :
    Sat (mapTo root pa va flags env m)
      (fun _ m' => ∃ l', Own A m' 3 K root l' ∧ l.length ≤ l'.length + 3)
      (fun _ _ => False) X := by
  refine Sat.seq (mapIn_tables (Entry.isPresent_enable _) 3 h hk) fun ok m' hm => ?_
  obtain ⟨l', hmap, hcount, hwhy⟩ := hm
  cases ok with
  | true => exact Sat.pure ⟨l', hmap.own, hcount⟩
  | false => exact absurd (hwhy rfl) (not_scarce hdeny hl)

/-- The tables of a tree and the free list, and nothing else. -/
theorem Own.tables (h : Own A m (n + 1) K t l) :
    Own {g | g ∈ m.nodes (n + 1) K t ∨ g ∈ l} m n K t l := by
  refine ⟨⟨h.pool.chain, h.pool.nodup, fun g hg => .inr hg⟩, h.tree.tables, fun g hg => .inl ?_,
    fun g hg => h.apart g (nodes_subset_foot ?_)⟩
  · rwa [Mem.nodes, nodes_eq_foot]
  · rwa [nodes_eq_foot]

end Rxv64.Vm
