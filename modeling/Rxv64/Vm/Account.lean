import Rxv64.Vm.Sweep

/-!
# Vm.Account — what mapping a page takes from the free list

`map_to` asks for one page after the other for the tables that are missing on
the path, and keeps what it got when it is refused. What it hangs into the tree
is what `free_user_pages` would free again if it were asked for the address:
the set `freesIn` of frames that a sweep would free grows by just these frames,
and no table that is in use gets dead.
-/

namespace Rxv64.Vm

open Radix

variable {A B : Set Frame} {T : Nat → Nat → Prop} {m m₁ m' : Mem} {n : Nat} {K : Fin 512 → Prop}
  {t root page g : Frame} {l l' us new : List Frame} {k : Fin 512} {x e : Entry} {va v b : Nat}
  {env : Env} {E : String → Mem → Prop} {X : String → Prop}

theorem nodes_frame (heq : ∀ g ∈ m.nodes n K t, m'.pages g = m.pages g) :
    m'.nodes n K t = m.nodes n K t :=
  nodes_congr fun g hg => heap_eq (heq g hg)

/-! ## What a sweep would free -/

/-- The frames below slot `k` that a sweep frees. -/
def freesAt (T : Nat → Nat → Prop) (m : Mem) (n : Nat) (t : Frame) (b : Nat) (k : Fin 512) :
    Set Frame :=
  {g | ∃ x, m.heap t k = some x ∧ g ∈ frees T m n x.frame (b * 512 + k)}

/-- A sweep leaves nothing in slot `k`. -/
def BareAt (T : Nat → Nat → Prop) (m : Mem) (n : Nat) (t : Frame) (b : Nat) (k : Fin 512) : Prop :=
  m.pages t k = 0 ∨ DeadAt T m n t b k

/-- The frames below a table that a sweep frees. -/
def freesIn (T : Nat → Nat → Prop) (m : Mem) (n : Nat) (K : Fin 512 → Prop) (t : Frame) (b : Nat) :
    Set Frame :=
  {g | ∃ k, K k ∧ g ∈ freesAt T m n t b k}

def Bare (T : Nat → Nat → Prop) (m : Mem) (n : Nat) (K : Fin 512 → Prop) (t : Frame) (b : Nat) :
    Prop :=
  ∀ k, K k → BareAt T m n t b k

theorem mem_frees_succ :
    g ∈ frees T m (n + 1) t b ↔ (g = t ∧ Dead T m (n + 1) t b) ∨ g ∈ freesIn T m n Any t b := by
  refine or_congr_right ⟨?_, ?_⟩
  · rintro ⟨k, x, hx, hg⟩
    exact ⟨k, True.intro, x, hx, hg⟩
  · rintro ⟨k, -, x, hx, hg⟩
    exact ⟨k, x, hx, hg⟩

theorem dead_succ : Dead T m (n + 1) t b ↔ T (n + 1) b ∧ Bare T m n Any t b :=
  and_congr_right fun _ => ⟨fun h k _ => h k, fun h k => h k True.intro⟩

/-- A slot with nothing changed in and below it. -/
theorem slot_congr (hpage : m'.pages t k = m.pages t k)
    (hbelow : ∀ x, m.heap t k = some x → ∀ g ∈ m.nodes n Any x.frame, m'.pages g = m.pages g) :
    freesAt T m' n t b k = freesAt T m n t b k ∧ (BareAt T m' n t b k ↔ BareAt T m n t b k) := by
  have hheap : m'.heap t k = m.heap t k := by simp only [Mem.heap, hpage]
  constructor
  · ext g
    refine exists_congr fun x => ?_
    rw [hheap]
    exact and_congr_right fun hx => by rw [frees_congr (hbelow x hx)]
  · unfold BareAt DeadAt
    rw [hpage, hheap]
    exact or_congr_right (exists_congr fun x => and_congr_right fun hx => dead_congr (hbelow x hx))

/-- Tables whose entries are zero or present. -/
abbrev Clean (m : Mem) (n : Nat) (K : Fin 512 → Prop) (t : Frame) (b : Nat) : Prop :=
  Bare (fun _ _ => True) m n K t b

theorem Clean.child (h : Clean m (n + 1) K t b) (hk : K k) (hx : m.heap t k = some x) :
    Clean m n Any x.frame (b * 512 + k) := by
  rcases h k hk with hz | ⟨x', hx', hd⟩
  · rw [Mem.heap, hz, Entry.isPresent_zero] at hx
    cases hx
  · cases hx.symm.trans hx'
    exact (dead_succ.mp hd).2

theorem Clean.zero (h : Clean m n K t b) (hk : K k) (hx : m.heap t k = none) :
    m.pages t k = 0 := by
  rcases h k hk with hz | ⟨x', hx', -⟩
  · exact hz
  · cases hx.symm.trans hx'

/-! ## Tables that are missing -/

/-- How many tables are missing on the path of an address, below a table with
`n` levels of tables below it. -/
def Mem.missing (m : Mem) (va : Nat) : Nat → Frame → Nat
  | 0, _ => 0
  | n + 1, t => match m.next (n + 1) t va with
      | some t' => m.missing va n t'
      | none => n + 1

/-- How many of them would be missing on the path of `v` if only the path of
`va` had tables. -/
def apart (va v : Nat) : Nat → Nat
  | 0 => 0
  | n + 1 => if va / span (n + 1) = v / span (n + 1) then apart va v n else n + 1

theorem missing_le (va n : Nat) (t : Frame) : m.missing va n t ≤ n := by
  induction n generalizing t with
  | zero => exact Nat.le_refl 0
  | succ n ih =>
      rw [Mem.missing]
      split
      · exact Nat.le_succ_of_le (ih _)
      · exact Nat.le_refl _

theorem missing_some (h : m.heap t (index (n + 1) va) = some x) :
    m.missing va (n + 1) t = m.missing va n x.frame := by
  rw [Mem.missing, next_eq, h]
  rfl

theorem missing_none (h : m.heap t (index (n + 1) va) = none) : m.missing va (n + 1) t = n + 1 := by
  rw [Mem.missing, next_eq, h]
  rfl

theorem missing_empty (h : ∀ k, m.heap t k = none) (va n : Nat) : m.missing va n t = n := by
  cases n with
  | zero => rfl
  | succ n => exact missing_none (h _)

theorem missing_congr (h : ∀ g ∈ m.nodes (n + 1) K t, m'.pages g = m.pages g) (hK : K (index n va)) :
    m'.missing va n t = m.missing va n t := by
  induction n generalizing K t with
  | zero => rfl
  | succ n ih =>
      have ht := heap_eq (h t (.inl rfl))
      cases hx : m.heap t (index (n + 1) va) with
      | none => rw [missing_none hx, missing_none (by rw [ht]; exact hx)]
      | some x =>
          rw [missing_some hx, missing_some (by rw [ht]; exact hx)]
          exact ih (fun g hg => h g (.inr ⟨_, x, hK, hx, hg⟩)) True.intro

/-- The tables behind another slot of the first table. -/
theorem missing_slot (hheap : m'.heap t (index (n + 1) v) = m.heap t (index (n + 1) v))
    (hbelow : ∀ x, m.heap t (index (n + 1) v) = some x →
      ∀ g ∈ m.nodes (n + 1) Any x.frame, m'.pages g = m.pages g) :
    m'.missing v (n + 1) t = m.missing v (n + 1) t := by
  cases hx : m.heap t (index (n + 1) v) with
  | none => rw [missing_none hx, missing_none (hheap.trans hx)]
  | some x =>
      rw [missing_some hx, missing_some (hheap.trans hx)]
      exact missing_congr (hbelow x hx) True.intro

theorem apart_le (va v n : Nat) : apart va v n ≤ n := by
  induction n with
  | zero => exact Nat.le_refl 0
  | succ n ih =>
      rw [apart]
      split
      · exact Nat.le_succ_of_le ih
      · exact Nat.le_refl _

/-! ## Growing -/

/-- The pages `us` of the free list and the pages `new` hang in the tree now. -/
structure Grows (T : Nat → Nat → Prop) (env : Env) (m m' : Mem) (n : Nat) (K : Fin 512 → Prop)
    (t : Frame) (b : Nat) (l l' us new : List Frame) : Prop where
  list : l = us ++ l'
  granted : ∀ i < us.length, env.deny (m.allocs + i) = false
  frees : ∀ g, g ∈ freesIn T m' n K t b ↔ g ∈ freesIn T m n K t b ∨ g ∈ us ∨ g ∈ new
  bare : Bare T m' n K t b ↔ Bare T m n K t b
  nodes : ∀ g ∈ m'.nodes (n + 1) K t, g ∈ m.nodes (n + 1) K t ∨ g ∈ us
  still : ∀ g, g ∉ m.nodes (n + 1) K t → g ∉ us → m'.pages g = m.pages g
  half : ∀ k, ¬K k → m'.pages t k = m.pages t k

namespace Grows

theorem refl (h : m'.pages = m.pages) : Grows T env m m' n K t b l l [] [] := by
  have hslot : ∀ k, freesAt T m' n t b k = freesAt T m n t b k ∧
      (BareAt T m' n t b k ↔ BareAt T m n t b k) := fun k =>
    slot_congr (by rw [h]) fun _ _ _ _ => by rw [h]
  refine ⟨rfl, fun _ hi => absurd hi (Nat.not_lt_zero _), fun g => ?_,
    forall_congr' fun k => imp_congr_right fun _ => (hslot k).2, fun g hg => .inl ?_,
    fun _ _ _ => by rw [h], fun _ _ => by rw [h]⟩
  · simp only [List.not_mem_nil, or_false]
    exact exists_congr fun k => and_congr_right fun _ => by rw [(hslot k).1]
  · have hnodes : m'.nodes (n + 1) K t = m.nodes (n + 1) K t := nodes_frame fun y _ => by rw [h]
    rwa [hnodes] at hg

theorem trans {l'' us' new' : List Frame} (h : Grows T env m m₁ n K t b l l' us new)
    (h' : Grows T env m₁ m' n K t b l' l'' us' new') (hcount : m₁.allocs = m.allocs + us.length) :
    Grows T env m m' n K t b l l'' (us ++ us') (new ++ new') where
  list := by rw [h.list, h'.list, List.append_assoc]
  granted := fun i hi => by
    rw [List.length_append] at hi
    by_cases hlt : i < us.length
    · exact h.granted i hlt
    · have := h'.granted (i - us.length) (by omega)
      rwa [hcount, show m.allocs + us.length + (i - us.length) = m.allocs + i by omega] at this
  frees := fun g => by
    rw [h'.frees, h.frees, List.mem_append, List.mem_append]
    tauto
  bare := h'.bare.trans h.bare
  nodes := fun g hg => by
    rw [List.mem_append]
    rcases h'.nodes g hg with hg | hg
    · exact (h.nodes g hg).imp_right .inl
    · exact .inr (.inr hg)
  still := fun g hg hus => by
    rw [List.mem_append, not_or] at hus
    rw [h'.still g (fun hn => (h.nodes g hn).elim hg hus.1) hus.2, h.still g hg hus.1]
  half := fun k hk => (h'.half k hk).trans (h.half k hk)

/-- A change in and below one slot. -/
theorem of_slot (hk : K k) (hlist : l = us ++ l')
    (hgranted : ∀ i < us.length, env.deny (m.allocs + i) = false)
    (hpage : ∀ k', k' ≠ k → m'.pages t k' = m.pages t k')
    (hside : ∀ k' x, K k' → k' ≠ k → m.heap t k' = some x →
      ∀ g ∈ m.nodes n Any x.frame, m'.pages g = m.pages g)
    (hfrees : ∀ g, g ∈ freesAt T m' n t b k ↔ g ∈ freesAt T m n t b k ∨ g ∈ us ∨ g ∈ new)
    (hbare : BareAt T m' n t b k ↔ BareAt T m n t b k)
    (hnodes : ∀ x, m'.heap t k = some x → ∀ g ∈ m'.nodes n Any x.frame,
      g ∈ m.nodes (n + 1) K t ∨ g ∈ us)
    (hstill : ∀ g, g ∉ m.nodes (n + 1) K t → g ∉ us → m'.pages g = m.pages g) :
    Grows T env m m' n K t b l l' us new := by
  have hother : ∀ k', K k' → k' ≠ k → freesAt T m' n t b k' = freesAt T m n t b k' ∧
      (BareAt T m' n t b k' ↔ BareAt T m n t b k') := fun k' hk' hne =>
    slot_congr (hpage k' hne) fun x hx => hside k' x hk' hne hx
  refine ⟨hlist, hgranted, fun g => ⟨?_, ?_⟩, ⟨fun h k' hk' => ?_, fun h k' hk' => ?_⟩,
    fun g hg => ?_, hstill, fun k' hk' => hpage k' ?_⟩
  · rintro ⟨k', hk', hg⟩
    by_cases hkk : k' = k
    · subst hkk
      exact ((hfrees g).mp hg).imp_left fun hold => ⟨k', hk', hold⟩
    · rw [(hother k' hk' hkk).1] at hg
      exact .inl ⟨k', hk', hg⟩
  · rintro (⟨k', hk', hg⟩ | hg)
    · by_cases hkk : k' = k
      · subst hkk
        exact ⟨k', hk', (hfrees g).mpr (.inl hg)⟩
      · rw [← (hother k' hk' hkk).1] at hg
        exact ⟨k', hk', hg⟩
    · exact ⟨k, hk, (hfrees g).mpr (.inr hg)⟩
  · by_cases hkk : k' = k
    · subst hkk
      exact hbare.mp (h k' hk')
    · exact (hother k' hk' hkk).2.mp (h k' hk')
  · by_cases hkk : k' = k
    · subst hkk
      exact hbare.mpr (h k' hk')
    · exact (hother k' hk' hkk).2.mpr (h k' hk')
  · obtain rfl | ⟨k', x, hk', hx, hg⟩ := hg
    · exact .inl (.inl rfl)
    · by_cases hkk : k' = k
      · subst hkk
        exact hnodes x hx g hg
      · have hheap : m'.heap t k' = m.heap t k' := by simp only [Mem.heap, hpage k' hkk]
        rw [hheap] at hx
        have hg : g ∈ m'.nodes n Any x.frame := hg
        rw [nodes_frame (hside k' x hk' hkk hx)] at hg
        exact .inl (.inr ⟨k', x, hk', hx, hg⟩)
  · rintro rfl
    exact hk' hk

/-- What grows below a slot. -/
theorem lift (h : Own A m (n + 1 + 1) K t l) (hk : K k) (hx : m.heap t k = some x)
    (hin : Grows T env m m' n Any x.frame (b * 512 + k) l l' us new) :
    Grows T env m m' (n + 1) K t b l l' us new := by
  have hus : ∀ y ∈ m.foot (n + 1 + 1) K t, y ∉ us := fun y hy hmem =>
    h.apart y hy (by rw [hin.list]; exact List.mem_append_left _ hmem)
  have htop : m'.pages t = m.pages t := hin.still t
    (fun hn => (h.tree.1 k x hk hx).1 (nodes_subset_foot hn)) (hus t mem_foot_self)
  have hheap : m'.heap t = m.heap t := heap_eq htop
  have hdead : Dead T m' (n + 1) x.frame (b * 512 + k) ↔ Dead T m (n + 1) x.frame (b * 512 + k) := by
    rw [dead_succ, dead_succ, hin.bare]
  refine of_slot hk hin.list hin.granted (fun k' _ => by rw [htop]) (fun k' x' hk' hne hx' y hy => ?_)
    (fun g => ?_) ?_ (fun x' hx' y hy => ?_) fun g hg hgus => hin.still g (fun hn => ?_) hgus
  · have hyb : y ∈ m.below (n + 1) t k' := ⟨x', hx', nodes_subset_foot hy⟩
    refine hin.still y (fun hn => ?_) (hus y (below_subset hk' hyb))
    exact h.tree.below_disjoint hk' hk hne hyb ⟨x, hx, nodes_subset_foot hn⟩
  · simp only [freesAt, Set.mem_ofPred_eq, hheap, hx, Option.some.injEq, exists_eq_left']
    rw [mem_frees_succ, mem_frees_succ, hdead, hin.frees, or_assoc]
  · unfold BareAt DeadAt
    rw [htop, hheap, hx]
    simp only [Option.some.injEq, exists_eq_left', hdead]
  · rw [hheap, hx] at hx'
    cases hx'
    exact (hin.nodes y hy).imp_left fun hn => .inr ⟨k, x, hk, hx, hn⟩
  · exact hg (.inr ⟨k, x, hk, hx, hn⟩)

end Grows

/-! ## `map_to` -/

/-- A page is hung into an empty slot; a sweep would free it and nothing below it. -/
theorem Grows.hang {g : Frame} (h : Own A m (n + 1) K t l) (hk : K k) (hzero : m.pages t k = 0)
    (hpres : e.isPresent = true) (hfrees : ∀ y, y ∈ Vm.frees T m' n e.frame (b * 512 + k) ↔ y = g)
    (hdead : Dead T m' n e.frame (b * 512 + k)) (hlist : l = us ++ l')
    (hnew : (us = [g] ∧ new = []) ∨ (us = [] ∧ new = [g]))
    (hgranted : ∀ i < us.length, env.deny (m.allocs + i) = false)
    (hnodes : ∀ y ∈ m'.nodes n Any e.frame, y ∈ us)
    (htop : m'.pages t = Function.update (m.pages t) k e)
    (hstill : ∀ y, y ≠ t → y ∉ us → m'.pages y = m.pages y) :
    Grows T env m m' n K t b l l' us new := by
  have hself : m'.heap t k = some e := by simp [Mem.heap, htop, hpres]
  have hnone : m.heap t k = none := by
    rw [Mem.heap, hzero, Entry.isPresent_zero]
    rfl
  have hus : ∀ y, y ∈ us ∨ y ∈ new ↔ y = g := by
    rintro y
    rcases hnew with ⟨rfl, rfl⟩ | ⟨rfl, rfl⟩ <;> simp
  refine .of_slot hk hlist hgranted (fun k' hne => by rw [htop, Function.update_of_ne hne])
    (fun k' x' hk' hne hx' y hy => ?_) (fun y => ?_) ?_ (fun x' hx' y hy => ?_) fun y hy hyus => ?_
  · have hyb : y ∈ m.below n t k' := ⟨x', hx', nodes_subset_foot hy⟩
    refine hstill y ?_ fun hyus => h.apart y (below_subset hk' hyb) ?_
    · rintro rfl
      exact h.tree.notMem_below hk' hyb
    · rw [hlist]
      exact List.mem_append_left _ hyus
  · simp only [freesAt, Set.mem_ofPred_eq, hself, hnone, Option.some.injEq, exists_eq_left', hfrees,
      reduceCtorEq, false_and, exists_false, false_or, hus]
  · exact iff_of_true (.inr ⟨e, hself, hdead⟩) (.inl hzero)
  · rw [hself] at hx'
    cases hx'
    exact .inr (hnodes y hy)
  · refine hstill y ?_ hyus
    rintro rfl
    exact hy (.inl rfl)

/-- `next_mut`: what it takes, and why it was refused. -/
theorem nextMut_exact (h : Own A m (n + 1 + 1) K t l) (hk : K (index (n + 1) va))
    (hclean : Clean m (n + 1) K t b) (hb : va / span (n + 1 + 1) = b) :
    Sat (nextMut (n + 1) t va env m) (fun r m' => match r with
      | none => Own A m' (n + 1 + 1) K t l ∧ m.heap t (index (n + 1) va) = none ∧
          m'.pages = m.pages ∧ m'.allocs = m.allocs + 1 ∧ (env.deny m.allocs = true ∨ l = [])
      | some t' => ∃ x, m'.heap t (index (n + 1) va) = some x ∧ x.frame = t' ∧
          ((m' = m ∧ m.heap t (index (n + 1) va) = some x) ∨
            (m.heap t (index (n + 1) va) = none ∧ m'.allocs = m.allocs + 1 ∧
              m'.pages t' = Page.zero ∧
              (∀ k, k ≠ index (n + 1) va → m'.pages t k = m.pages t k) ∧
              (∀ y, y ≠ t → y ≠ t' → m'.pages y = m.pages y) ∧ ∃ l', Own A m' (n + 1 + 1) K t l' ∧
                ∀ T, T (n + 1) (va / span (n + 1)) →
                  Grows T env m m' (n + 1) K t b l l' [t'] []))) E X := by
  unfold nextMut
  refine Sat.gets (Sat.ite (fun hpres => Sat.pure ?_) fun hpres => ?_)
  · have hx : m.heap t (index (n + 1) va) = some (m.pages t (index (n + 1) va)) := by
      simp [Mem.heap, hpres]
    exact ⟨_, hx, rfl, .inl ⟨rfl, hx⟩⟩
  · have hnone : m.heap t (index (n + 1) va) = none := by
      simp [Mem.heap, hpres]
    refine Sat.seq (h.alloc.also h.pool.alloc_count) fun r m₁ hr => ?_
    obtain ⟨hr, hcount, hwhy⟩ := hr
    cases r with
    | none => exact Sat.pure ⟨hr.1, hnone, hr.2, hcount, hwhy⟩
    | some g =>
        obtain ⟨l', hg⟩ := hr
        obtain ⟨hgranted, hothers⟩ := hwhy
        have hne : g ≠ t := by
          rintro rfl
          exact hg.out mem_foot_self
        have hm₁ : m₁.setPage g Page.zero = m₁ := by
          rw [Mem.setPage, ← hg.zero, Function.update_eq_self]
        refine Sat.modify (Sat.modify (Sat.pure ?_))
        rw [hm₁]
        generalize hentry : Entry.new (physAddr g) ((PageFlags.present.union .user).union .write) = e
        have hpres : e.isPresent = true := by
          rw [← hentry, Entry.isPresent_new]
          decide
        have hframe : e.frame = g := by rw [← hentry, Entry.frame_new]
        have hzero : (m₁.setEntry t (index (n + 1) va) e).pages g = Page.zero := by
          rw [setEntry_pages hne, hg.zero]
        have hempty := heap_zero hzero
        obtain ⟨hown, -, hself⟩ := hg.own.hang hk hpres hframe hg.mem hg.notMem hg.out
          (.inr (heap_zero hg.zero))
        have hpage : (m₁.setEntry t (index (n + 1) va) e).pages t =
            Function.update (m.pages t) (index (n + 1) va) e := by
          simp only [Mem.setEntry, Mem.setPage, Function.update_self, hothers t hne.symm]
        have hside : ∀ y, y ≠ t → y ≠ g →
            (m₁.setEntry t (index (n + 1) va) e).pages y = m.pages y := fun y hyt hyg => by
          rw [setEntry_pages hyt, hothers y hyg]
        refine ⟨e, hself, hframe, .inr ⟨hnone, hcount, hzero, fun k hk => ?_, hside, l', hown,
          fun T hT => ?_⟩⟩
        · rw [hpage, Function.update_of_ne hk]
        have hdead : Dead T (m₁.setEntry t (index (n + 1) va) e) (n + 1) g
            (b * 512 + index (n + 1) va) := by
          refine ⟨by rwa [block_index hb], fun k => .inl ?_⟩
          rw [hzero]
          rfl
        refine .hang h hk (hclean.zero hk hnone) hpres (fun y => ?_) (by rwa [hframe]) hg.list
          (.inl ⟨rfl, rfl⟩) ?_ (fun y hy => ?_) hpage fun y hyt hyus =>
            hside y hyt fun hyg => hyus (List.mem_singleton.mpr hyg)
        · rw [hframe, mem_frees_succ, and_iff_left hdead]
          refine or_iff_left ?_
          rintro ⟨k, -, x, hx, -⟩
          cases (hempty k).symm.trans hx
        · intro i hi
          obtain rfl : i = 0 := by simpa using hi
          exact hgranted
        · rw [hframe] at hy
          obtain rfl | ⟨k, x, -, hx, -⟩ := hy
          · exact List.mem_singleton.mpr rfl
          · cases (hempty k).symm.trans hx

/-- What `map_to` has done below table `t`: `us` are the pages it took for
tables, as many as were missing if it got that far. -/
structure MapRun (A : Set Frame) (env : Env) (m m' : Mem) (n : Nat) (K : Fin 512 → Prop) (t : Frame)
    (b : Nat) (l l' us : List Frame) (e : Entry) (va : Nat) (ok : Bool) : Prop where
  own : Own A m' (n + 1) K t l'
  grows : ∀ T : Nat → Nat → Prop, (∀ j ≤ n, T j (va / span j)) →
    Grows T env m m' n K t b l l' us (if ok then [e.frame] else [])
  count : m'.allocs = m.allocs + us.length + if ok then 0 else 1
  enough : ok = true → us.length = m.missing va n t
  short : ok = false → us.length < m.missing va n t ∧
    (env.deny (m.allocs + us.length) = true ∨ l' = [])
  missing : ok = true → ∀ v, v / span (n + 1) = b → K (index n v) →
    m'.missing v n t = min (m.missing v n t) (apart va v n)

/-- The page itself is hung into the table of the last level. -/
theorem MapRun.last (h : Own A m 1 K t l) (hk : K (index 0 va)) (hclean : Clean m 0 K t b)
    (hb : va / span 1 = b) (hpres : e.isPresent = true) (hA : e.frame ∈ A) (hl : e.frame ∉ l)
    (hf : e.frame ∉ m.foot 1 K t) (hnone : m.heap t (index 0 va) = none) :
    MapRun A env m (m.setEntry t (index 0 va) e) 0 K t b l l [] e va true := by
  refine ⟨(h.hang hk hpres rfl hA hl hf (.inl rfl)).1, fun T hT => ?_, rfl, fun _ => rfl,
    fun hok => (by cases hok), fun _ v _ _ => rfl⟩
  have hT₀ : T 0 (b * 512 + index 0 va) := by
    rw [block_index hb]
    exact hT 0 (Nat.le_refl 0)
  refine .hang h hk (hclean.zero hk hnone) hpres (fun y => and_iff_left hT₀) hT₀ rfl
    (.inr ⟨rfl, rfl⟩) (fun _ hi => absurd hi (Nat.not_lt_zero _)) (fun y hy => hy.elim) ?_
    fun y hyt _ => setEntry_pages hyt
  simp only [Mem.setEntry, Mem.setPage, Function.update_self]

theorem index_ne (hb : va / span (n + 1) = b) (hv : v / span (n + 1) = b)
    (hne : ¬va / span n = v / span n) : index n v ≠ index n va := fun hidx =>
  hne ((index_eq_iff (hv.trans hb.symm)).mp hidx).symm

/-- What happens below a slot. -/
theorem MapRun.lift {ok : Bool} (h : Own A m (n + 1 + 1) K t l) (hk : K (index (n + 1) va))
    (hb : va / span (n + 1 + 1) = b) (hx : m.heap t (index (n + 1) va) = some x)
    (hBA : ∀ g ∈ B, g ∈ A) (hB : ∀ g ∈ B, g ∈ m.foot (n + 1) Any x.frame ∨ g ∉ m.foot (n + 1 + 1) K t)
    (hfoot : ∀ g ∈ m.foot (n + 1) Any x.frame, g ∈ B) (hl : ∀ g ∈ l, g ∈ B)
    (hin : MapRun B env m m' n Any x.frame (va / span (n + 1)) l l' us e va ok) :
    MapRun A env m m' (n + 1) K t b l l' us e va ok := by
  have hgrow := hin.grows (fun _ _ => True) fun _ _ => True.intro
  have hus : ∀ g ∈ us, g ∈ l := fun g hg => by
    rw [hgrow.list]
    exact List.mem_append_left _ hg
  have hsame : Same B m m' := fun g hg => hgrow.still g
    (fun hn => hg (hfoot g (nodes_subset_foot hn))) fun hg' => hg (hl g (hus g hg'))
  have hdown : ∀ k x', K k → k ≠ index (n + 1) va → m.heap t k = some x' →
      ∀ g ∈ m.nodes (n + 1) Any x'.frame, m'.pages g = m.pages g := by
    intro k x' hk' hne hx' g hg
    have hgb : g ∈ m.below (n + 1) t k := ⟨x', hx', nodes_subset_foot hg⟩
    refine hsame g fun hgB => ?_
    rcases hB g hgB with hc | hn
    · exact h.tree.below_disjoint hk' hk hne hgb ⟨x, hx, hc⟩
    · exact hn (below_subset hk' hgb)
  have htop := (h.edit hk hx hB hin.own hsame).2
  refine ⟨h.leave hk hx hBA hB hin.own hsame, fun T hT => ?_, hin.count, fun hok => ?_,
    fun hok => ?_, fun hok v hv hKv => ?_⟩
  · have hsub := hin.grows T fun j hj => hT j (Nat.le_succ_of_le hj)
    rw [← block_index hb] at hsub
    exact hsub.lift h hk hx
  · rw [missing_some hx]
    exact hin.enough hok
  · rw [missing_some hx]
    exact hin.short hok
  · rw [apart]
    by_cases hsame' : va / span (n + 1) = v / span (n + 1)
    · have hidx : index (n + 1) v = index (n + 1) va :=
        (index_eq_iff (hv.trans hb.symm)).mpr hsame'.symm
      have hxv : m.heap t (index (n + 1) v) = some x := by rw [hidx, hx]
      have hxv' : m'.heap t (index (n + 1) v) = some x := by rw [htop, hxv]
      rw [if_pos hsame', missing_some hxv, missing_some hxv']
      exact hin.missing hok v hsame'.symm True.intro
    · have hidx := index_ne hb hv hsame'
      rw [if_neg hsame', Nat.min_eq_left (missing_le ..)]
      exact missing_slot (by rw [htop]) fun x' hx' => hdown _ x' hKv hidx hx'

/-- The first table on the path was missing. -/
theorem MapRun.step {ok : Bool} {g : Frame} (h : Own A m (n + 1 + 1) K t l)
    (hb : va / span (n + 1 + 1) = b) (hnone : m.heap t (index (n + 1) va) = none)
    (hself : m₁.heap t (index (n + 1) va) = some x) (hframe : x.frame = g)
    (hcount : m₁.allocs = m.allocs + 1) (hzero : m₁.pages g = Page.zero)
    (htop : ∀ k, k ≠ index (n + 1) va → m₁.pages t k = m.pages t k)
    (hside : ∀ y, y ≠ t → y ≠ g → m₁.pages y = m.pages y) {l₁ : List Frame}
    (hgrows : ∀ T : Nat → Nat → Prop, T (n + 1) (va / span (n + 1)) →
      Grows T env m m₁ (n + 1) K t b l l₁ [g] [])
    (hrun : MapRun A env m₁ m' (n + 1) K t b l₁ l' us e va ok) :
    MapRun A env m m' (n + 1) K t b l l' (g :: us) e va ok := by
  have hempty := heap_zero hzero
  have hfirst : ∀ v, index (n + 1) v = index (n + 1) va → m₁.missing v (n + 1) t = n := fun v hv => by
    rw [missing_some (by rw [hv]; exact hself), hframe, missing_empty hempty]
  refine ⟨hrun.own, fun T hT => ?_, ?_, fun hok => ?_, fun hok => ?_, fun hok v hv hKv => ?_⟩
  · exact (hgrows T (hT _ (Nat.le_refl _))).trans (hrun.grows T hT) hcount
  · rw [hrun.count, hcount, List.length_cons]
    omega
  · rw [List.length_cons, hrun.enough hok, hfirst va rfl, missing_none hnone]
  · obtain ⟨hlt, hwhy⟩ := hrun.short hok
    rw [hfirst va rfl] at hlt
    rw [hcount] at hwhy
    rw [List.length_cons, missing_none hnone, Nat.add_comm us.length 1, ← Nat.add_assoc]
    exact ⟨by omega, hwhy⟩
  · rw [hrun.missing hok v hv hKv]
    by_cases hsame : va / span (n + 1) = v / span (n + 1)
    · have hidx : index (n + 1) v = index (n + 1) va :=
        (index_eq_iff (hv.trans hb.symm)).mpr hsame.symm
      rw [hfirst v hidx, missing_none (by rw [hidx]; exact hnone), apart, if_pos hsame]
      have := apart_le va v n
      omega
    · have hidx := index_ne hb hv hsame
      have hheap : m₁.heap t (index (n + 1) v) = m.heap t (index (n + 1) v) := by
        simp only [Mem.heap, htop _ hidx]
      rw [missing_slot hheap fun x' hx' y hy => ?_]
      have hyb : y ∈ m.below (n + 1) t (index (n + 1) v) := ⟨x', hx', nodes_subset_foot hy⟩
      have hlist := (hgrows (fun _ _ => True) True.intro).list
      refine hside y ?_ ?_
      · rintro rfl
        exact h.tree.notMem_below hKv hyb
      · rintro rfl
        refine h.apart y (below_subset hKv hyb) ?_
        rw [hlist]
        exact List.mem_cons_self

/-- By induction on the levels. -/
theorem mapIn_exact (hpres : e.isPresent = true) (n : Nat) :
    ∀ {A : Set Frame} {m : Mem} {K : Fin 512 → Prop} {t : Frame} {l : List Frame} {b : Nat},
      Own A m (n + 1) K t l → K (index n va) → Clean m n K t b → va / span (n + 1) = b →
      e.frame ∈ A → e.frame ∉ l → e.frame ∉ m.foot (n + 1) K t → m.view (n + 1) t va = none →
      Sat (mapIn e n t va env m)
        (fun ok m' => ∃ l' us, MapRun A env m m' n K t b l l' us e va ok) E X := by
  induction n with
  | zero =>
      intro A m K t l b h hk hclean hb hA hl hf hview
      exact Sat.modify (Sat.pure ⟨l, [], .last h hk hclean hb hpres hA hl hf hview⟩)
  | succ n ih =>
      intro A m K t l b h hk hclean hb hA hl hf hview
      -- the rest of the way, from a state in which the next table is there
      have hrest : ∀ {m₁ : Mem} {x : Entry} {l₁ : List Frame}, Own A m₁ (n + 1 + 1) K t l₁ →
          m₁.heap t (index (n + 1) va) = some x → Clean m₁ (n + 1) K t b → e.frame ∉ l₁ →
          e.frame ∉ m₁.foot (n + 1 + 1) K t → m₁.view (n + 1 + 1) t va = none →
          Sat (mapIn e n x.frame va env m₁)
            (fun ok m' => ∃ l' us, MapRun A env m₁ m' (n + 1) K t b l₁ l' us e va ok) E X := by
        intro m₁ x l₁ h₁ hx hclean₁ hl₁ hf₁ hview₁
        let B : Set Frame := {g | g ∈ m₁.foot (n + 1) Any x.frame ∨ g ∈ l₁ ∨ g = e.frame}
        have hBA : ∀ g ∈ B, g ∈ A := by
          rintro g (hg | hg | rfl)
          · exact h₁.sub g (foot_child hk hx hg)
          · exact h₁.pool.mem g hg
          · exact hA
        have hB : ∀ g ∈ B, g ∈ m₁.foot (n + 1) Any x.frame ∨ g ∉ m₁.foot (n + 1 + 1) K t := by
          rintro g (hg | hg | rfl)
          · exact .inl hg
          · exact .inr fun hgf => h₁.apart g hgf hg
          · exact .inr hf₁
        have hin := h₁.enter (B := B) hk hx (fun g hg => .inr (.inl hg)) (fun g hg => .inl hg)
        have hcl := hclean₁.child hk hx
        rw [block_index hb] at hcl
        rw [view_child hx] at hview₁
        refine (ih hin True.intro hcl rfl (.inr (.inr rfl)) hl₁
          (fun hg => hf₁ (foot_child hk hx hg)) hview₁).imp ?_ (fun _ _ he => he) (fun _ hx => hx)
        rintro ok m' ⟨l', us, hrun⟩
        exact ⟨l', us, hrun.lift h₁ hk hb hx hBA hB (fun g hg => .inl hg) fun g hg => .inr (.inl hg)⟩
      refine Sat.seq ((nextMut_exact h hk hclean hb).also (nextMut_spec h hk)) fun r m₁ hr => ?_
      obtain ⟨hr, l₀, hgrown, -⟩ := hr
      cases r with
      | none =>
          obtain ⟨hown, hnone, hpages, hcount, hwhy⟩ := hr
          refine Sat.pure ⟨l, [], hown, fun _ _ => .refl hpages, by rw [hcount]; rfl,
            fun hok => (by cases hok), fun _ => ⟨?_, hwhy⟩, fun hok => (by cases hok)⟩
          rw [missing_none hnone]
          exact Nat.succ_pos n
      | some t' =>
          obtain ⟨x, hself, rfl, ⟨rfl, hx⟩ | ⟨hnone, hcount, hzero, htop, hside, l₁, hown, hgrows⟩⟩ := hr
          · exact hrest h hx hclean hl hf hview
          · have hgrow := hgrows (fun _ _ => True) True.intro
            refine (hrest hown hself (hgrow.bare.mpr hclean) (fun hg => hl ?_)
              (fun hg => (hgrown.foot _ hg).elim hf hl) ?_).imp ?_ (fun _ _ he => he) (fun _ hx => hx)
            · rw [hgrow.list]
              exact List.mem_append_right _ hg
            · rw [view_child hself]
              exact view_empty (heap_zero hzero) va
            · rintro ok m' ⟨l', us, hrun⟩
              exact ⟨l', x.frame :: us, .step h hb hnone hself rfl hcount hzero htop hside hgrows hrun⟩

/-- `map_to` of an address that is not mapped. -/
theorem mapTo_exact {flags : PageFlags} (h : OwnTable A m root l) (hva : va < userEnd)
    (hclean : Clean m 3 UserHalf root 0) (hA : page ∈ A) (hl : page ∉ l)
    (hf : page ∉ m.foot 4 UserHalf root) (hnone : m.entryFor root va = none) :
    Sat (mapTo root (physAddr page) va flags env m)
      (fun _ m' => ∃ l' us, MapRun A env m m' 3 UserHalf root 0 l l' us
        (Entry.new (physAddr page) flags).enable va true)
      (fun _ m' => ∃ l' us, MapRun A env m m' 3 UserHalf root 0 l l' us
        (Entry.new (physAddr page) flags).enable va false) X := by
  have hframe : (Entry.new (physAddr page) flags).enable.frame = page := by simp
  rw [entryFor_eq_view] at hnone
  refine Sat.seq (mapIn_exact (Entry.isPresent_enable _) 3 h (userHalf_index hva) hclean
    (div_span_four hva) (by rwa [hframe]) (by rwa [hframe]) (by rwa [hframe]) hnone) fun ok m' hm => ?_
  cases ok with
  | true => exact Sat.pure hm
  | false => exact ⟨hm⟩

/-- Tables and the pages of one table that stay as they are. -/
theorem freesIn_congr (h : ∀ g ∈ m.nodes (n + 1) K t, m'.pages g = m.pages g) :
    freesIn T m' n K t b = freesIn T m n K t b ∧ (Bare T m' n K t b ↔ Bare T m n K t b) := by
  have hslot : ∀ k, K k → freesAt T m' n t b k = freesAt T m n t b k ∧
      (BareAt T m' n t b k ↔ BareAt T m n t b k) := fun k hk =>
    slot_congr (by rw [h t (.inl rfl)]) fun x hx g hg => h g (.inr ⟨k, x, hk, hx, hg⟩)
  constructor
  · ext g
    exact exists_congr fun k => and_congr_right fun hk => by rw [(hslot k hk).1]
  · exact forall_congr' fun k => imp_congr_right fun hk => (hslot k hk).2

end Rxv64.Vm
