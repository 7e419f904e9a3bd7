import Rxv64.Lib.Radix
import Rxv64.Vm.Table

/-!
# Vm.Owned — the free list, a tree of tables, and what an operation may touch

An operation on a page table works on the frames of its tree and of the free
list. `Own A m n K t l` says that these are frames of `A`, all different: the
list `l` is the free list and `t` is a tree of `n` levels. Frames outside `A`
are somebody else's; `Same A` says that they are as before.
-/

namespace Rxv64.Vm

open Radix

/-! ## The free list -/

theorem physAddr_and_kernBase (f : Frame) : kernBase &&& physAddr f = 0 := by
  refine BitVec.eq_of_getLsbD_eq fun i hi => ?_
  have hbase : ∀ j < 64, kernBase.getLsbD j = decide (47 ≤ j) := by decide
  rw [BitVec.getLsbD_and, hbase i hi, physAddr, BitVec.getLsbD_shiftLeft, BitVec.getLsbD_setWidth]
  by_cases h : 47 ≤ i
  · rw [BitVec.getLsbD_of_ge f (i - 12) (by omega)]
    simp
  · simp [h]

theorem toLink_ofLink (o : Option Frame) : toLink (ofLink o) = o := by
  cases o with
  | none => rfl
  | some f =>
      have hbase : ∀ j < 64, kernBase.getLsbD j = decide (47 ≤ j) := by decide
      have hor : kernBase + physAddr f = kernBase ||| physAddr f :=
        BitVec.add_eq_or_of_and_eq_zero _ _ (physAddr_and_kernBase f)
      have hne : kernBase ||| physAddr f ≠ 0 := by
        intro h
        have := congrArg (fun w => w.getLsbD 63) h
        rw [BitVec.getLsbD_or, hbase 63 (by decide)] at this
        simp at this
      rw [ofLink, hor, toLink, if_neg hne]
      congr 1
      refine BitVec.eq_of_getLsbD_eq fun i hi => ?_
      rw [BitVec.getLsbD_extractLsb', BitVec.getLsbD_or, hbase _ (by omega), physAddr,
        BitVec.getLsbD_shiftLeft, BitVec.getLsbD_setWidth]
      simp [hi, show 12 + i < 64 by omega, show i < 64 by omega, show ¬47 ≤ 12 + i by omega]

theorem Chain.congr {pages pages' : Frame → Page} {head : Option Frame} {l : List Frame}
    (h : Chain pages head l) (heq : ∀ g ∈ l, pages' g = pages g) : Chain pages' head l := by
  induction l generalizing head with
  | nil => exact h
  | cons f l ih =>
      refine ⟨h.1, ?_⟩
      rw [heq f List.mem_cons_self]
      exact ih h.2 fun g hg => heq g (List.mem_cons_of_mem f hg)

variable {A B : Set Frame} {m m' m'' : Mem} {n : Nat} {K : Fin 512 → Prop} {t page : Frame}
  {l l' : List Frame} {k : Fin 512} {x : Entry} {env : Env} {E : String → Mem → Prop}
  {X : String → Prop}

/-- Frames outside `A` are untouched. -/
def Same (A : Set Frame) (m m' : Mem) : Prop := ∀ g, g ∉ A → m'.pages g = m.pages g

theorem Same.refl : Same A m m := fun _ _ => rfl

theorem Same.trans (h : Same A m m') (h' : Same A m' m'') : Same A m m'' := fun g hg =>
  (h' g hg).trans (h g hg)

theorem Same.mono (h : Same A m m') (hsub : ∀ g ∈ A, g ∈ B) : Same B m m' := fun g hg =>
  h g fun hA => hg (hsub g hA)

theorem same_setPage {p : Page} (ht : t ∈ A) : Same A m (m.setPage t p) := fun g hg => by
  refine Function.update_of_ne ?_ _ _
  rintro rfl
  exact hg ht

/-- The free list is `l`, without repetition. -/
structure Pool (A : Set Frame) (m : Mem) (l : List Frame) : Prop where
  chain : Chain m.pages m.freeList l
  nodup : l.Nodup
  mem : ∀ g ∈ l, g ∈ A

theorem Pool.mono (h : Pool A m l) (hsub : ∀ g ∈ A, g ∈ B) : Pool B m l :=
  ⟨h.chain, h.nodup, fun g hg => hsub g (h.mem g hg)⟩

/-- Pages off the list may change. -/
theorem Pool.frame (h : Pool A m l) (hhead : m'.freeList = m.freeList)
    (heq : ∀ g ∈ l, m'.pages g = m.pages g) : Pool A m' l :=
  ⟨by rw [hhead]; exact h.chain.congr heq, h.nodup, h.mem⟩

theorem Pool.put (h : Pool A m l) (hA : page ∈ A) (hl : page ∉ l) : Pool A (m.put page) (page :: l) := by
  refine ⟨⟨rfl, ?_⟩, List.nodup_cons.mpr ⟨hl, h.nodup⟩, fun g hg => ?_⟩
  · have hlink : toLink ((m.put page).pages page 0) = m.freeList := by
      simp only [Mem.put, Mem.setEntry, Mem.setPage, Function.update_self]
      exact toLink_ofLink m.freeList
    rw [hlink]
    refine h.chain.congr fun g hg => ?_
    have hne : g ≠ page := by
      rintro rfl
      exact hl hg
    simp only [Mem.put, Mem.setEntry, Mem.setPage, Function.update_of_ne hne]
  · rcases List.mem_cons.mp hg with rfl | hg
    · exact hA
    · exact h.mem g hg

/-- Different pages make a free list. -/
theorem Pool.freePages (h : Pool A m l) {pages : List Frame} (hA : ∀ g ∈ pages, g ∈ A)
    (hnodup : pages.Nodup) (hl : ∀ g ∈ pages, g ∉ l) : ∃ l', Pool A (m.freePages pages) l' := by
  induction pages generalizing m l with
  | nil => exact ⟨l, h⟩
  | cons page pages ih =>
      obtain ⟨hnot, hnodup⟩ := List.nodup_cons.mp hnodup
      refine ih (h.put (hA page List.mem_cons_self) (hl page List.mem_cons_self))
        (fun g hg => hA g (List.mem_cons_of_mem page hg)) hnodup fun g hg hgl => ?_
      rcases List.mem_cons.mp hgl with rfl | hgl
      · exact hnot hg
      · exact hl g (List.mem_cons_of_mem page hg) hgl

theorem put_pages {g : Frame} (h : g ≠ page) : (m.put page).pages g = m.pages g := by
  simp only [Mem.put, Mem.setEntry, Mem.setPage, Function.update_of_ne h]

/-- Pages that are not put keep what they hold. -/
theorem freePages_pages {g : Frame} {pages : List Frame} (h : g ∉ pages) :
    (m.freePages pages).pages g = m.pages g := by
  induction pages generalizing m with
  | nil => rfl
  | cons page pages ih =>
      rw [List.mem_cons, not_or] at h
      exact (ih h.2).trans (put_pages h.1)

theorem same_put (h : page ∈ A) : Same A m (m.put page) := fun g hg => by
  refine put_pages ?_
  rintro rfl
  exact hg h

theorem setPage_pages {g : Frame} {p : Page} (h : g ≠ page) :
    (m.setPage page p).pages g = m.pages g := Function.update_of_ne h ..

/-- What `alloc` does: it refuses, or hands out the first page, cleared. -/
theorem Pool.alloc (h : Pool A m l) :
    Sat (alloc env m) (fun r m' => match r with
      | none => Pool A m' l ∧ m'.pages = m.pages
      | some g => ∃ l', l = g :: l' ∧ Pool A m' l' ∧
          m'.pages = Function.update m.pages g Page.zero) E X := by
  unfold Vm.alloc
  by_cases hd : env.deny m.allocs = true
  · simp only [hd, if_true]
    exact ⟨⟨h.chain, h.nodup, h.mem⟩, rfl⟩
  · simp only [hd, if_false, Bool.false_eq_true]
    cases l with
    | nil =>
        have hnone : m.freeList = none := h.chain
        rw [hnone]
        exact ⟨⟨rfl, h.nodup, h.mem⟩, rfl⟩
    | cons g l =>
        have hsome : m.freeList = some g := h.chain.1
        rw [hsome]
        refine ⟨l, rfl, ⟨?_, (List.nodup_cons.mp h.nodup).2, fun x hx =>
          h.mem x (List.mem_cons_of_mem g hx)⟩, rfl⟩
        refine h.chain.2.congr fun x hx => Function.update_of_ne ?_ _ _
        rintro rfl
        exact (List.nodup_cons.mp h.nodup).1 hx

/-- An allocation is refused when it is denied or nothing is left. -/
theorem Pool.alloc_count (h : Pool A m l) :
    Sat (Vm.alloc env m) (fun r m' => m'.allocs = m.allocs + 1 ∧ match r with
      | none => env.deny m.allocs = true ∨ l = []
      | some g => env.deny m.allocs = false ∧ ∀ y, y ≠ g → m'.pages y = m.pages y) E X := by
  unfold Vm.alloc
  by_cases hd : env.deny m.allocs = true
  · simp only [hd, if_true]
    exact ⟨rfl, .inl True.intro⟩
  · simp only [hd, if_false, Bool.false_eq_true]
    cases l with
    | nil =>
        have hnone : m.freeList = none := h.chain
        rw [hnone]
        exact ⟨rfl, .inr rfl⟩
    | cons g l =>
        have hsome : m.freeList = some g := h.chain.1
        rw [hsome]
        exact ⟨rfl, True.intro, fun y hy => setPage_pages hy⟩

theorem Pool.alloc_supplied (hdeny : ∀ i, env.deny i = false) (h : Pool A m l) (hl : 0 < l.length) :
    Sat (Vm.alloc env m) (fun r _ => r.isSome = true) E X := by
  refine h.alloc_count.imp (fun r _ hr => ?_) (fun _ _ he => he) (fun _ hx => hx)
  cases r with
  | some page => rfl
  | none =>
      rcases hr.2 with hd | rfl
      · cases (hdeny _).symm.trans hd
      · cases hl

theorem nth_chain (h : Chain m.pages m.freeList l) (i : Nat) : m.nth i = l[i]? := by
  -- the list from place `i` on is the chain from there
  have hdrop : Chain m.pages (m.nth i) (l.drop i) := by
    induction i with
    | zero => exact h
    | succ i ih =>
        rw [← List.drop_drop]
        cases hl : l.drop i with
        | nil =>
            rw [hl] at ih
            have hnone : m.nth i = none := ih
            rw [Mem.nth, hnone]
            rfl
        | cons f l₁ =>
            rw [hl] at ih
            rw [Mem.nth, ih.1]
            exact ih.2
  rw [← List.head?_drop]
  cases hl : l.drop i with
  | nil =>
      rw [hl] at hdrop
      exact hdrop
  | cons f l₁ =>
      rw [hl] at hdrop
      exact hdrop.1

/-! ## Trees -/

/-- The entries that count: those that are present. -/
def Mem.heap (m : Mem) (f : Frame) (k : Fin 512) : Option Entry :=
  if (m.pages f k).isPresent then some (m.pages f k) else none

abbrev Mem.foot (m : Mem) : Nat → (Fin 512 → Prop) → Frame → Set Frame := Radix.foot Entry.frame m.heap

abbrev Mem.nodes (m : Mem) : Nat → (Fin 512 → Prop) → Frame → Set Frame :=
  Radix.nodes Entry.frame m.heap

abbrev Mem.below (m : Mem) : Nat → Frame → Fin 512 → Set Frame := Radix.below Entry.frame m.heap

/-- Any slot of a table. -/
abbrev Any : Fin 512 → Prop := fun _ => True

/-- The slots of a root that belong to the user half. -/
def UserHalf (k : Fin 512) : Prop := k.val < 256

/-- The indices of an address in tables of `n` levels. -/
def digits : Nat → Nat → List (Fin 512)
  | 0, _ => []
  | n + 1, va => index n va :: digits n va

/-- The entry of an address in a tree of `n` levels. -/
def Mem.view (m : Mem) (n : Nat) (t : Frame) (va : Nat) : Option Entry :=
  lookup Entry.frame m.heap t (digits n va)

theorem length_digits (n va : Nat) : (digits n va).length = n := by
  induction n with
  | zero => rfl
  | succ n ih => simp [digits, ih]

theorem heap_eq {g : Frame} (h : m'.pages g = m.pages g) : m'.heap g = m.heap g := by
  funext k
  simp only [Mem.heap, h]

theorem isPresent_of_heap (h : m.heap t k = some x) : x.isPresent = true := by
  unfold Mem.heap at h
  split at h
  · next hp => exact Option.some.inj h ▸ hp
  · cases h

theorem pages_of_heap (h : m.heap t k = some x) : m.pages t k = x := by
  unfold Mem.heap at h
  split at h
  · exact Option.some.inj h
  · cases h

/-- `entry_for` follows the four indices of an address. -/
theorem entryFor_eq_view (root : Frame) (va : Nat) : m.entryFor root va = m.view 4 root va := by
  have hnext : ∀ lvl t, m.next lvl t va = (m.heap t (index lvl va)).map Entry.frame := by
    intro lvl t
    unfold Mem.next Mem.heap
    split <;> rfl
  unfold Mem.entryFor Mem.view
  rw [hnext]
  simp only [digits, lookup]
  cases m.heap root (index 3 va) with
  | none => rfl
  | some x₃ =>
      simp only [Option.map_some, Option.bind_some, hnext]
      cases m.heap x₃.frame (index 2 va) with
      | none => rfl
      | some x₂ =>
          simp only [Option.map_some, Option.bind_some]
          cases m.heap x₂.frame (index 1 va) with
          | none => rfl
          | some x₁ => rfl

theorem view_one (t : Frame) (va : Nat) : m.view 1 t va = m.heap t (index 0 va) := rfl

theorem view_child {va : Nat} (h : m.heap t (index (n + 1) va) = some x) :
    m.view (n + 1 + 1) t va = m.view (n + 1) x.frame va :=
  lookup_cons h

theorem view_none {va : Nat} (h : m.heap t (index n va) = none) : m.view (n + 1) t va = none :=
  lookup_cons_none h

theorem heap_setEntry (k' : Fin 512) (e : Entry) (hk : k' ≠ k) :
    (m.setEntry t k e).heap t k' = m.heap t k' := by
  simp only [Mem.heap, Mem.setEntry, Mem.setPage, Function.update_self, Function.update_of_ne hk]

theorem heap_setEntry_self (e : Entry) :
    (m.setEntry t k e).heap t k = if e.isPresent then some e else none := by
  simp only [Mem.heap, Mem.setEntry, Mem.setPage, Function.update_self]

theorem setEntry_pages {g : Frame} {e : Entry} (hg : g ≠ t) :
    (m.setEntry t k e).pages g = m.pages g := Function.update_of_ne hg ..

/-- A page that is not read as a table, or an empty table. -/
theorem foot_single (h : n = 0 ∨ ∀ k, K k → m.heap t k = none) : m.foot n K t = {t} := by
  obtain _ | n := n
  · rfl
  · have hnone := h.resolve_left (Nat.succ_ne_zero n)
    ext g
    refine ⟨?_, fun hg => .inl hg⟩
    rintro (rfl | ⟨k, x, hk, hx, -⟩)
    · rfl
    · rw [hnone k hk] at hx
      cases hx

theorem tree_single (h : n = 0 ∨ ∀ k, K k → m.heap t k = none) : Tree Entry.frame m.heap n K t := by
  obtain _ | n := n
  · exact True.intro
  · have hnone := h.resolve_left (Nat.succ_ne_zero n)
    refine ⟨fun k x hk hx => ?_, fun k k' x x' hk _ hx => ?_⟩
    · rw [hnone k hk] at hx
      cases hx
    · rw [hnone k hk] at hx
      cases hx

/-! ## Owning -/

/-- The tree at `t` and the free list, in `A` and apart. -/
structure Own (A : Set Frame) (m : Mem) (n : Nat) (K : Fin 512 → Prop) (t : Frame)
    (l : List Frame) : Prop where
  pool : Pool A m l
  tree : Tree Entry.frame m.heap n K t
  sub : ∀ g ∈ m.foot n K t, g ∈ A
  apart : ∀ g ∈ m.foot n K t, g ∉ l

theorem Own.mono (h : Own A m n K t l) (hsub : ∀ g ∈ A, g ∈ B) : Own B m n K t l :=
  ⟨h.pool.mono hsub, h.tree, fun g hg => hsub g (h.sub g hg), h.apart⟩

/-- The tables of the tree stay; the free list changes outside of it. -/
theorem Own.frame (h : Own A m n K t l) (hpool : Pool A m' l')
    (heq : ∀ g ∈ m.nodes n K t, m'.pages g = m.pages g) (hl : ∀ g ∈ m.foot n K t, g ∉ l') :
    Own A m' n K t l' := by
  have hheap : ∀ g ∈ m.nodes n K t, m'.heap g = m.heap g := fun g hg => heap_eq (heq g hg)
  have hfoot : m'.foot n K t = m.foot n K t := foot_congr hheap
  refine ⟨hpool, h.tree.congr hheap, ?_, ?_⟩
  · rw [hfoot]
    exact h.sub
  · rw [hfoot]
    exact hl

theorem view_congr (heq : ∀ g ∈ m.nodes n K t, m'.pages g = m.pages g) {va : Nat}
    (hK : ∀ k ∈ (digits n va).head?, K k) : m'.view n t va = m.view n t va :=
  lookup_congr (fun g hg => heap_eq (heq g hg)) (length_digits n va).le hK

theorem foot_frame (heq : ∀ g ∈ m.nodes n K t, m'.pages g = m.pages g) :
    m'.foot n K t = m.foot n K t :=
  foot_congr fun g hg => heap_eq (heq g hg)

/-- The page `g` has been taken from the free list. -/
structure Fetched (A : Set Frame) (m m' : Mem) (n : Nat) (K : Fin 512 → Prop) (t : Frame)
    (l : List Frame) (g : Frame) (l' : List Frame) : Prop where
  list : l = g :: l'
  own : Own A m' n K t l'
  notMem : g ∉ l'
  out : g ∉ m'.foot n K t
  mem : g ∈ A
  same : Same A m m'
  nodes : ∀ y ∈ m.nodes n K t, m'.pages y = m.pages y
  zero : m'.pages g = Page.zero
  pages : ∀ y, y ≠ g → m'.pages y = m.pages y

/-- An allocation beside a tree. -/
theorem Own.alloc (h : Own A m n K t l) :
    Sat (alloc env m) (fun r m' => match r with
      | none => Own A m' n K t l ∧ m'.pages = m.pages
      | some g => ∃ l', Fetched A m m' n K t l g l') E X := by
  refine h.pool.alloc.imp (fun r m' hr => ?_) (fun _ _ he => he) (fun _ hx => hx)
  cases r with
  | none => exact ⟨h.frame hr.1 (fun g _ => by rw [hr.2]) h.apart, hr.2⟩
  | some g =>
      obtain ⟨l', rfl, hpool, hpages⟩ := hr
      have hg : g ∉ m.foot n K t := fun hf => h.apart g hf List.mem_cons_self
      have hA : g ∈ A := h.pool.mem g List.mem_cons_self
      have hnodes : ∀ y ∈ m.nodes n K t, m'.pages y = m.pages y := by
        intro y hy
        rw [hpages]
        refine Function.update_of_ne ?_ _ _
        rintro rfl
        exact hg (nodes_subset_foot hy)
      refine ⟨l', rfl, h.frame hpool hnodes fun y hy hyl => ?_, (List.nodup_cons.mp h.pool.nodup).1,
        by rwa [foot_frame hnodes], hA, ?_, hnodes, by rw [hpages, Function.update_self],
        fun y hy => by rw [hpages, Function.update_of_ne hy]⟩
      · exact h.apart y hy (List.mem_cons_of_mem g hyl)
      · intro y hy
        rw [hpages]
        refine Function.update_of_ne ?_ _ _
        rintro rfl
        exact hy hA

/-- A page beside the tree goes back to the free list. -/
theorem Own.put (h : Own A m n K t l) (hA : page ∈ A) (hl : page ∉ l) (hf : page ∉ m.foot n K t) :
    Own A (m.put page) n K t (page :: l) := by
  refine h.frame (h.pool.put hA hl) (fun g hg => put_pages ?_) fun g hg hmem => ?_
  · rintro rfl
    exact hf (nodes_subset_foot hg)
  · rcases List.mem_cons.mp hmem with rfl | hmem
    · exact hf hg
    · exact h.apart g hg hmem

/-! ## The part below one slot -/

section Slot

variable (h : Own A m (n + 1) K t l) (hk : K k)

include h hk

/-- The tree below a slot, with the free list. -/
theorem Own.enter (hx : m.heap t k = some x) (hB : ∀ g ∈ l, g ∈ B)
    (hfoot : ∀ g ∈ m.foot n Any x.frame, g ∈ B) : Own B m n Any x.frame l :=
  ⟨⟨h.pool.chain, h.pool.nodup, hB⟩, h.tree.child hk hx, hfoot,
    fun g hg => h.apart g (foot_child hk hx hg)⟩

/-- Nothing was touched but the tree below a slot and what is not in the tree. -/
theorem Own.edit (hx : m.heap t k = some x)
    (hB : ∀ g ∈ B, g ∈ m.foot n Any x.frame ∨ g ∉ m.foot (n + 1) K t)
    (h' : Own B m' n Any x.frame l') (hsame : Same B m m') :
    Edit Entry.frame m.heap m'.heap n K t k ∧ m'.heap t = m.heap t := by
  have htB : t ∉ B := fun ht => by
    rcases hB t ht with hc | hn
    · exact (h.tree.1 k x hk hx).1 hc
    · exact hn (.inl rfl)
  have htop : m'.heap t = m.heap t := heap_eq (hsame t htB)
  refine ⟨⟨hk, fun k' _ => by rw [htop], fun g hg _ hnb => ?_, fun y hy => ?_, ?_⟩, htop⟩
  · refine heap_eq (hsame g fun hgB => ?_)
    rcases hB g hgB with hc | hn
    · exact hnb ⟨x, hx, hc⟩
    · exact hn hg
  · rw [htop, hx] at hy
    cases hy
    exact h'.tree
  · rintro g ⟨y, hy, hg⟩
    rw [htop, hx] at hy
    cases hy
    exact (hB g (h'.sub g hg)).imp_left fun hc => ⟨x, hx, hc⟩

omit hk in
/-- A change below a slot, for the free list too. -/
theorem Own.of_edit (he : Edit Entry.frame m.heap m'.heap n K t k) (hpool : Pool A m' l')
    (hnew : ∀ g ∈ m'.below n t k, g ∈ A ∧ g ∉ l')
    (hl : ∀ g ∈ l', g ∈ m.foot (n + 1) K t → g ∈ m.below n t k) : Own A m' (n + 1) K t l' := by
  refine ⟨hpool, he.result h.tree, fun g hg => ?_, fun g hg hgl => ?_⟩
  · rcases (he.mem_foot h.tree).mp hg with ⟨hold, -⟩ | hg
    · exact h.sub g hold
    · exact (hnew g hg).1
  · rcases (he.mem_foot h.tree).mp hg with ⟨hold, hnb⟩ | hg
    · exact hnb (hl g hgl hold)
    · exact (hnew g hg).2 hgl

/-- Back from the tree below a slot. -/
theorem Own.leave (hx : m.heap t k = some x) (hBA : ∀ g ∈ B, g ∈ A)
    (hB : ∀ g ∈ B, g ∈ m.foot n Any x.frame ∨ g ∉ m.foot (n + 1) K t)
    (h' : Own B m' n Any x.frame l') (hsame : Same B m m') : Own A m' (n + 1) K t l' := by
  obtain ⟨he, htop⟩ := h.edit hk hx hB h' hsame
  refine h.of_edit he (h'.pool.mono hBA) ?_ fun g hg hf => ?_
  · rintro g ⟨y, hy, hg⟩
    rw [htop, hx] at hy
    cases hy
    exact ⟨hBA g (h'.sub g hg), h'.apart g hg⟩
  · exact ⟨x, hx, (hB g (h'.pool.mem g hg)).resolve_right fun hn => hn hf⟩

/-- A page without tables below it is hung into a slot. -/
theorem Own.hang {e : Entry} (hpres : e.isPresent = true) (hpage : e.frame = page) (hA : page ∈ A)
    (hl : page ∉ l) (hf : page ∉ m.foot (n + 1) K t)
    (hempty : n = 0 ∨ ∀ k, m.heap page k = none) :
    Own A (m.setEntry t k e) (n + 1) K t l ∧
      Edit Entry.frame m.heap (m.setEntry t k e).heap n K t k ∧
      (m.setEntry t k e).heap t k = some e := by
  have hne : page ≠ t := by
    rintro rfl
    exact hf mem_foot_self
  have hheap : (m.setEntry t k e).heap page = m.heap page := heap_eq (setEntry_pages hne)
  have hself : (m.setEntry t k e).heap t k = some e := by rw [heap_setEntry_self, if_pos hpres]
  have hsingle : n = 0 ∨ ∀ k', Any k' → (m.setEntry t k e).heap page k' = none :=
    hempty.imp_right fun hn k' _ => by rw [hheap]; exact hn k'
  have hbelow : ∀ g ∈ (m.setEntry t k e).below n t k, g = page := by
    rintro g ⟨y, hy, hg⟩
    rw [hself] at hy
    cases hy
    rw [hpage] at hg
    have hg : g ∈ (m.setEntry t k e).foot n Any page := hg
    rw [foot_single hsingle] at hg
    exact hg
  have he : Edit Entry.frame m.heap (m.setEntry t k e).heap n K t k := by
    refine ⟨hk, fun k' hne' => heap_setEntry k' e hne', fun g _ hgt _ => heap_eq (setEntry_pages hgt),
      fun y hy => ?_, fun g hg => .inr ?_⟩
    · rw [hself] at hy
      cases hy
      rw [hpage]
      exact tree_single hsingle
    · rw [hbelow g hg]
      exact hf
  refine ⟨h.of_edit he (h.pool.frame rfl fun g hg => setEntry_pages ?_) (fun g hg => ?_)
    fun g hg hgf => absurd hg (h.apart g hgf), he, hself⟩
  · rintro rfl
    exact h.apart g mem_foot_self hg
  · rw [hbelow g hg]
    exact ⟨hA, hl⟩

/-- The page that hangs in a slot is freed and the slot cleared. -/
theorem Own.prune (hx : m.heap t k = some x) :
    Own A ((m.put x.frame).setEntry t k 0) (n + 1) K t (x.frame :: l) ∧
      Edit Entry.frame m.heap ((m.put x.frame).setEntry t k 0).heap n K t k ∧
      ((m.put x.frame).setEntry t k 0).heap t k = none := by
  have hin : x.frame ∈ m.foot (n + 1) K t := foot_child hk hx mem_foot_self
  have hne : t ≠ x.frame := fun ht => (h.tree.1 k x hk hx).1 (ht ▸ mem_foot_self)
  have hself : ((m.put x.frame).setEntry t k 0).heap t k = none := by
    rw [heap_setEntry_self, Entry.isPresent_zero]
    rfl
  have he : Edit Entry.frame m.heap ((m.put x.frame).setEntry t k 0).heap n K t k := by
    refine ⟨hk, fun k' hne' => ?_, fun g _ hgt hnb => ?_, fun y hy => ?_, ?_⟩
    · rw [heap_setEntry k' 0 hne', heap_eq (put_pages hne)]
    · refine heap_eq ((setEntry_pages hgt).trans (put_pages ?_))
      rintro rfl
      exact hnb ⟨x, hx, mem_foot_self⟩
    · rw [hself] at hy
      cases hy
    · rintro g ⟨y, hy, -⟩
      rw [hself] at hy
      cases hy
  have hpool := h.pool.put (h.sub _ hin) (h.apart _ hin)
  refine ⟨h.of_edit he (hpool.frame rfl fun g hg => setEntry_pages ?_) ?_ fun g hg hgf => ?_, he,
    hself⟩
  · rintro rfl
    rcases List.mem_cons.mp hg with hg | hg
    · exact hne hg
    · exact h.apart g mem_foot_self hg
  · rintro g ⟨y, hy, -⟩
    rw [hself] at hy
    cases hy
  · rcases List.mem_cons.mp hg with rfl | hg
    · exact ⟨x, hx, mem_foot_self⟩
    · exact absurd hg (h.apart g hgf)

end Slot

end Rxv64.Vm
