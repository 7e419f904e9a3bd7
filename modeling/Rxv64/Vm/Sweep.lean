import Mathlib.Data.List.Nodup
import Rxv64.Vm.Copy

/-!
# Vm.Sweep — exactly what `free_user_pages` frees

`Vm.Free` says which addresses are unmapped; here it is counted what goes to
the free list and what stays of every table. `T n b` says that the range
touches block `b` of the blocks of `span n` bytes. Below an entry that covers
the block hangs a tree of `n` levels: a page that is touched is dead, and so is
a table that is touched and all of whose entries are zero or lead to what is
dead.
-/

namespace Rxv64.Vm

open Radix

variable {A B : Set Frame} {T : Nat → Nat → Prop} {m m' m'' : Mem} {n : Nat} {K : Fin 512 → Prop}
  {t f root : Frame} {l l' : List Frame} {k : Fin 512} {x : Entry} {va v b : Nat} {env : Env}

/-! ## The dead and the living -/

/-- What hangs below an entry for block `b` goes. -/
def Dead (T : Nat → Nat → Prop) (m : Mem) : Nat → Frame → Nat → Prop
  | 0, _, b => T 0 b
  | n + 1, f, b => T (n + 1) b ∧
      ∀ k, m.pages f k = 0 ∨ ∃ x, m.heap f k = some x ∧ Dead T m n x.frame (b * 512 + k)

/-- What hangs below slot `k` of table `f` goes. -/
def DeadAt (T : Nat → Nat → Prop) (m : Mem) (n : Nat) (f : Frame) (b : Nat) (k : Fin 512) : Prop :=
  ∃ x, m.heap f k = some x ∧ Dead T m n x.frame (b * 512 + k)

/-- The frames that are freed. -/
def frees (T : Nat → Nat → Prop) (m : Mem) : Nat → Frame → Nat → Set Frame
  | 0, f, b => {g | g = f ∧ T 0 b}
  | n + 1, f, b => {g | g = f ∧ Dead T m (n + 1) f b ∨
      ∃ k x, m.heap f k = some x ∧ g ∈ frees T m n x.frame (b * 512 + k)}

/-- What is left of a tree: pages as they were, and tables without the entries
that led to what is dead. -/
def Left (T : Nat → Nat → Prop) (m m' : Mem) : Nat → Frame → Nat → Prop
  | 0, f, _ => m'.pages f = m.pages f
  | n + 1, f, b => ∀ k, (DeadAt T m n f b k → m'.pages f k = 0) ∧
      (¬DeadAt T m n f b k → m'.pages f k = m.pages f k ∧
        ∀ x, m.heap f k = some x → Left T m m' n x.frame (b * 512 + k))

/-- `Left` for one slot of a table. -/
def LeftAt (T : Nat → Nat → Prop) (m m' : Mem) (n : Nat) (f : Frame) (b : Nat) (k : Fin 512) :
    Prop :=
  (DeadAt T m n f b k → m'.pages f k = 0) ∧
    (¬DeadAt T m n f b k → m'.pages f k = m.pages f k ∧
      ∀ x, m.heap f k = some x → Left T m m' n x.frame (b * 512 + k))

theorem dead_congr (h : ∀ g ∈ m.nodes n Any f, m'.pages g = m.pages g) :
    Dead T m' n f b ↔ Dead T m n f b := by
  induction n generalizing f b with
  | zero => exact Iff.rfl
  | succ n ih =>
      have hf := h f (.inl rfl)
      refine and_congr_right fun _ => forall_congr' fun k => ?_
      rw [hf, heap_eq hf]
      refine or_congr_right (exists_congr fun x => and_congr_right fun hx => ?_)
      exact ih fun g hg => h g (.inr ⟨k, x, True.intro, hx, hg⟩)

theorem frees_congr (h : ∀ g ∈ m.nodes n Any f, m'.pages g = m.pages g) :
    frees T m' n f b = frees T m n f b := by
  induction n generalizing f b with
  | zero => rfl
  | succ n ih =>
      have hf := h f (.inl rfl)
      ext g
      simp only [frees, Set.mem_ofPred_eq, heap_eq hf]
      refine or_congr (and_congr_right fun _ => dead_congr h) ?_
      refine exists_congr fun k => exists_congr fun x => and_congr_right fun hx => ?_
      rw [ih fun g hg => h g (.inr ⟨k, x, True.intro, hx, hg⟩)]

theorem frees_subset {g : Frame} (h : g ∈ frees T m n f b) : g ∈ m.foot n Any f := by
  induction n generalizing f b with
  | zero => exact h.1
  | succ n ih =>
      obtain ⟨rfl, -⟩ | ⟨k, x, hx, hg⟩ := h
      · exact .inl rfl
      · exact .inr ⟨k, x, True.intro, hx, ih hg⟩

/-- A tree that is dead goes as a whole. -/
theorem Dead.frees (h : Dead T m n f b) {g : Frame} (hg : g ∈ m.foot n Any f) :
    g ∈ frees T m n f b := by
  induction n generalizing f b with
  | zero => exact ⟨hg, h⟩
  | succ n ih =>
      obtain rfl | ⟨k, x, -, hx, hg⟩ := hg
      · exact .inl ⟨rfl, h⟩
      · refine .inr ⟨k, x, hx, ?_⟩
        obtain hz | ⟨x', hx', hd⟩ := h.2 k
        · rw [Mem.heap, hz, Entry.isPresent_zero] at hx
          cases hx
        · cases hx.symm.trans hx'
          exact ih hd hg

/-- Below a slot, what is freed of the whole is what is freed there. -/
theorem frees_child (ht : Tree Entry.frame m.heap (n + 1) Any f) (hx : m.heap f k = some x)
    {g : Frame} (hg : g ∈ m.foot n Any x.frame) :
    g ∈ frees T m (n + 1) f b ↔ g ∈ frees T m n x.frame (b * 512 + k) := by
  refine ⟨?_, fun h => .inr ⟨k, x, hx, h⟩⟩
  rintro (⟨rfl, -⟩ | ⟨k', x', hx', h⟩)
  · exact absurd hg (ht.1 k x True.intro hx).1
  · by_cases hkk : k = k'
    · subst hkk
      cases hx.symm.trans hx'
      exact h
    · exact absurd (frees_subset h) (ht.2 k k' x x' True.intro True.intro hx hx' hkk g hg)

/-- A tree loses its first frame if it is dead. -/
theorem frees_self (ht : Tree Entry.frame m.heap n Any f) : f ∈ frees T m n f b ↔ Dead T m n f b := by
  cases n with
  | zero => exact ⟨fun h => h.2, fun h => ⟨rfl, h⟩⟩
  | succ n =>
      refine ⟨?_, fun h => .inl ⟨rfl, h⟩⟩
      rintro (⟨-, h⟩ | ⟨k, x, hx, h⟩)
      · exact h
      · exact absurd (frees_subset h) (ht.1 k x True.intro hx).1

/-- `Left` sees the tables before, and all frames of the tree after. -/
theorem Left.congr {m₁ m₁' : Mem} (h : Left T m m' n f b)
    (hbefore : ∀ g ∈ m.foot n Any f, m₁.pages g = m.pages g)
    (hafter : ∀ g ∈ m.foot n Any f, m₁'.pages g = m'.pages g) : Left T m₁ m₁' n f b := by
  induction n generalizing f b with
  | zero =>
      show m₁'.pages f = m₁.pages f
      rw [hafter f rfl, hbefore f rfl]
      exact h
  | succ n ih =>
      have hf := hbefore f (.inl rfl)
      have hf' := hafter f (.inl rfl)
      intro k
      have hdead : DeadAt T m₁ n f b k ↔ DeadAt T m n f b k := by
        unfold DeadAt
        rw [heap_eq hf]
        refine exists_congr fun x => and_congr_right fun hx => dead_congr fun g hg => ?_
        exact hbefore g (.inr ⟨k, x, True.intro, hx, nodes_subset_foot hg⟩)
      rw [hdead, hf, hf', heap_eq hf]
      refine ⟨(h k).1, fun hno => ⟨((h k).2 hno).1, fun x hx => ?_⟩⟩
      refine ih (((h k).2 hno).2 x hx) ?_ ?_
      · exact fun g hg => hbefore g (.inr ⟨k, x, True.intro, hx, hg⟩)
      · exact fun g hg => hafter g (.inr ⟨k, x, True.intro, hx, hg⟩)

/-- What is left of the frames that are not freed: an entry of a table that led
to a freed frame is zero, and the rest is as before. -/
theorem Left.pages {F : Frame → Prop} (h : Left T m m' n f b)
    (ht : Tree Entry.frame m.heap n Any f)
    (hF : ∀ g ∈ m.foot n Any f, (F g ↔ g ∈ frees T m n f b)) {g : Frame}
    (hg : g ∈ m.foot n Any f) (hnot : ¬F g) :
    (g ∈ m.nodes n Any f → ∀ k, (∃ x, m.heap g k = some x ∧ F x.frame) → m'.pages g k = 0) ∧
      ∀ k, (g ∈ m.nodes n Any f → ¬∃ x, m.heap g k = some x ∧ F x.frame) →
        m'.pages g k = m.pages g k := by
  induction n generalizing f b with
  | zero =>
      cases hg
      exact ⟨fun hn => hn.elim, fun k _ => by rw [show m'.pages g = m.pages g from h]⟩
  | succ n ih =>
      have hchild : ∀ k x, m.heap f k = some x → ∀ y ∈ m.foot n Any x.frame,
          (F y ↔ y ∈ frees T m n x.frame (b * 512 + k)) := fun k x hx y hy => by
        rw [hF y (foot_child True.intro hx hy), frees_child ht hx hy]
      obtain rfl | ⟨k, x, -, hx, hg⟩ := hg
      · -- the first table
        have hdead : ∀ k, (∃ x, m.heap g k = some x ∧ F x.frame) ↔ DeadAt T m n g b k := by
          intro k
          refine exists_congr fun x => and_congr_right fun hx => ?_
          rw [hchild k x hx _ mem_foot_self, frees_self (ht.child True.intro hx)]
        refine ⟨fun _ k hk => (h k).1 ((hdead k).mp hk), fun k hk => ((h k).2 ?_).1⟩
        rw [← hdead]
        exact hk (.inl rfl)
      · -- below one of its slots, which is not dead
        have hno : ¬DeadAt T m n f b k := by
          rintro ⟨x', hx', hd⟩
          cases hx.symm.trans hx'
          exact hnot ((hchild k x hx g hg).mpr (hd.frees hg))
        rw [ht.nodes_child True.intro hx hg]
        exact ih (((h k).2 hno).2 x hx) (ht.child True.intro hx) (hchild k x hx) hg

/-- A range does not touch a block within one that it does not touch. -/
def Nested (T : Nat → Nat → Prop) : Prop := ∀ n b, T n b → T (n + 1) (b / 512)

theorem child_div (b : Nat) (k : Fin 512) : (b * 512 + k.val) / 512 = b := by
  have := k.isLt
  omega

/-- Nothing happens where the range does not touch. -/
theorem Nested.frees_empty (hT : Nested T) (h : ¬T n b) {g : Frame} : g ∉ frees T m n f b := by
  induction n generalizing f b with
  | zero => exact fun hg => h hg.2
  | succ n ih =>
      rintro (⟨-, hd⟩ | ⟨k, x, hx, hg⟩)
      · exact h hd.1
      · refine ih (fun hc => h ?_) hg
        have := hT n _ hc
        rwa [child_div] at this

theorem Dead.touched (h : Dead T m n f b) : T n b := by
  cases n with
  | zero => exact h
  | succ n => exact h.1

theorem Nested.left (hT : Nested T) (h : ¬T n b)
    (hsame : ∀ g ∈ m.foot n Any f, m'.pages g = m.pages g) : Left T m m' n f b := by
  induction n generalizing f b with
  | zero => exact hsame f rfl
  | succ n ih =>
      intro k
      have hc : ¬T n (b * 512 + k) := by
        intro hc
        have := hT n _ hc
        rw [child_div] at this
        exact h this
      have hf := hsame f (.inl rfl)
      refine ⟨fun ⟨x, _, hd⟩ => absurd hd.touched hc, fun _ => ⟨by rw [hf], fun x hx => ?_⟩⟩
      exact ih hc fun g hg => hsame g (.inr ⟨k, x, True.intro, hx, hg⟩)

/-! ## Sweeping slots of a table -/

/-- The slots `S` of table `t` have been swept. -/
structure Swept (T : Nat → Nat → Prop) (A : Set Frame) (m m' : Mem) (n : Nat) (K : Fin 512 → Prop)
    (t : Frame) (b : Nat) (l fs : List Frame) (S : Fin 512 → Prop) : Prop where
  own : Own A m' (n + 1) K t (fs ++ l)
  freed : ∀ g, g ∈ fs ↔ ∃ k x, S k ∧ m.heap t k = some x ∧ g ∈ frees T m n x.frame (b * 512 + k)
  slots : ∀ k, S k → LeftAt T m m' n t b k
  rest : ∀ k, ¬S k → m'.pages t k = m.pages t k
  side : ∀ g, g ≠ t → (∀ k, S k → g ∉ m.below n t k) → m'.pages g = m.pages g

namespace Swept

variable {fs fs' : List Frame} {S S' : Fin 512 → Prop}

/-- Slots that the range does not touch. -/
theorem untouched (hT : Nested T) (h : Own A m (n + 1) K t l) (hS : ∀ k, S k → ¬T n (b * 512 + k)) :
    Swept T A m m n K t b l [] S where
  own := h
  freed := fun g => by
    refine ⟨fun hg => (by cases hg), ?_⟩
    rintro ⟨k, x, hk, -, hg⟩
    exact absurd hg (hT.frees_empty (hS k hk))
  slots := fun k hk => ⟨fun ⟨_, _, hd⟩ => absurd hd.touched (hS k hk),
    fun _ => ⟨rfl, fun _ _ => hT.left (hS k hk) fun _ _ => rfl⟩⟩
  rest := fun _ _ => rfl
  side := fun _ _ _ => rfl

/-- A slot with nothing below it. -/
theorem vacant (h : Own A m (n + 1) K t l) (hk : m.heap t k = none) :
    Swept T A m m n K t b l [] (· = k) where
  own := h
  freed := fun g => by
    refine ⟨fun hg => (by cases hg), ?_⟩
    rintro ⟨k', x, rfl, hx, -⟩
    rw [hk] at hx
    cases hx
  slots := by
    rintro k' rfl
    refine ⟨fun ⟨x, hx, _⟩ => ?_, fun _ => ⟨rfl, fun x hx => ?_⟩⟩
    · rw [hk] at hx
      cases hx
    · rw [hk] at hx
      cases hx
  rest := fun _ _ => rfl
  side := fun _ _ _ => rfl

theorem imp (h : Swept T A m m' n K t b l fs S) (hS : ∀ k, S k ↔ S' k) :
    Swept T A m m' n K t b l fs S' := by
  have : S = S' := funext fun k => propext (hS k)
  exact this ▸ h

/-- What hangs below another slot is untouched. -/
theorem other (ht : Tree Entry.frame m.heap (n + 1) K t) (h : Swept T A m m' n K t b l fs S)
    (hS : ∀ k, S k → K k) (hk : K k) (hnot : ¬S k) :
    m'.heap t k = m.heap t k ∧ ∀ x, m.heap t k = some x →
      ∀ g ∈ m.foot n Any x.frame, m'.pages g = m.pages g := by
  refine ⟨by simp only [Mem.heap, h.rest k hnot], fun x hx g hg => ?_⟩
  have hb : g ∈ m.below n t k := ⟨x, hx, hg⟩
  refine h.side g ?_ fun k' hk' => ?_
  · rintro rfl
    exact ht.notMem_below hk hb
  · refine ht.below_disjoint hk (hS k' hk') ?_ hb
    rintro rfl
    exact hnot hk'

theorem trans (hown : Own A m (n + 1) K t l) (h : Swept T A m m' n K t b l fs S)
    (h' : Swept T A m' m'' n K t b (fs ++ l) fs' S') (hS : ∀ k, S k → K k) (hS' : ∀ k, S' k → K k)
    (hdisj : ∀ k, S k → ¬S' k) :
    Swept T A m m'' n K t b l (fs' ++ fs) fun k => S k ∨ S' k := by
  have htree := hown.tree
  have hother := fun k hk hnot => h.other htree hS (k := k) hk hnot
  -- the slots swept later look the same in between
  have hlater : ∀ k, S' k → m'.heap t k = m.heap t k ∧ ∀ x, m.heap t k = some x →
      ∀ g ∈ m.foot n Any x.frame, m'.pages g = m.pages g :=
    fun k hk => hother k (hS' k hk) fun hk' => hdisj k hk' hk
  have hbelow : ∀ k, S' k → m'.below n t k = m.below n t k := by
    intro k hk
    ext g
    refine exists_congr fun x => ?_
    rw [(hlater k hk).1]
    refine and_congr_right fun hx => ?_
    have hfoot := foot_frame fun g hg => (hlater k hk).2 x hx g (nodes_subset_foot hg)
    show g ∈ m'.foot n Any x.frame ↔ g ∈ m.foot n Any x.frame
    rw [hfoot]
  refine ⟨?_, fun g => ?_, fun k hk => ?_, fun k hk => ?_, fun g hgt hg => ?_⟩
  · rw [List.append_assoc]
    exact h'.own
  · rw [List.mem_append, h'.freed, h.freed]
    constructor
    · rintro (⟨k, x, hk, hx, hg⟩ | ⟨k, x, hk, hx, hg⟩)
      · obtain ⟨htop, hsame⟩ := hlater k hk
        rw [htop] at hx
        rw [frees_congr fun y hy => hsame x hx y (nodes_subset_foot hy)] at hg
        exact ⟨k, x, .inr hk, hx, hg⟩
      · exact ⟨k, x, .inl hk, hx, hg⟩
    · rintro ⟨k, x, hk | hk, hx, hg⟩
      · exact .inr ⟨k, x, hk, hx, hg⟩
      · obtain ⟨htop, hsame⟩ := hlater k hk
        refine .inl ⟨k, x, hk, htop.trans hx, ?_⟩
        rwa [frees_congr fun y hy => hsame x hx y (nodes_subset_foot hy)]
  · rcases hk with hk | hk
    · -- swept before: the second sweep is beside it
      have hpage := h'.rest k (hdisj k hk)
      refine ⟨fun hd => hpage.trans ((h.slots k hk).1 hd), fun hd => ?_⟩
      obtain ⟨hkept, hleft⟩ := (h.slots k hk).2 hd
      refine ⟨hpage.trans hkept, fun x hx => (hleft x hx).congr (fun _ _ => rfl) fun g hg => ?_⟩
      have hb : g ∈ m.below n t k := ⟨x, hx, hg⟩
      refine h'.side g ?_ fun k' hk' => ?_
      · rintro rfl
        exact htree.notMem_below (hS k hk) hb
      · rw [hbelow k' hk']
        refine htree.below_disjoint (hS k hk) (hS' k' hk') ?_ hb
        rintro rfl
        exact hdisj k hk hk'
    · -- swept now: it looked the same before the first sweep
      obtain ⟨htop, hsame⟩ := hlater k hk
      have hpage := h.rest k fun hk' => hdisj k hk' hk
      have hdead : DeadAt T m' n t b k ↔ DeadAt T m n t b k := by
        unfold DeadAt
        rw [htop]
        refine exists_congr fun x => and_congr_right fun hx => dead_congr fun g hg => ?_
        exact hsame x hx g (nodes_subset_foot hg)
      have hslot := h'.slots k hk
      unfold LeftAt at hslot ⊢
      rw [hdead, hpage, htop] at hslot
      refine ⟨hslot.1, fun hd => ⟨(hslot.2 hd).1, fun x hx => ?_⟩⟩
      exact ((hslot.2 hd).2 x hx).congr (fun g hg => by
        rw [foot_frame fun y hy => hsame x hx y (nodes_subset_foot hy)] at hg
        exact (hsame x hx g hg).symm) fun _ _ => rfl
  · rw [h'.rest k fun hk' => hk (.inr hk'), h.rest k fun hk' => hk (.inl hk')]
  · rw [h'.side g hgt fun k hk => by rw [hbelow k hk]; exact hg k (.inr hk),
      h.side g hgt fun k hk => hg k (.inl hk)]

/-- A table whose entries are all swept is empty if it is dead. -/
theorem isEmpty_iff (h : Swept T A m m' n Any t b l fs Any) (hT : T (n + 1) b) :
    isEmpty (m'.pages t) ↔ Dead T m (n + 1) t b := by
  have hslot : ∀ k, m'.pages t k = 0 ↔ m.pages t k = 0 ∨ DeadAt T m n t b k := by
    intro k
    have hleft := h.slots k True.intro
    by_cases hd : DeadAt T m n t b k
    · exact iff_of_true (hleft.1 hd) (.inr hd)
    · rw [(hleft.2 hd).1]
      exact (or_iff_left hd).symm
  constructor
  · exact fun he => ⟨hT, fun k => (hslot k).mp (he k)⟩
  · exact fun hd k => (hslot k).mpr (hd.2 k)

/-- Nothing but the tree and the free list is written. -/
theorem same (h : Swept T A m m' n Any t b l fs Any) (hfoot : ∀ g ∈ m.foot (n + 1) Any t, g ∈ B) :
    Same B m m' := by
  intro g hg
  refine h.side g ?_ fun k _ hk => hg (hfoot g (below_subset True.intro hk))
  rintro rfl
  exact hg (hfoot g mem_foot_self)

end Swept

/-- The page or the empty table that hangs in slot `k` goes. -/
theorem Own.prune_pages (h : Own A m (n + 1) K t l) (hk : K k) (hx : m.heap t k = some x) :
    ((m.put x.frame).setEntry t k 0).pages t k = 0 ∧
      (∀ k', k' ≠ k → ((m.put x.frame).setEntry t k 0).pages t k' = m.pages t k') ∧
      ∀ g, g ≠ t → g ≠ x.frame → ((m.put x.frame).setEntry t k 0).pages g = m.pages g := by
  have hne : t ≠ x.frame := fun ht => (h.tree.1 k x hk hx).1 (ht ▸ mem_foot_self)
  have hself : ((m.put x.frame).setEntry t k 0).pages t = Function.update (m.pages t) k 0 := by
    simp only [Mem.setEntry, Mem.setPage, Function.update_self, put_pages hne]
  refine ⟨?_, fun k' hk' => ?_, fun g hgt hgx => (setEntry_pages hgt).trans (put_pages hgx)⟩
  · rw [hself, Function.update_self]
  · rw [hself, Function.update_of_ne hk']

/-- The slot of a page that is touched. -/
theorem Own.swept_page (h : Own A m 1 K t l) (hk : K k) (hx : m.heap t k = some x)
    (hT : T 0 (b * 512 + k)) :
    Swept T A m ((m.put x.frame).setEntry t k 0) 0 K t b l [x.frame] (· = k) := by
  obtain ⟨hzero, hothers, hside⟩ := h.prune_pages hk hx
  refine ⟨(h.prune hk hx).1, fun g => ?_, ?_, hothers, fun g hgt hg => hside g hgt ?_⟩
  · rw [List.mem_singleton]
    constructor
    · rintro rfl
      exact ⟨k, x, rfl, hx, rfl, hT⟩
    · rintro ⟨k', x', rfl, hx', rfl, -⟩
      rw [Option.some.inj (hx.symm.trans hx')]
  · rintro k' rfl
    exact ⟨fun _ => hzero, fun hd => absurd ⟨x, hx, hT⟩ hd⟩
  · rintro rfl
    exact hg k rfl ⟨x, hx, rfl⟩

/-- The slot of a table with something left in it. -/
theorem Swept.kept_table {fs : List Frame} (h : Own A m (n + 1 + 1) K t l) (hk : K k)
    (hx : m.heap t k = some x) (hown : Own A m' (n + 1 + 1) K t (fs ++ l))
    (hin : Swept T B m m' n Any x.frame (b * 512 + k) l fs Any)
    (hd : ¬Dead T m (n + 1) x.frame (b * 512 + k)) : Swept T A m m' (n + 1) K t b l fs (· = k) := by
  have hne : t ≠ x.frame := fun ht => (h.tree.1 k x hk hx).1 (ht ▸ mem_foot_self)
  have htop : m'.pages t = m.pages t := hin.side t hne fun k' _ hb =>
    (h.tree.1 k x hk hx).1 (below_subset True.intro hb)
  refine ⟨hown, fun g => ?_, ?_, fun k' _ => by rw [htop], fun g hgt hg => hin.side g ?_ ?_⟩
  · rw [hin.freed]
    constructor
    · rintro ⟨k', x', -, hx', hg⟩
      exact ⟨k, x, rfl, hx, .inr ⟨k', x', hx', hg⟩⟩
    · rintro ⟨k', x', rfl, hx', hg⟩
      cases hx.symm.trans hx'
      obtain ⟨-, hdead⟩ | ⟨k'', x'', hx'', hg⟩ := hg
      · exact absurd hdead hd
      · exact ⟨k'', x'', True.intro, hx'', hg⟩
  · rintro k' rfl
    refine ⟨fun ⟨x', hx', hdead⟩ => ?_, fun _ => ⟨by rw [htop], fun x' hx' => ?_⟩⟩
    · cases hx.symm.trans hx'
      exact absurd hdead hd
    · cases hx.symm.trans hx'
      exact fun k'' => hin.slots k'' True.intro
  · rintro rfl
    exact hg k rfl ⟨x, hx, mem_foot_self⟩
  · exact fun k' _ hb => hg k rfl ⟨x, hx, below_subset True.intro hb⟩

/-- The slot of a table that is empty in the end. -/
theorem Swept.gone_table {fs : List Frame} (h : Own A m (n + 1 + 1) K t l) (hk : K k)
    (hx : m.heap t k = some x) (hown : Own A m' (n + 1 + 1) K t (fs ++ l))
    (hin : Swept T B m m' n Any x.frame (b * 512 + k) l fs Any)
    (hd : Dead T m (n + 1) x.frame (b * 512 + k)) :
    Swept T A m ((m'.put x.frame).setEntry t k 0) (n + 1) K t b l (x.frame :: fs) (· = k) := by
  have hne : t ≠ x.frame := fun ht => (h.tree.1 k x hk hx).1 (ht ▸ mem_foot_self)
  have htop : m'.pages t = m.pages t := hin.side t hne fun k' _ hb =>
    (h.tree.1 k x hk hx).1 (below_subset True.intro hb)
  have hx' : m'.heap t k = some x := by rw [heap_eq htop, hx]
  obtain ⟨hzero, hothers, hside⟩ := hown.prune_pages hk hx'
  refine ⟨(hown.prune hk hx').1, fun g => ?_, ?_, fun k' hk' => ?_, fun g hgt hg => ?_⟩
  · rw [List.mem_cons, hin.freed]
    constructor
    · rintro (rfl | ⟨k', x', -, hx', hg⟩)
      · exact ⟨k, x, rfl, hx, .inl ⟨rfl, hd⟩⟩
      · exact ⟨k, x, rfl, hx, .inr ⟨k', x', hx', hg⟩⟩
    · rintro ⟨k', x', rfl, hx', hg⟩
      cases hx.symm.trans hx'
      obtain ⟨rfl, -⟩ | ⟨k'', x'', hx'', hg⟩ := hg
      · exact .inl rfl
      · exact .inr ⟨k'', x'', True.intro, hx'', hg⟩
  · rintro k' rfl
    exact ⟨fun _ => hzero, fun hno => absurd ⟨x, hx, hd⟩ hno⟩
  · rw [hothers k' hk', htop]
  · have hgx : g ≠ x.frame := by
      rintro rfl
      exact hg k rfl ⟨x, hx, mem_foot_self⟩
    rw [hside g hgt hgx]
    exact hin.side g hgx fun k' _ hb => hg k rfl ⟨x, hx, below_subset True.intro hb⟩

/-! ## Ranges -/

/-- The slot of an address in the table for block `b`. -/
theorem index_of_div (h : va / span n = b * 512 + k) : index n va = k := by
  have := k.isLt
  refine Fin.ext ?_
  show va / span n % 512 = k.val
  omega

theorem block_index (h : v / span (n + 1) = b) : b * 512 + (index n v).val = v / span n := by
  rw [div_span_succ] at h
  rw [index]
  show b * 512 + v / span n % 512 = v / span n
  omega

/-- The loop over the entries of some addresses. -/
theorem each_swept {body : Nat → VmM Unit} {vs : List Nat}
    (hbody : ∀ v ∈ vs, ∀ {m l}, Own A m (n + 1) K t l → Sat (body v env m)
      (fun _ m' => ∃ fs, Swept T A m m' n K t b l fs (· = index n v))
      (fun _ _ => False) (fun _ => False))
    (hK : ∀ v ∈ vs, K (index n v)) (hnodup : (vs.map (index n)).Nodup)
    (hT : Nested T) (h : Own A m (n + 1) K t l) :
    Sat (Prog.each body vs env m)
      (fun _ m' => ∃ fs, Swept T A m m' n K t b l fs fun k => k ∈ vs.map (index n))
      (fun _ _ => False) (fun _ => False) := by
  induction vs generalizing m l with
  | nil => exact Sat.pure ⟨[], .untouched hT h fun k hk => by cases hk⟩
  | cons v vs ih =>
      obtain ⟨hnot, hnodup⟩ := List.nodup_cons.mp hnodup
      refine Sat.seq (hbody v List.mem_cons_self h) fun _ m₁ ⟨fs, h₁⟩ => ?_
      refine (ih (fun w hw => hbody w (List.mem_cons_of_mem v hw))
        (fun w hw => hK w (List.mem_cons_of_mem v hw)) hnodup h₁.own).imp ?_
        (fun _ _ he => he) (fun _ hx => hx)
      rintro - m₂ ⟨fs', h₂⟩
      refine ⟨fs' ++ fs, (h₁.trans h h₂ ?_ ?_ ?_).imp fun k => ?_⟩
      · rintro k rfl
        exact hK v List.mem_cons_self
      · intro k hk
        obtain ⟨w, hw, rfl⟩ := List.mem_map.mp hk
        exact hK w (List.mem_cons_of_mem v hw)
      · rintro k rfl
        exact hnot
      · rw [List.map_cons, List.mem_cons]

/-- The addresses that are visited lie in the block of the table. -/
theorem block_of_visit {start stop : Nat} (hlo : b * span (n + 1) ≤ start)
    (hhi : stop ≤ (b + 1) * span (n + 1)) (hle : start / span n ≤ v / span n) (hlt : v < stop) :
    v / span (n + 1) = b := by
  have hs := span_pos n
  rw [div_span_succ]
  rw [span_succ, Nat.mul_comm (span n), ← Nat.mul_assoc] at hlo hhi
  have h₁ : b * 512 ≤ start / span n := (Nat.le_div_iff_mul_le hs).mpr hlo
  have h₂ : v / span n < (b + 1) * 512 :=
    (Nat.div_lt_iff_lt_mul hs).mpr (Nat.lt_of_lt_of_le hlt hhi)
  omega

theorem nodup_index {start stop : Nat} (hlo : b * span (n + 1) ≤ start)
    (hhi : stop ≤ (b + 1) * span (n + 1)) :
    ((stepBy (start / span n * span n) stop (span n)).map (index n)).Nodup := by
  have hs := span_pos n
  refine List.Nodup.map_on (fun v hv w hw heq => ?_) (List.nodup_range' _ hs)
  obtain ⟨hv, hlev, hltv⟩ := (mem_stepBy hs).mp hv
  obtain ⟨hw, hlew, hltw⟩ := (mem_stepBy hs).mp hw
  have hb := (block_of_visit hlo hhi hlev hltv).trans (block_of_visit hlo hhi hlew hltw).symm
  have hdiv := (index_eq_iff hb).mp heq
  rw [← Nat.div_add_mod v (span n), ← Nat.div_add_mod w (span n), hdiv, hv, hw]

/-- The loop over the entries that a range within one table touches. -/
theorem range_swept {body : Nat → VmM Unit} {start stop : Nat} (hT : Nested T)
    (hlo : b * span (n + 1) ≤ start) (hhi : stop ≤ (b + 1) * span (n + 1))
    (hvis : ∀ k : Fin 512, K k →
      (T n (b * 512 + k) ↔ start / span n ≤ b * 512 + k ∧ (b * 512 + k) * span n < stop))
    (hK : ∀ v, v < stop → K (index n v))
    (hbody : ∀ v, v % span n = 0 → v / span (n + 1) = b → start / span n ≤ v / span n → v < stop →
      ∀ {m l}, Own A m (n + 1) K t l → Sat (body v env m)
        (fun _ m' => ∃ fs, Swept T A m m' n K t b l fs (· = index n v))
        (fun _ _ => False) (fun _ => False))
    (h : Own A m (n + 1) K t l) :
    Sat (Prog.each body (stepBy (start / span n * span n) stop (span n)) env m)
      (fun _ m' => ∃ fs, Swept T A m m' n K t b l fs K) (fun _ _ => False) (fun _ => False) := by
  have hs := span_pos n
  refine (each_swept (b := b) (fun v hv {m l} hown => ?_) (fun v hv => ?_) (nodup_index hlo hhi) hT h).imp ?_
    (fun _ _ he => he) (fun _ hx => hx)
  · obtain ⟨hmod, hle, hlt⟩ := (mem_stepBy hs).mp hv
    exact hbody v hmod (block_of_visit hlo hhi hle hlt) hle hlt hown
  · exact hK v ((mem_stepBy hs).mp hv).2.2
  · rintro - m' ⟨fs, hsw⟩
    have hvisited : ∀ k ∈ (stepBy (start / span n * span n) stop (span n)).map (index n), K k := by
      intro k hk
      obtain ⟨v, hv, rfl⟩ := List.mem_map.mp hk
      exact hK v ((mem_stepBy hs).mp hv).2.2
    -- the other slots are not touched
    have hrest : Swept T A m' m' n K t b (fs ++ l) [] fun k =>
        K k ∧ k ∉ (stepBy (start / span n * span n) stop (span n)).map (index n) := by
      refine .untouched hT hsw.own fun k hk htouch => hk.2 (List.mem_map.mpr ?_)
      obtain ⟨hle, hlt⟩ := (hvis k hk.1).mp htouch
      have hdiv := Nat.mul_div_cancel (b * 512 + k) hs
      refine ⟨(b * 512 + k) * span n, (mem_stepBy hs).mpr ⟨Nat.mul_mod_left .., ?_, hlt⟩,
        index_of_div hdiv⟩
      rwa [hdiv]
    refine ⟨[] ++ fs, (hsw.trans h hrest hvisited (fun _ hk => hk.1) fun _ hk hk' => hk'.2 hk).imp
      fun k => ⟨?_, fun hk => ?_⟩⟩
    · rintro (hk | hk)
      · exact hvisited k hk
      · exact hk.1
    · by_cases hin : k ∈ (stepBy (start / span n * span n) stop (span n)).map (index n)
      · exact .inl hin
      · exact .inr ⟨hk, hin⟩

/-- The part of a range that lies in a block of `span n` bytes. -/
def Covers (T : Nat → Nat → Prop) (n b start stop : Nat) : Prop :=
  ∀ j < n, ∀ b', b' * span j / span n = b →
    (T j b' ↔ start < stop ∧ start / span j ≤ b' ∧ b' * span j < stop)

theorem Covers.slot {start stop : Nat} (h : Covers T (n + 1) b start stop) (hlt : start < stop)
    (k : Fin 512) :
    T n (b * 512 + k) ↔ start / span n ≤ b * 512 + k ∧ (b * 512 + k) * span n < stop := by
  rw [h n (Nat.lt_succ_self n) _ ?_]
  · exact and_iff_right hlt
  · rw [div_span_succ, Nat.mul_div_cancel _ (span_pos n), child_div]

/-- The part of a range in the block of `v`, when the range touches it. -/
theorem Covers.inner {start stop : Nat} (h : Covers T (n + 1) b start stop)
    (hv : v % span n = 0) (hb : v / span (n + 1) = b) (hle : start / span n ≤ v / span n)
    (hlt : v < stop) (hrange : start < stop) :
    Covers T n (v / span n) (max start v) (min stop (v + span n)) := by
  intro j hj b' hb'
  have hs := span_pos n
  have hsj := span_pos j
  have hvs := Nat.div_add_mod v (span n)
  have hblock := Nat.div_add_mod (b' * span j) (span n)
  have hin := Nat.mod_lt (b' * span j) hs
  have hstart : start < v + span n := by
    have := Nat.div_add_mod start (span n)
    have := Nat.mod_lt start hs
    have := Nat.mul_le_mul_left (span n) hle
    omega
  rw [h j (Nat.lt_succ_of_lt hj) b' (by rw [div_span_succ, hb', ← hb, div_span_succ])]
  rw [hb'] at hblock
  have hdiv : ∀ a, a / span j ≤ b' ↔ a < (b' + 1) * span j := fun a => by
    rw [← Nat.lt_succ_iff, Nat.div_lt_iff_lt_mul hsj]
  rw [hdiv, hdiv, Nat.succ_mul]
  omega

/-! ## One turn of the loops -/

theorem freePage_swept (h : Own A m 1 K t l) (hK : K (index 0 v)) (hb : v / span 1 = b)
    (hT : T 0 (v / span 0)) :
    Sat (freePage t v env m) (fun _ m' => ∃ fs, Swept T A m m' 0 K t b l fs (· = index 0 v))
      (fun _ _ => False) (fun _ => False) := by
  unfold freePage
  refine Sat.gets (Sat.ite (fun hpres => ?_) fun hpres => Sat.pure ⟨[], .vacant h ?_⟩)
  · refine Sat.modify (Sat.last_modify ⟨_, h.swept_page hK ?_ ?_⟩)
    · simp [Mem.heap, hpres]
    · rwa [block_index hb]
  · simp [Mem.heap, hpres]

/-- Code that frees the pages of a range in tables of `n + 1` levels. -/
def Sweeps (n : Nat) (inner : Frame → Nat → Nat → VmM Unit) : Prop :=
  ∀ ⦃A : Set Frame⦄ ⦃T : Nat → Nat → Prop⦄ ⦃m : Mem⦄ ⦃t : Frame⦄ ⦃l : List Frame⦄ ⦃env : Env⦄
    ⦃start stop b : Nat⦄, Nested T → Own A m (n + 1) Any t l → start % pageSize = 0 →
    stop % pageSize = 0 → b * span (n + 1) ≤ start → stop ≤ (b + 1) * span (n + 1) →
    Covers T (n + 1) b start stop →
    Sat (inner t start stop env m) (fun _ m' => ∃ fs, Swept T A m m' n Any t b l fs Any)
      (fun _ _ => False) (fun _ => False)

theorem freeTable_swept {inner : Frame → Nat → Nat → VmM Unit} (hinner : Sweeps n inner)
    {start stop : Nat} (hT : Nested T) (h : Own A m (n + 1 + 1) K t l) (hK : K (index (n + 1) v))
    (hv : v % span (n + 1) = 0) (hb : v / span (n + 1 + 1) = b) (hstart : start % pageSize = 0)
    (hstop : stop % pageSize = 0) (htouch : T (n + 1) (v / span (n + 1)))
    (hcov : Covers T (n + 1) (v / span (n + 1)) (max start v) (min stop (v + span (n + 1)))) :
    Sat (freeTable inner (n + 1) t start stop v env m)
      (fun _ m' => ∃ fs, Swept T A m m' (n + 1) K t b l fs (· = index (n + 1) v))
      (fun _ _ => False) (fun _ => False) := by
  have hblock := block_index hb
  have hvs : v / span (n + 1) * span (n + 1) = v := by
    rw [Nat.mul_comm]
    have := Nat.div_add_mod v (span (n + 1))
    omega
  unfold freeTable
  refine Sat.gets (Sat.ite (fun hpres => ?_) fun hpres => Sat.pure ⟨[], .vacant h ?_⟩)
  · have hx : m.heap t (index (n + 1) v) = some (m.pages t (index (n + 1) v)) := by
      simp [Mem.heap, hpres]
    generalize m.pages t (index (n + 1) v) = x at hx ⊢
    let B : Set Frame := {g | g ∈ m.foot (n + 1) Any x.frame ∨ g ∈ l}
    have hBA : ∀ g ∈ B, g ∈ A := by
      rintro g (hg | hg)
      · exact h.sub g (foot_child hK hx hg)
      · exact h.pool.mem g hg
    have hB : ∀ g ∈ B, g ∈ m.foot (n + 1) Any x.frame ∨ g ∉ m.foot (n + 1 + 1) K t := by
      rintro g (hg | hg)
      · exact .inl hg
      · exact .inr fun hgf => h.apart g hgf hg
    have hin := h.enter (B := B) hK hx (fun g hg => .inr hg) (fun g hg => .inl hg)
    refine Sat.seq (hinner hT hin (b := v / span (n + 1)) (max_mod hstart (mod_pageSize hv))
      (min_mod hstop ?_) ?_ ?_ hcov) fun _ m₁ hsw => ?_
    · rw [Nat.add_mod, mod_pageSize hv, span_mod]
      rfl
    · rw [hvs]
      exact Nat.le_max_right ..
    · rw [Nat.succ_mul, hvs]
      exact Nat.min_le_right ..
    obtain ⟨fs, hsw⟩ := hsw
    have hown := h.leave hK hx hBA hB hsw.own (hsw.same fun g hg => .inl hg)
    have hempty := hsw.isEmpty_iff htouch
    rw [← hblock] at hsw hempty
    refine Sat.gets (Sat.ite (fun he => ?_) fun he => Sat.pure ⟨fs, ?_⟩)
    · exact Sat.modify (Sat.last_modify ⟨_, hsw.gone_table h hK hx hown (hempty.mp he)⟩)
    · exact hsw.kept_table h hK hx hown fun hd => he (hempty.mpr hd)
  · simp [Mem.heap, hpres]

/-! ## The four levels -/

/-- A range that is empty. -/
theorem sweep_empty {start stop : Nat} (hT : Nested T) (h : Own A m (n + 1) Any t l)
    (hcov : Covers T (n + 1) b start stop) (hge : ¬start < stop) :
    Swept T A m m n Any t b l [] Any := by
  refine .untouched hT h fun k _ htouch => hge ?_
  refine ((hcov n (Nat.lt_succ_self n) _ ?_).mp htouch).1
  rw [div_span_succ, Nat.mul_div_cancel _ (span_pos n), child_div]

theorem length_le_span {start stop : Nat} (hlo : b * span n ≤ start) (hhi : stop ≤ (b + 1) * span n) :
    stop - start ≤ span n := by
  rw [Nat.succ_mul] at hhi
  omega

theorem sweeps_one : Sweeps 0 freeUserPages₁ := by
  intro A T m t l env start stop b hT h hstart hstop hlo hhi hcov
  have hspan₀ : span 0 = 4096 := rfl
  unfold freeUserPages₁
  refine Sat.ite (fun hlt => ?_) fun hge => Sat.pure ⟨[], sweep_empty hT h hcov hge⟩
  refine Sat.assert (fun hn => hn hstart) fun _ => Sat.assert (fun hn => hn hstop) fun _ =>
    Sat.assert (fun hn => hn (length_le_span hlo hhi)) fun _ => ?_
  have hround : start / span 0 * span 0 = start := by
    rw [hspan₀]
    simp only [pageSize] at hstart
    omega
  have hloop : Sat (Prog.each (freePage t) _ env m) _ _ _ :=
    range_swept hT hlo hhi (fun k _ => hcov.slot hlt k) (fun _ _ => True.intro)
      (fun v hv hb hle hvlt {m l} hown => freePage_swept hown True.intro hb ?_) h
  · rw [hround] at hloop
    exact hloop
  · rw [← block_index hb, hcov.slot hlt, block_index hb]
    exact ⟨hle, Nat.lt_of_le_of_lt (Nat.div_mul_le_self ..) hvlt⟩

/-- The loop of a table above the last level. -/
theorem freeTables_swept {inner : Frame → Nat → Nat → VmM Unit} (hinner : Sweeps n inner)
    {start stop : Nat} (hT : Nested T) (h : Own A m (n + 1 + 1) Any t l)
    (hstart : start % pageSize = 0) (hstop : stop % pageSize = 0)
    (hlo : b * span (n + 1 + 1) ≤ start) (hhi : stop ≤ (b + 1) * span (n + 1 + 1))
    (hlt : start < stop) (hcov : Covers T (n + 1 + 1) b start stop) :
    Sat (Prog.each (freeTable inner (n + 1) t start stop)
        (stepBy (start / span (n + 1) * span (n + 1)) stop (span (n + 1))) env m)
      (fun _ m' => ∃ fs, Swept T A m m' (n + 1) Any t b l fs Any)
      (fun _ _ => False) (fun _ => False) := by
  refine range_swept hT hlo hhi (fun k _ => hcov.slot hlt k) (fun _ _ => True.intro)
    (fun v hv hb hle hvlt {m l} hown => ?_) h
  refine freeTable_swept hinner hT hown True.intro hv hb hstart hstop ?_
    (hcov.inner hv hb hle hvlt hlt)
  rw [← block_index hb, hcov.slot hlt, block_index hb]
  exact ⟨hle, Nat.lt_of_le_of_lt (Nat.div_mul_le_self ..) hvlt⟩

theorem sweeps_two : Sweeps 1 freeUserPages₂ := by
  intro A T m t l env start stop b hT h hstart hstop hlo hhi hcov
  unfold freeUserPages₂
  refine Sat.ite (fun hlt => ?_) fun hge => Sat.pure ⟨[], sweep_empty hT h hcov hge⟩
  refine Sat.assert (fun hn => hn hstart) fun _ => Sat.assert (fun hn => hn hstop) fun _ =>
    Sat.assert (fun hn => hn (length_le_span hlo hhi)) fun _ => ?_
  exact freeTables_swept sweeps_one hT h hstart hstop hlo hhi hlt hcov

theorem sweeps_three : Sweeps 2 freeUserPages₃ := by
  intro A T m t l env start stop b hT h hstart hstop hlo hhi hcov
  unfold freeUserPages₃
  refine Sat.ite (fun hlt => ?_) fun hge => Sat.pure ⟨[], sweep_empty hT h hcov hge⟩
  refine Sat.assert (fun hn => hn hstart) fun _ => Sat.assert (fun hn => hn hstop) fun _ =>
    Sat.assert (fun hn => hn (length_le_span hlo hhi)) fun _ => ?_
  exact freeTables_swept sweeps_two hT h hstart hstop hlo hhi hlt hcov

/-! ## The whole table -/

/-- The pages from `start` to `stop` touch block `b` of `span n` bytes. Of the
root the code looks at an entry even if no page lies between. -/
def Touches (start stop n b : Nat) : Prop :=
  (n < 3 → start < stop) ∧ start / span n ≤ b ∧ b * span n < stop

theorem nested_touches (start stop : Nat) : Nested (Touches start stop) := by
  rintro n b ⟨hlt, hlo, hhi⟩
  refine ⟨fun hn => hlt (Nat.lt_of_succ_lt hn), ?_, ?_⟩
  · rw [div_span_succ]
    exact Nat.div_le_div_right hlo
  · refine Nat.lt_of_le_of_lt ?_ hhi
    rw [span_succ, Nat.mul_comm (span n), ← Nat.mul_assoc]
    exact Nat.mul_le_mul_right _ (Nat.div_mul_le_self ..)

theorem covers_touches {start stop : Nat} (hv : v % span 3 = 0) (hv' : v / span 4 = 0)
    (hle : start / span 3 ≤ v / span 3) (hlt : v < stop) :
    Covers (Touches start stop) 3 (v / span 3) (max start v) (min stop (v + span 3)) := by
  by_cases hrange : start < stop
  · refine Covers.inner (b := 0) (fun j _ b' _ => ?_) hv hv' hle hlt hrange
    simp only [Touches, hrange, implies_true, true_and]
  · intro j hj b' _
    refine iff_of_false (fun h => hrange (h.1 hj)) fun h => hrange ?_
    omega

theorem freeUserPages_swept {start stop : Nat} (h : OwnTable A m root l) (hlt : start < stop)
    (hend : stop ≤ userEnd) :
    Sat (freeUserPages root start stop env m) (fun _ m' => ∃ fs,
      Swept (Touches (pageRoundUp start) (pageRoundUp stop)) A m m' 3 UserHalf root 0 l fs UserHalf)
      (fun _ _ => False) (fun _ => False) := by
  have hend' := pageRoundUp_userEnd hend
  have hT := nested_touches (pageRoundUp start) (pageRoundUp stop)
  have hlo : 0 * span 4 ≤ pageRoundUp start := by simp
  have hhi : pageRoundUp stop ≤ (0 + 1) * span 4 := Nat.le_trans hend' (by decide)
  have htouch : ∀ b, Touches (pageRoundUp start) (pageRoundUp stop) 3 b ↔
      pageRoundUp start / span 3 ≤ b ∧ b * span 3 < pageRoundUp stop := fun b =>
    and_iff_right fun h3 => absurd h3 (Nat.lt_irrefl 3)
  unfold freeUserPages
  refine Sat.ite (fun _ => ?_) fun hge => absurd hlt hge
  refine range_swept (n := 3) hT hlo hhi (fun k _ => htouch _)
    (fun v hv => userHalf_index (Nat.lt_of_lt_of_le hv hend'))
    (fun v hv hb hle hvlt {m l} hown => ?_) h
  refine freeTable_swept (n := 2) sweeps_three hT hown
    (userHalf_index (Nat.lt_of_lt_of_le hvlt hend')) hv hb (pageRoundUp_mod start)
    (pageRoundUp_mod stop) ((htouch _).mpr ⟨hle, ?_⟩) (covers_touches hv hb hle hvlt)
  exact Nat.lt_of_le_of_lt (Nat.div_mul_le_self ..) hvlt

/-- The frame after `d` steps down on the path of an address, in a tree of `n`
levels. -/
def Mem.path (m : Mem) (va : Nat) : Nat → Nat → Frame → Option Frame
  | _, 0, t => some t
  | 0, _ + 1, _ => none
  | lvl + 1, d + 1, t => (m.next lvl t va).bind (m.path va lvl d)

@[simp] theorem path_zero : m.path va n 0 t = some t := by
  cases n <;> rfl

theorem next_eq (lvl : Nat) (t : Frame) (va : Nat) :
    m.next lvl t va = (m.heap t (index lvl va)).map Entry.frame := by
  unfold Mem.next Mem.heap
  split <;> rfl

theorem path_succ {d : Nat} {g : Frame} (h : m.path va (n + 1) (d + 1) t = some g) :
    ∃ x, m.heap t (index n va) = some x ∧ m.path va n d x.frame = some g := by
  rw [Mem.path, next_eq] at h
  cases hx : m.heap t (index n va) with
  | none =>
      rw [hx] at h
      cases h
  | some x =>
      rw [hx] at h
      exact ⟨x, rfl, h⟩

theorem path_foot {d : Nat} {g : Frame} (h : m.path va n d t = some g) : g ∈ m.foot n Any t := by
  induction d generalizing n t with
  | zero =>
      rw [path_zero] at h
      cases h
      exact mem_foot_self
  | succ d ih =>
      obtain _ | n := n
      · cases h
      obtain ⟨x, hx, hp⟩ := path_succ h
      exact foot_child True.intro hx (ih hp)

/-- A frame on a path is freed if what hangs there is dead. -/
theorem path_frees {d : Nat} {g : Frame} (ht : Tree Entry.frame m.heap n Any t)
    (h : m.path va n d t = some g) :
    g ∈ frees T m n t (va / span n) ↔ Dead T m (n - d) g (va / span (n - d)) := by
  induction d generalizing n t with
  | zero =>
      rw [path_zero] at h
      cases h
      exact frees_self ht
  | succ d ih =>
      obtain _ | n := n
      · cases h
      obtain ⟨x, hx, hp⟩ := path_succ h
      rw [frees_child ht hx (path_foot hp), block_index rfl, ih (ht.child True.intro hx) hp,
        Nat.add_sub_add_right]

/-- What hangs in a slot of a table on a path. -/
theorem path_child {d n' : Nat} {g : Frame} (h : m.path va n d t = some g) (hn : n = n' + 1 + d)
    (hx : m.heap g k = some x) : x.frame ∈ m.foot n Any t := by
  induction d generalizing n t with
  | zero =>
      rw [path_zero] at h
      cases h
      subst hn
      exact foot_child True.intro hx mem_foot_self
  | succ d ih =>
      obtain _ | n := n
      · cases h
      obtain ⟨y, hy, hp⟩ := path_succ h
      exact foot_child True.intro hy (ih hp (by omega))

theorem path_child_frees {d n' : Nat} {g : Frame} (ht : Tree Entry.frame m.heap n Any t)
    (h : m.path va n d t = some g) (hn : n = n' + 1 + d) (hx : m.heap g k = some x) :
    x.frame ∈ frees T m n t (va / span n) ↔
      Dead T m n' x.frame (va / span (n' + 1) * 512 + k) := by
  induction d generalizing n t with
  | zero =>
      rw [path_zero] at h
      cases h
      subst hn
      rw [frees_child ht hx mem_foot_self, frees_self (ht.child True.intro hx)]
  | succ d ih =>
      obtain _ | n := n
      · cases h
      obtain ⟨y, hy, hp⟩ := path_succ h
      have hn : n = n' + 1 + d := by omega
      rw [frees_child ht hy (path_child hp hn hx), block_index rfl,
        ih (ht.child True.intro hy) hp hn]

/-- Each frame of a tree lies on the path of some address of its block. -/
theorem exists_path {g : Frame} (h : g ∈ m.foot n Any t) (b : Nat) :
    ∃ va d, va / span n = b ∧ d ≤ n ∧ m.path va n d t = some g := by
  induction n generalizing t b with
  | zero =>
      cases h
      exact ⟨b * span 0, 0, Nat.mul_div_cancel _ (span_pos 0), Nat.le_refl 0, path_zero⟩
  | succ n ih =>
      obtain rfl | ⟨k, x, -, hx, hg⟩ := h
      · exact ⟨b * span (n + 1), 0, Nat.mul_div_cancel _ (span_pos _), Nat.zero_le _, path_zero⟩
      · obtain ⟨va, d, hva, hd, hp⟩ := ih hg (b * 512 + k)
        refine ⟨va, d + 1, ?_, Nat.succ_le_succ hd, ?_⟩
        · rw [div_span_succ, hva, child_div]
        · rw [Mem.path, next_eq, index_of_div hva, hx]
          exact hp

theorem path_entryFor {e : Entry} (h : m.entryFor root va = some e) :
    m.path va 4 4 root = some e.frame := by
  have hentry : ∀ t, m.path va 1 1 t = (m.entry t va).map Entry.frame := by
    intro t
    rw [Mem.path, next_eq]
    unfold Mem.heap Mem.entry
    split
    · exact path_zero
    · rfl
  unfold Mem.entryFor at h
  obtain ⟨t₃, h₃, h⟩ := Option.bind_eq_some_iff.mp h
  obtain ⟨t₂, h₂, h⟩ := Option.bind_eq_some_iff.mp h
  obtain ⟨t₁, h₁, h⟩ := Option.bind_eq_some_iff.mp h
  simp only [Mem.path, h₃, h₂, Option.bind_some]
  rw [h₁, Option.bind_some]
  exact (hentry t₁).trans (by rw [h]; rfl)

theorem Swept.freed_slot {fs : List Frame} (h : Swept T A m m' n K t b l fs K)
    (ht : Tree Entry.frame m.heap (n + 1) K t) (hk : K k) (hx : m.heap t k = some x) {g : Frame}
    (hg : g ∈ m.foot n Any x.frame) : g ∈ fs ↔ g ∈ frees T m n x.frame (b * 512 + k) := by
  rw [h.freed]
  refine ⟨?_, fun hf => ⟨k, x, hk, hx, hf⟩⟩
  rintro ⟨k', x', hk', hx', hf⟩
  by_cases hkk : k = k'
  · subst hkk
    cases hx.symm.trans hx'
    exact hf
  · exact absurd (frees_subset hf) (ht.2 k k' x x' hk hk' hx hx' hkk g hg)

/-- What is on the path of a user address goes if it is dead. -/
theorem Swept.freed_path {fs : List Frame} {d : Nat} {g : Frame}
    (h : Swept T A m m' 3 UserHalf root 0 l fs UserHalf)
    (ht : Tree Entry.frame m.heap 4 UserHalf root) (hva : va < userEnd)
    (hp : m.path va 4 (d + 1) root = some g) :
    g ∈ fs ↔ Dead T m (3 - d) g (va / span (3 - d)) := by
  obtain ⟨x, hx, hp⟩ := path_succ hp
  have hk := userHalf_index hva
  rw [h.freed_slot ht hk hx (path_foot hp), block_index (div_span_four hva),
    path_frees (ht.child hk hx) hp]

/-- Of a table on a path, if its entries are zero or lead to what goes. -/
theorem Swept.freed_table {fs : List Frame} {d : Nat} {g : Frame}
    (h : Swept T A m m' 3 UserHalf root 0 l fs UserHalf)
    (ht : Tree Entry.frame m.heap 4 UserHalf root) (hva : va < userEnd) (hd : d < 3)
    (hp : m.path va 4 (d + 1) root = some g) :
    g ∈ fs ↔ T (3 - d) (va / span (3 - d)) ∧
      ∀ k, m.pages g k = 0 ∨ ∃ x, m.heap g k = some x ∧ x.frame ∈ fs := by
  obtain ⟨n, hn⟩ : ∃ n, 3 - d = n + 1 := ⟨2 - d, by omega⟩
  rw [h.freed_path ht hva hp, hn]
  refine and_congr_right fun _ => forall_congr' fun k => or_congr_right ?_
  refine exists_congr fun x => and_congr_right fun hx => ?_
  obtain ⟨y, hy, hp⟩ := path_succ hp
  have hk := userHalf_index hva
  have hn' : 3 = n + 1 + d := by omega
  rw [h.freed_slot ht hk hy (path_child hp hn' hx), block_index (div_span_four hva),
    path_child_frees (ht.child hk hy) hp hn' hx]

/-- What is left of the frames that are not freed. -/
theorem Swept.left_pages {fs : List Frame} {g : Frame} (h : Swept T A m m' n K t b l fs K)
    (ht : Tree Entry.frame m.heap (n + 1) K t) (hg : g ∉ fs) :
    (g ∈ m.nodes (n + 1) K t → ∀ k, (g = t → K k) → (∃ x, m.heap g k = some x ∧ x.frame ∈ fs) →
      m'.pages g k = 0) ∧
    ∀ k, (g ∈ m.nodes (n + 1) K t → (g = t → K k) → ¬∃ x, m.heap g k = some x ∧ x.frame ∈ fs) →
      m'.pages g k = m.pages g k := by
  by_cases hgt : g = t
  · subst hgt
    have hdead : ∀ k, K k → ((∃ x, m.heap g k = some x ∧ x.frame ∈ fs) ↔ DeadAt T m n g b k) := by
      intro k hk
      refine exists_congr fun x => and_congr_right fun hx => ?_
      rw [h.freed_slot ht hk hx mem_foot_self, frees_self (ht.child hk hx)]
    refine ⟨fun _ k hk hx => ?_, fun k hk => ?_⟩
    · exact (h.slots k (hk rfl)).1 ((hdead k (hk rfl)).mp hx)
    · by_cases hKk : K k
      · exact ((h.slots k hKk).2 fun hd =>
          hk (.inl rfl) (fun _ => hKk) ((hdead k hKk).mpr hd)).1
      · exact h.rest k hKk
  · by_cases hfoot : ∃ k x, K k ∧ m.heap t k = some x ∧ g ∈ m.foot n Any x.frame
    · obtain ⟨k₀, x, hk₀, hx, hgx⟩ := hfoot
      have hno : ¬DeadAt T m n t b k₀ := by
        rintro ⟨x', hx', hd⟩
        cases hx.symm.trans hx'
        exact hg ((h.freed_slot ht hk₀ hx hgx).mpr (hd.frees hgx))
      have hleft := (((h.slots k₀ hk₀).2 hno).2 x hx).pages (F := (· ∈ fs)) (ht.child hk₀ hx)
        (fun y hy => h.freed_slot ht hk₀ hx hy) hgx hg
      rw [ht.nodes_child hk₀ hx hgx]
      exact ⟨fun hn k _ hk => hleft.1 hn k hk, fun k hk => hleft.2 k fun hn =>
        hk hn fun ht' => absurd ht' hgt⟩
    · have hsame := h.side g hgt fun k hk ⟨x, hx, hgx⟩ => hfoot ⟨k, x, hk, hx, hgx⟩
      refine ⟨fun hn => ?_, fun k _ => by rw [hsame]⟩
      obtain rfl | ⟨k, x, hk, hx, hgx⟩ := hn
      · exact absurd rfl hgt
      · exact absurd ⟨k, x, hk, hx, nodes_subset_foot hgx⟩ hfoot

/-- The pages from `start` to `stop` have been removed from a table, and `fs`
are the frames that were freed: the pages of the range, and of the tables that
the range touches those all of whose entries were zero or led to what was
freed. Such entries are zero now in the tables that stay; nothing else changes. -/
structure Removed (m m' : Mem) (root : Frame) (start stop : Nat) (fs : List Frame) : Prop where
  view : ∀ va < userEnd, m'.entryFor root va =
    if start ≤ va ∧ va < stop then none else m.entryFor root va
  user : ∀ g ∈ fs, ∃ va < userEnd, ∃ d < 4, m.path va 4 (d + 1) root = some g
  pages : ∀ va < userEnd, ∀ e, m.entryFor root va = some e →
    (e.frame ∈ fs ↔ start ≤ va ∧ va < stop)
  tables : ∀ va < userEnd, ∀ d < 3, ∀ g, m.path va 4 (d + 1) root = some g →
    (g ∈ fs ↔ Touches start stop (3 - d) (va / span (3 - d)) ∧
      ∀ k, m.pages g k = 0 ∨ ∃ x, m.heap g k = some x ∧ x.frame ∈ fs)
  unlinked : ∀ g ∉ fs, g ∈ m.nodes 4 UserHalf root → ∀ k, (g = root → UserHalf k) →
    (∃ x, m.heap g k = some x ∧ x.frame ∈ fs) → m'.pages g k = 0
  rest : ∀ g ∉ fs, ∀ k, (g ∈ m.nodes 4 UserHalf root → (g = root → UserHalf k) →
    ¬∃ x, m.heap g k = some x ∧ x.frame ∈ fs) → m'.pages g k = m.pages g k

theorem Swept.removed {fs : List Frame} {start stop : Nat}
    (h : Swept (Touches start stop) A m m' 3 UserHalf root 0 l fs UserHalf)
    (ht : Tree Entry.frame m.heap 4 UserHalf root) (hstart : start % pageSize = 0)
    (hstop : stop % pageSize = 0) (hview : ∀ va < userEnd, m'.entryFor root va =
      if start ≤ va ∧ va < stop then none else m.entryFor root va) :
    Removed m m' root start stop fs where
  view := hview
  user := by
    intro g hg
    obtain ⟨k, x, hk, hx, hg⟩ := (h.freed g).mp hg
    obtain ⟨va, d, hva, hd, hp⟩ := exists_path (frees_subset hg) (0 * 512 + k)
    refine ⟨va, ?_, d, Nat.lt_succ_of_le hd, ?_⟩
    · have hspan : span 3 = 549755813888 := rfl
      have hk : k.val < 256 := hk
      rw [hspan] at hva
      simp only [userEnd]
      omega
    · rw [Mem.path, next_eq, index_of_div hva, hx]
      exact hp
  pages := by
    intro va hva e he
    rw [h.freed_path (d := 3) ht hva (path_entryFor he)]
    show Touches start stop 0 (va / span 0) ↔ _
    have hspan : span 0 = 4096 := rfl
    simp only [Touches, hspan]
    simp only [pageSize] at hstart hstop
    omega
  tables := fun va hva d hd g hp => h.freed_table ht hva hd hp
  unlinked := fun g hg hn k hk hx => (h.left_pages ht hg).1 hn k hk hx
  rest := fun g hg k hk => (h.left_pages ht hg).2 k hk

/-- The loops return. -/
theorem awake_freeUserPages (root : Frame) (start stop : Nat) : Awake (freeUserPages root start stop) := by
  have hfree : ∀ page, Awake (free page) := fun _ => Awake.modify
  have hset : ∀ t k e, Awake (setEntry t k e) := fun _ _ _ => Awake.modify
  have hpage : ∀ t va, Awake (freePage t va) := fun t va =>
    Awake.gets fun e => .ite ((hfree _).bind fun _ => hset _ _ _) .pure
  have htable : ∀ (inner : Frame → Nat → Nat → VmM Unit), (∀ t a b, Awake (inner t a b)) →
      ∀ lvl t a b va, Awake (freeTable inner lvl t a b va) := fun inner hin lvl t a b va =>
    Awake.gets fun e => .ite ((hin _ _ _).bind fun _ => Awake.gets fun _ =>
      .ite ((hfree _).bind fun _ => hset _ _ _) .pure) .pure
  have h₁ : ∀ t a b, Awake (freeUserPages₁ t a b) := fun t a b =>
    .ite (.assert (.assert (.assert (.each (hpage t))))) .pure
  have h₂ : ∀ t a b, Awake (freeUserPages₂ t a b) := fun t a b =>
    .ite (.assert (.assert (.assert (.each (htable _ h₁ 1 t a b))))) .pure
  have h₃ : ∀ t a b, Awake (freeUserPages₃ t a b) := fun t a b =>
    .ite (.assert (.assert (.assert (.each (htable _ h₂ 2 t a b))))) .pure
  exact .ite (.each (htable _ h₃ 3 root _ _)) .pure

/-- **`free_user_pages` removes exactly its range**: no assertion fails, the
frames that are freed go to the free list once each, and what is still in use
stays. -/
theorem freeUserPages_exact {start stop : Nat} (h : OwnTable A m root l) (hlt : start < stop)
    (hend : stop ≤ userEnd) :
    ∃ m' fs, freeUserPages root start stop env m = .ok () m' ∧ OwnTable A m' root (fs ++ l) ∧
      Removed m m' root (pageRoundUp start) (pageRoundUp stop) fs := by
  have hsat : Sat (freeUserPages root start stop env m) _ _ _ := freeUserPages_swept h hlt hend
  obtain ⟨⟨⟩, m', heq, fs, hswept⟩ := hsat.returns (awake_freeUserPages root start stop env m)
  obtain ⟨-, -, -, hview⟩ := (freeUserPages_spec h hend).of_ok heq
  exact ⟨m', fs, heq, hswept.own, hswept.removed h.tree (pageRoundUp_mod start)
    (pageRoundUp_mod stop) hview⟩

/-- A table with one page, the first one, and nothing else in memory. -/
def stair : Mem where
  pages f k := if k.val = 0 ∧ f.toNat < 4 then
    Entry.new (physAddr (f + 1)) ((PageFlags.present.union .user).union .write) else 0
  freeList := none
  allocs := 0

theorem stair_heap (h : stair.heap f k = some x) :
    k.val = 0 ∧ f.toNat < 4 ∧ x.frame.toNat = f.toNat + 1 := by
  have hpres := isPresent_of_heap h
  rw [← pages_of_heap h] at hpres ⊢
  unfold stair at hpres ⊢
  by_cases hc : k.val = 0 ∧ f.toNat < 4
  · obtain ⟨hk, hf⟩ := hc
    simp only [hk, hf, and_self, if_true, Entry.frame_new, true_and]
    bv_omega
  · simp only [hc, if_false, Entry.isPresent_zero, Bool.false_eq_true] at hpres

theorem stair_foot {g : Frame} (h : g ∈ stair.foot n K f) : f.toNat ≤ g.toNat := by
  induction n generalizing K f with
  | zero =>
      cases h
      exact Nat.le_refl _
  | succ n ih =>
      obtain rfl | ⟨k, x, -, hx, hg⟩ := h
      · exact Nat.le_refl _
      · have := ih hg
        have := (stair_heap hx).2.2
        omega

theorem stair_tree : Tree Entry.frame stair.heap n K f := by
  induction n generalizing K f with
  | zero => exact True.intro
  | succ n ih =>
      refine ⟨fun k x _ hx => ⟨fun hf => ?_, ih⟩, fun k k' x x' _ _ hx hx' hne => ?_⟩
      · have := stair_foot hf
        have := (stair_heap hx).2.2
        omega
      · exact absurd (Fin.ext ((stair_heap hx).1.trans (stair_heap hx').1.symm)) hne

theorem stair_own : OwnTable Set.univ stair 0 [] :=
  ⟨⟨rfl, List.nodup_nil, fun g hg => (by cases hg)⟩, stair_tree, fun _ _ => True.intro,
    fun g _ hg => (by cases hg)⟩

theorem freeUserPages_exact_stair : ∃ m' fs,
    freeUserPages 0 0 1 ⟨fun _ => false⟩ stair = .ok () m' ∧ OwnTable Set.univ m' 0 (fs ++ []) ∧
      Removed stair m' 0 (pageRoundUp 0) (pageRoundUp 1) fs :=
  freeUserPages_exact stair_own (by decide) (by decide)

end Rxv64.Vm
