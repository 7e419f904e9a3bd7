import Rxv64.Vm.Fork

/-!
# Vm.Growth — what a refused growth leaves behind

`alloc_user` of `kernel/src/vm.rs` asks for a page, then for the tables that are
missing on its path, then for the next page. A growth is undone by freeing the
range that was asked for. That finds all that hangs in the table; it does not
find a page in hand for which there was no table, and it takes more than was
given when the range reaches the stack.
-/

namespace Rxv64.Vm

open Radix

variable {A : Set Frame} {T : Nat → Nat → Prop} {m m₁ m' : Mem} {n b c c' : Nat} {K : Fin 512 → Prop}
  {t root page g : Frame} {l l' us : List Frame} {va v size oldSize newSize : Nat} {e : Entry}
  {env : Env} {E : String → Mem → Prop} {X : String → Prop} {flags : PageFlags}

/-! ## Tables of a process -/

/-- A table whose entries are zero or present and in which no table is empty. -/
structure Tidy (A : Set Frame) (m : Mem) (root : Frame) (l : List Frame) : Prop where
  own : OwnTable A m root l
  clean : Clean m 3 UserHalf root 0
  full : ∀ g ∈ m.nodes 4 UserHalf root, g ≠ root → ∃ k x, m.heap g k = some x

/-- A table as processes have it, with the heap and the stack mapped. -/
structure ProcTable (A : Set Frame) (m : Mem) (root : Frame) (l : List Frame) (size : Nat) : Prop
    extends Tidy A m root l where
  mapped : ∀ v < userEnd, (∃ e, m.entryFor root v = some e) ↔ v < pageRoundUp size ∨ userStack ≤ v

/-- What is freed in a tree without empty tables is there because of some page. -/
theorem frees_leaf (hfull : ∀ g ∈ m.nodes n Any t, ∃ k x, m.heap g k = some x)
    (hg : g ∈ frees T m n t b) :
    ∃ va leaf, va / span n = b ∧ T 0 (va / span 0) ∧ m.path va n n t = some leaf := by
  induction n generalizing t b g with
  | zero => exact ⟨b * span 0, t, Nat.mul_div_cancel _ (span_pos 0), by
      rw [Nat.mul_div_cancel _ (span_pos 0)]
      exact hg.2, rfl⟩
  | succ n ih =>
      -- a table that goes has a page below it that goes
      obtain ⟨k, x, hx, g', hg'⟩ : ∃ k x, m.heap t k = some x ∧
          ∃ g', g' ∈ frees T m n x.frame (b * 512 + k) := by
        obtain ⟨-, hd⟩ | ⟨k, x, hx, hg⟩ := hg
        · obtain ⟨k, x, hx⟩ := hfull t (.inl rfl)
          refine ⟨k, x, hx, x.frame, ?_⟩
          rcases hd.2 k with hz | ⟨x', hx', hd⟩
          · rw [Mem.heap, hz, Entry.isPresent_zero] at hx
            cases hx
          · cases hx.symm.trans hx'
            exact hd.frees mem_foot_self
        · exact ⟨k, x, hx, g, hg⟩
      obtain ⟨va, leaf, hva, hT, hp⟩ :=
        ih (fun y hy => hfull y (.inr ⟨k, x, True.intro, hx, hy⟩)) hg'
      refine ⟨va, leaf, ?_, hT, ?_⟩
      · rw [div_span_succ, hva, child_div]
      · rw [Mem.path, next_eq, index_of_div hva, hx]
        exact hp

/-- A path to the end is a mapping. -/
theorem entryFor_of_path {leaf : Frame} (h : m.path va 4 4 root = some leaf) :
    ∃ e, m.entryFor root va = some e := by
  obtain ⟨x₃, h₃, h⟩ := path_succ h
  obtain ⟨x₂, h₂, h⟩ := path_succ h
  obtain ⟨x₁, h₁, h⟩ := path_succ h
  obtain ⟨x₀, h₀, -⟩ := path_succ h
  exact ⟨x₀, by rw [entryFor_eq_view, view_child h₃, view_child h₂, view_child h₁, view_one, h₀]⟩

/-- Nothing of the table belongs to the gap below the stack alone. -/
theorem ProcTable.gap (h : ProcTable A m root l size)
    (hnew : pageRoundUp newSize ≤ userStack) (g : Frame) :
    g ∉ freesIn (Touches (pageRoundUp size) (pageRoundUp newSize)) m 3 UserHalf root 0 := by
  rintro ⟨k, hk, x, hx, hg⟩
  have hfull : ∀ g ∈ m.nodes 3 Any x.frame, ∃ k x, m.heap g k = some x := by
    intro g hg
    refine h.full g (.inr ⟨k, x, hk, hx, hg⟩) ?_
    rintro rfl
    exact (h.own.tree.1 k x hk hx).1 (nodes_subset_foot hg)
  obtain ⟨va, leaf, hva, ⟨-, hlo, hhi⟩, hp⟩ := frees_leaf hfull hg
  have hspan : span 0 = 4096 := rfl
  have h₁ := pageRoundUp_mod size
  have h₂ := pageRoundUp_mod newSize
  simp only [hspan, pageSize] at hlo hhi h₁ h₂
  have hend : va < userEnd := by
    simp only [userStack, userEnd] at hnew ⊢
    omega
  obtain ⟨e, he⟩ : ∃ e, m.entryFor root va = some e := by
    have hpath : m.path va 4 4 root = some leaf := by
      rw [Mem.path, next_eq, index_of_div hva, hx]
      exact hp
    exact entryFor_of_path hpath
  have hmapped := (h.mapped va hend).mp ⟨e, he⟩
  omega

/-! ## Tables in use stay in use -/

/-- `map_to` writes into slots that are empty. -/
theorem mapIn_keeps (n : Nat) :
    ∀ {m : Mem} {K : Fin 512 → Prop} {t : Frame} {l : List Frame} {b : Nat},
      Own A m (n + 1) K t l → K (index n va) → Clean m n K t b → va / span (n + 1) = b →
      m.view (n + 1) t va = none →
      Sat (mapIn e n t va env m)
        (fun _ m' => ∀ g k x, g ∉ l → m.heap g k = some x → m'.heap g k = some x) E X := by
  induction n with
  | zero =>
      intro m K t l b _ _ _ _ hview
      refine Sat.modify (Sat.pure fun g k x _ hx => ?_)
      have hview : m.heap t (index 0 va) = none := hview
      by_cases hgt : g = t
      · subst hgt
        rw [heap_setEntry k e fun hk => ?_, hx]
        rw [hk, hview] at hx
        cases hx
      · rw [heap_eq (setEntry_pages hgt), hx]
  | succ n ih =>
      intro m K t l b h hk hclean hb hview
      refine Sat.seq (nextMut_exact h hk hclean hb) fun r m₁ hr => ?_
      cases r with
      | none =>
          obtain ⟨-, -, hpages, -⟩ := hr
          refine Sat.pure fun g k x _ hx => ?_
          rw [heap_eq (congrFun hpages g), hx]
      | some t' =>
          obtain ⟨y, hself, rfl, ⟨rfl, hy⟩ | ⟨hnone, -, hzero, htop, hside, l₁, hown, hgrows⟩⟩ := hr
          · -- the next table is there
            have hin := h.enter (B := A) hk hy h.pool.mem fun g hg => h.sub g (foot_child hk hy hg)
            have hcl := hclean.child hk hy
            rw [block_index hb] at hcl
            rw [view_child hy] at hview
            exact ih hin True.intro hcl rfl hview
          · -- it has just been made
            have hlist := (hgrows (fun _ _ => True) True.intro).list
            have hcl₁ : Clean m₁ (n + 1) K t b :=
              (hgrows (fun _ _ => True) True.intro).bare.mpr hclean
            have hin := hown.enter (B := A) hk hself hown.pool.mem
              fun g hg => hown.sub g (foot_child hk hself hg)
            have hcl := hcl₁.child hk hself
            rw [block_index hb] at hcl
            refine (ih hin True.intro hcl rfl (view_empty (heap_zero hzero) va)).imp ?_
              (fun _ _ he => he) (fun _ hx => hx)
            intro _ m₂ hkeep g k x hg hx
            rw [hlist] at hg
            refine hkeep g k x (fun hgl => hg (List.mem_cons_of_mem _ hgl)) ?_
            by_cases hgt : g = t
            · subst hgt
              have hne : k ≠ index (n + 1) va := by
                rintro rfl
                rw [hnone] at hx
                cases hx
              have hpage := htop k hne
              simpa only [Mem.heap, hpage] using hx
            · have hgy : g ≠ y.frame := by
                rintro rfl
                exact hg List.mem_cons_self
              rw [heap_eq (hside g hgt hgy), hx]

/-- The blocks that an address lies in. -/
def Around (va n b : Nat) : Prop := b = va / span n

theorem nested_around (va : Nat) : Nested (Around va) := by
  intro n b hb
  have hb : b = va / span n := hb
  rw [Around, div_span_succ, hb]

/-- The tables on the path of an address that is mapped are not empty. -/
theorem frees_around (hview : n = 0 ∨ ∃ e, m.view n t va = some e)
    (hg : g ∈ frees (Around va) m n t b) (hn : g ∈ m.nodes n Any t)
    (ht : Tree Entry.frame m.heap n Any t) (hb : b = va / span n) :
    ∃ k x, m.heap g k = some x := by
  induction n generalizing t b with
  | zero => exact absurd hn (Set.notMem_empty g)
  | succ n ih =>
      obtain ⟨e, he⟩ := hview.resolve_left (Nat.succ_ne_zero n)
      cases hx : m.heap t (index n va) with
      | none =>
          rw [view_none hx] at he
          cases he
      | some x =>
          obtain ⟨rfl, -⟩ | ⟨k, y, hy, hg⟩ := hg
          · exact ⟨_, x, hx⟩
          · -- other slots are not on the path
            have hk : b * 512 + k = va / span n := by
              by_contra hne
              exact (nested_around va).frees_empty (T := Around va) hne hg
            have hidx : index n va = k := index_of_div hk.symm
            rw [hidx] at hx
            cases hx.symm.trans hy
            have hchild := ht.child True.intro hy
            refine ih ?_ hg ((ht.nodes_child True.intro hy (frees_subset hg)).mp hn) hchild hk
            cases n with
            | zero => exact .inl rfl
            | succ n =>
                rw [view_child (by rw [hidx]; exact hy)] at he
                exact .inr ⟨e, he⟩

/-- Mapping a page leaves no table empty. -/
theorem MapRun.full (h : OwnTable A m root l)
    (hfull : ∀ g ∈ m.nodes 4 UserHalf root, g ≠ root → ∃ k x, m.heap g k = some x)
    (hrun : MapRun A env m m' 3 UserHalf root 0 l l' us e va true)
    (hkeep : ∀ g k x, g ∉ l → m.heap g k = some x → m'.heap g k = some x)
    (hview : m'.entryFor root va = some e) :
    ∀ g ∈ m'.nodes 4 UserHalf root, g ≠ root → ∃ k x, m'.heap g k = some x := by
  intro g hg hne
  have hgrow := hrun.grows (Around va) fun _ _ => rfl
  rcases hgrow.nodes g hg with hold | hus
  · obtain ⟨k, x, hx⟩ := hfull g hold hne
    exact ⟨k, x, hkeep g k x (h.apart g (nodes_subset_foot hold)) hx⟩
  · obtain ⟨k, hk, x, hx, hgf⟩ := (hgrow.frees g).mpr (.inr (.inl hus))
    have hpath : 0 * 512 + k.val = va / span 3 := by
      by_contra hne
      exact (nested_around va).frees_empty (T := Around va) hne hgf
    have hidx : index 3 va = k := index_of_div hpath.symm
    rw [entryFor_eq_view, view_child (by rw [hidx]; exact hx)] at hview
    exact frees_around (.inr ⟨e, hview⟩) hgf
      ((hrun.own.tree.nodes_child hk hx (frees_subset hgf)).mp hg) (hrun.own.tree.child hk hx) hpath

theorem mapTo_keeps {pa : BitVec 64} (h : OwnTable A m root l) (hva : va < userEnd)
    (hclean : Clean m 3 UserHalf root 0) (hnone : m.entryFor root va = none) :
    Sat (mapTo root pa va flags env m)
      (fun _ m' => ∀ g k x, g ∉ l → m.heap g k = some x → m'.heap g k = some x)
      (fun _ _ => True) X := by
  rw [entryFor_eq_view] at hnone
  refine Sat.seq (mapIn_keeps 3 h (userHalf_index hva) hclean (div_span_four hva) hnone)
    fun ok m' hm => ?_
  cases ok with
  | true => exact Sat.pure hm
  | false => exact ⟨True.intro⟩

/-! ## What is asked for -/

/-- What a page of the free list is wanted for. -/
inductive Want where
  | page
  | table

/-- What a growth by the pages `vas` asks for, in this order; `miss` says how
many tables are missing on the path of an address. -/
def wants (miss : Nat → Nat) : List Nat → List Want
  | [] => []
  | va :: vas => .page :: (List.replicate (miss va) .table ++
      wants (fun v => min (miss v) (apart va v 3)) vas)

/-- The first `c` requests are granted, and the next one is not. -/
def Refused (env : Env) (m : Mem) (l : List Frame) (c : Nat) : Prop :=
  (∀ i < c, env.deny (m.allocs + i) = false) ∧ c ≤ l.length ∧
    (env.deny (m.allocs + c) = true ∨ l.length = c)

theorem Refused.le (h : Refused env m l c) (h' : Refused env m l c') : c' ≤ c := by
  by_contra hlt
  rcases h.2.2 with hd | hl
  · rw [h'.1 c (Nat.not_le.mp hlt)] at hd
    cases hd
  · have := h'.2.1
    omega

theorem Refused.unique (h : Refused env m l c) (h' : Refused env m l c') : c = c' :=
  Nat.le_antisymm (h'.le h) (h.le h')

/-- After some that were granted. -/
theorem Refused.after (gs : List Frame) (h : Refused env m' l' c) (hlist : l = gs ++ l')
    (hallocs : m'.allocs = m.allocs + gs.length)
    (hgranted : ∀ i < gs.length, env.deny (m.allocs + i) = false) :
    Refused env m l (gs.length + c) := by
  obtain ⟨hlow, hle, hwhy⟩ := h
  rw [hallocs] at hlow hwhy
  refine ⟨fun i hi => ?_, ?_, ?_⟩
  · by_cases hlt : i < gs.length
    · exact hgranted i hlt
    · have := hlow (i - gs.length) (by omega)
      rwa [show m.allocs + gs.length + (i - gs.length) = m.allocs + i by omega] at this
  · rw [hlist, List.length_append]
    omega
  · rw [hlist, List.length_append, ← Nat.add_assoc]
    exact hwhy.imp_right fun hl => by omega

/-! ## The rollback -/

theorem rollback_exact (h : OwnTable A m root l) (hlt : oldSize < newSize) (hend : newSize ≤ userEnd) :
    Sat (rollback root oldSize newSize env m)
      (fun _ m' => ∃ l', OwnTable A m' root l' ∧ ∀ g, g ∈ l' ↔ g ∈ l ∨
        g ∈ freesIn (Touches (pageRoundUp oldSize) (pageRoundUp newSize)) m 3 UserHalf root 0)
      (fun _ _ => False) (fun _ => False) := by
  have hdealloc : Sat (deallocUser root newSize oldSize env m)
      (fun _ m' => ∃ l', OwnTable A m' root l' ∧ ∀ g, g ∈ l' ↔ g ∈ l ∨
        g ∈ freesIn (Touches (pageRoundUp oldSize) (pageRoundUp newSize)) m 3 UserHalf root 0)
      (fun _ _ => False) (fun _ => False) := by
    refine Sat.ite (fun hle => absurd hlt (Nat.not_lt.mpr hle)) fun _ => ?_
    refine Sat.seq (freeUserPages_swept h hlt hend) fun _ m' hm => Sat.pure ?_
    obtain ⟨fs, hsw⟩ := hm
    refine ⟨fs ++ l, hsw.own, fun g => ?_⟩
    rw [List.mem_append, or_comm, hsw.freed]
    refine or_congr_right (exists_congr fun k => ?_)
    exact ⟨fun ⟨x, hk, hx, hg⟩ => ⟨hk, x, hx, hg⟩, fun ⟨hk, x, hx, hg⟩ => ⟨x, hk, hx, hg⟩⟩
  exact Sat.seq (hdealloc.expect fun _ _ he => he) fun _ _ hm => Sat.pure hm

/-! ## The loop -/

/-- A page has been taken from the list. -/
theorem Tidy.fetched (h : Tidy A m root l) (hg : Fetched A m m₁ 4 UserHalf root l page l') :
    Tidy A m₁ root l' := by
  refine ⟨hg.own, (freesIn_congr hg.nodes).2.mpr h.clean, fun g hgn hne => ?_⟩
  have hnodes : m₁.nodes 4 UserHalf root = m.nodes 4 UserHalf root := nodes_frame hg.nodes
  rw [hnodes] at hgn
  rw [heap_eq (hg.nodes g hgn)]
  exact h.full g hgn hne

/-- `map_to` of the page in hand. -/
theorem Tidy.mapTo (h : Tidy A m root l) (hva : va < userEnd) (hA : page ∈ A) (hl : page ∉ l)
    (hf : page ∉ m.foot 4 UserHalf root) (hnone : m.entryFor root va = none) :
    Sat (Vm.mapTo root (physAddr page) va flags env m)
      (fun _ m' => ∃ l' us, MapRun A env m m' 3 UserHalf root 0 l l' us
          (Entry.new (physAddr page) flags).enable va true ∧ Tidy A m' root l' ∧
        ∀ v, v < userEnd → v / pageSize ≠ va / pageSize → m'.entryFor root v = m.entryFor root v)
      (fun _ m' => ∃ l' us, MapRun A env m m' 3 UserHalf root 0 l l' us
          (Entry.new (physAddr page) flags).enable va false ∧
        page ∉ m'.foot 4 UserHalf root) X := by
  have hexact : Sat (Vm.mapTo root (physAddr page) va flags env m) _ _ X :=
    mapTo_exact h.own hva h.clean hA hl hf hnone
  have huser : Sat (Vm.mapTo root (physAddr page) va flags env m) _ _ X :=
    mapTo_user h.own hva hA hl hf
  have hkeep : Sat (Vm.mapTo root (physAddr page) va flags env m) _ _ (fun _ => True) :=
    mapTo_keeps h.own hva h.clean hnone
  refine ((hexact.and huser).also hkeep).imp ?_ ?_ (fun _ hx => hx.1)
  · rintro - m' ⟨⟨⟨l', us, hm⟩, -, -, -, -, hview⟩, hkeep⟩
    have hmapped := hview va hva
    rw [if_pos rfl] at hmapped
    have hgrow := hm.grows (fun _ _ => True) fun _ _ => True.intro
    refine ⟨l', us, hm, ⟨hm.own, hgrow.bare.mpr h.clean, hm.full h.own h.full hkeep hmapped⟩,
      fun v hv hne => ?_⟩
    rw [hview v hv, if_neg hne]
  · rintro - m' ⟨⟨l', us, hm⟩, -, -, -, -, hout, -⟩
    exact ⟨l', us, hm, hout⟩

/-- The range of a growth touches the blocks of its addresses. -/
theorem touches_mem {start stop : Nat} (hlo : start ≤ va) (hhi : va < stop) (n : Nat) :
    Touches start stop n (va / span n) :=
  ⟨fun _ => Nat.lt_of_le_of_lt hlo hhi, Nat.div_le_div_right hlo,
    Nat.lt_of_le_of_lt (Nat.div_mul_le_self ..) hhi⟩

/-- How a growth ends that is refused: if it was refused a page, with the free pages of before
and what a sweep of the range would have freed anyway; if a table, with one page less. -/
def Short (A : Set Frame) (T : Nat → Nat → Prop) (env : Env) (m m' : Mem) (root : Frame)
    (l : List Frame) (ws : List Want) : Prop :=
  ∃ c l', OwnTable A m' root l' ∧ Refused env m l c ∧
    ((ws[c]? = some .page ∧ ∀ g, g ∈ l' ↔ g ∈ l ∨ g ∈ freesIn T m 3 UserHalf root 0) ∨
      (ws[c]? = some .table ∧ ∃ page ∈ l, page ∉ l'))

section Short

variable {miss : Nat → Nat} {vas : List Nat} {ws ws' : List Want} {gs : List Frame} {m₂ : Mem}
  {l₁ l₂ : List Frame}

/-- The table is refused, and then the page is in nobody's hands. -/
theorem Short.table (hg : Fetched A m m₁ 4 UserHalf root l page l₁)
    (hcount : m₁.allocs = m.allocs + 1) (hgranted : env.deny m.allocs = false)
    (hrun : MapRun A env m₁ m₂ 3 UserHalf root 0 l₁ l₂ us e va false)
    (hT : ∀ j ≤ 3, T j (va / span j)) (hout : page ∉ m₂.foot 4 UserHalf root)
    (hown : OwnTable A m' root l')
    (hback : ∀ g, g ∈ l' ↔ g ∈ l₂ ∨ g ∈ freesIn T m₂ 3 UserHalf root 0) :
    Short A T env m m' root l
      (.page :: (List.replicate (m₁.missing va 3 root) .table ++ ws)) := by
  have hgrow := hrun.grows T hT
  obtain ⟨hshort, hwhy⟩ := hrun.short rfl
  have hrefused : Refused env m₁ l₁ us.length := by
    refine ⟨hgrow.granted, ?_, hwhy.imp_right fun hl => ?_⟩
    · rw [hgrow.list, List.length_append]
      exact Nat.le_add_right ..
    · rw [hgrow.list, hl, List.append_nil]
  refine ⟨1 + us.length, l', hown, hrefused.after [page] hg.list hcount fun i hi => ?_,
    .inr ⟨?_, page, ?_, fun hin => ?_⟩⟩
  · obtain rfl : i = 0 := by simpa using hi
    exact hgranted
  · rw [Nat.add_comm, List.getElem?_cons_succ, List.getElem?_append_left (by simpa),
      List.getElem?_replicate, if_pos hshort]
  · rw [hg.list]
    exact List.mem_cons_self
  · rcases (hback page).mp hin with hin | hin
    · refine hg.notMem ?_
      rw [hgrow.list]
      exact List.mem_append_right _ hin
    · obtain ⟨k, hk, x, hx, hin⟩ := hin
      exact hout (foot_child hk hx (frees_subset hin))

/-- Requests that were granted before. -/
theorem Short.after (gs : List Frame) (h : Short A T env m₂ m' root l₂ ws) (hlist : l = gs ++ l₂)
    (hallocs : m₂.allocs = m.allocs + gs.length)
    (hgranted : ∀ i < gs.length, env.deny (m.allocs + i) = false)
    (hfrees : ∀ g, g ∈ freesIn T m₂ 3 UserHalf root 0 ↔
      g ∈ freesIn T m 3 UserHalf root 0 ∨ g ∈ gs) (hws : ws'.length = gs.length) :
    Short A T env m m' root l (ws' ++ ws) := by
  obtain ⟨c, l', hown, hrefused, hwhat⟩ := h
  have hskip : (ws' ++ ws)[gs.length + c]? = ws[c]? := by
    rw [List.getElem?_append_right (by omega), hws, Nat.add_sub_cancel_left]
  refine ⟨gs.length + c, l', hown, hrefused.after gs hlist hallocs hgranted, ?_⟩
  rw [hskip]
  refine hwhat.imp (fun hback => ⟨hback.1, fun g => ?_⟩) fun hlost => ⟨hlost.1, ?_⟩
  · rw [hback.2 g, hfrees, hlist, List.mem_append]
    tauto
  · obtain ⟨lost, hin, hout⟩ := hlost.2
    refine ⟨lost, ?_, hout⟩
    rw [hlist]
    exact List.mem_append_right _ hin

end Short

/-- The loop of `alloc_user`. -/
theorem allocPages_exact (hlt : oldSize < newSize) (hend : newSize ≤ userEnd) {vas : List Nat}
    (hvas : ∀ v ∈ vas, v % pageSize = 0 ∧ pageRoundUp oldSize ≤ v ∧ v < pageRoundUp newSize)
    (hnodup : vas.Nodup) :
    ∀ {m : Mem} {l : List Frame} {miss : Nat → Nat}, Tidy A m root l →
      (∀ v ∈ vas, m.entryFor root v = none) → (∀ v < userEnd, m.missing v 3 root = miss v) →
      Sat (allocPages root oldSize newSize flags vas env m) (fun _ m' => ∃ l', Tidy A m' root l')
        (fun _ m' => Short A (Touches (pageRoundUp oldSize) (pageRoundUp newSize)) env m m' root l
          (wants miss vas))
        (fun _ => False) := by
  generalize hT : Touches (pageRoundUp oldSize) (pageRoundUp newSize) = T
  induction vas with
  | nil => exact fun h _ _ => Sat.pure ⟨_, h⟩
  | cons va vas ih =>
      intro m l miss h hnone hmiss
      obtain ⟨hmod, hlo, hhi⟩ := hvas va List.mem_cons_self
      obtain ⟨hnot, hnodup⟩ := List.nodup_cons.mp hnodup
      have hin : ∀ v ∈ va :: vas, v < userEnd := fun v hv =>
        Nat.lt_of_lt_of_le (hvas v hv).2.2 (pageRoundUp_userEnd hend)
      have hva := hin va List.mem_cons_self
      refine Sat.seq (h.own.alloc.also h.own.pool.alloc_count) fun r m₁ hr => ?_
      obtain ⟨hr, hcount, hwhy⟩ := hr
      cases r with
      | none =>
          obtain ⟨hown, hpages⟩ := hr
          refine Sat.bind (rollback_exact hown hlt hend) (fun _ _ hf => hf.elim) fun _ m₂ hm₂ => ⟨?_⟩
          obtain ⟨l₂, hown₂, hlist⟩ := hm₂
          have hsame : freesIn T m₁ 3 UserHalf root 0 = freesIn T m 3 UserHalf root 0 :=
            (freesIn_congr fun g _ => by rw [hpages]).1
          refine ⟨0, l₂, hown₂, ⟨fun i hi => absurd hi (Nat.not_lt_zero i), Nat.zero_le _,
            hwhy.imp_right fun hl => by rw [hl]; rfl⟩, .inl ⟨rfl, fun g => ?_⟩⟩
          rw [hlist, hT, hsame]
      | some page =>
          obtain ⟨l₁, hg⟩ := hr
          have hgranted := hwhy.1
          have hview₁ : ∀ v ∈ va :: vas, m₁.entryFor root v = none := fun v hv => by
            rw [entryFor_congr hg.nodes (hin v hv), hnone v hv]
          have hmiss₁ : ∀ v < userEnd, m₁.missing v 3 root = miss v := fun v hv => by
            rw [missing_congr hg.nodes (userHalf_index hv), hmiss v hv]
          have htouch : ∀ j ≤ 3, T j (va / span j) := fun j _ => hT ▸ touches_mem hlo hhi j
          refine Sat.seq (Sat.onErr ((h.fetched hg).mapTo hva hg.mem hg.notMem hg.out
            (hview₁ va List.mem_cons_self)) ?_) ?_
          · rintro _ m₂ ⟨l₂, us, hrun, hout⟩
            refine (rollback_exact hrun.own hlt hend).imp (fun _ m₃ hm₃ => ?_) (fun _ _ hf => hf.elim)
              (fun _ hx => hx)
            obtain ⟨l₃, hown₃, hlist⟩ := hm₃
            rw [hT] at hlist
            rw [wants, ← hmiss₁ va hva]
            exact .table hg hcount hgranted hrun htouch hout hown₃ hlist
          · rintro - m₂ ⟨l₂, us, hrun, htidy, hview₂⟩
            have hgrow := hrun.grows T htouch
            have hlen : us.length = miss va := by rw [hrun.enough rfl, hmiss₁ va hva]
            have hpage : ∀ v ∈ vas, v / pageSize ≠ va / pageSize := by
              intro v hv heq
              have hmod' := (hvas v (List.mem_cons_of_mem va hv)).1
              have : v = va := by
                simp only [pageSize] at hmod hmod' heq
                omega
              exact hnot (this ▸ hv)
            have hmiss₂ : ∀ v < userEnd, m₂.missing v 3 root = min (miss v) (apart va v 3) := by
              intro v hv
              rw [hrun.missing rfl v (div_span_four hv) (userHalf_index hv), hmiss₁ v hv]
            refine (ih (fun v hv => hvas v (List.mem_cons_of_mem va hv)) hnodup htidy
              (fun v hv => ?_) hmiss₂).imp (fun _ _ hq => hq) (fun _ m₃ hm₃ => ?_) (fun _ hx => hx)
            · have hv' := List.mem_cons_of_mem va hv
              rw [hview₂ v (hin v hv') (hpage v hv), hview₁ v hv']
            · rw [wants, ← List.cons_append]
              refine hm₃.after (page :: us) ?_ ?_ (fun i hi => ?_) (fun g => ?_) ?_
              · rw [hg.list, hgrow.list, List.cons_append]
              · have hallocs : m₂.allocs = m₁.allocs + us.length + 0 := hrun.count
                rw [hallocs, hcount, List.length_cons]
                omega
              · cases i with
                | zero => exact hgranted
                | succ i =>
                    have := hgrow.granted i (by simpa using hi)
                    rwa [hcount, Nat.add_assoc, Nat.add_comm 1 i] at this
              · have hnew := hgrow.frees g
                have hsame : freesIn T m₁ 3 UserHalf root 0 = freesIn T m 3 UserHalf root 0 :=
                  (freesIn_congr hg.nodes).1
                rw [if_pos rfl, Entry.frame_enable, Entry.frame_new, List.mem_singleton] at hnew
                rw [hnew, hsame, List.mem_cons, or_comm (a := g ∈ us)]
              · rw [List.length_cons, List.length_cons, List.length_replicate, hlen]

/-! ## A growth that is refused -/

/-- The user half is mapped as before, and the free pages are those of before. -/
def Undone (m m' : Mem) (root : Frame) (l l' : List Frame) : Prop :=
  (∀ v < userEnd, m'.entryFor root v = m.entryFor root v) ∧ ∀ g, g ∈ l' ↔ g ∈ l

/-- The size is out of range; or the new heap does not reach the stack and the first request
that is refused is one for a page. -/
def Reversible (env : Env) (m : Mem) (root : Frame) (l : List Frame) (oldSize newSize : Nat) :
    Prop :=
  userEnd < newSize ∨ (pageRoundUp newSize ≤ userStack ∧ ∃ c, Refused env m l c ∧
    (wants (fun v => m.missing v 3 root)
      (stepBy (pageRoundUp oldSize) (pageRoundUp newSize) pageSize))[c]? = some .page)

theorem ProcTable.below (h : ProcTable A m root l size) : pageRoundUp size ≤ userStack :=
  OwnTable.below h.own fun v hv hc => (h.mapped v hv).mpr (hc.imp_right And.left)

theorem allocUser_exact (h : Tidy A m root l) (hend : newSize ≤ userEnd)
    (hrange : ∀ v, pageRoundUp oldSize ≤ v → v < pageRoundUp newSize → m.entryFor root v = none) :
    Sat (allocUser root oldSize newSize flags env m) (fun _ m' => ∃ l', Tidy A m' root l')
      (fun _ m' => Short A (Touches (pageRoundUp oldSize) (pageRoundUp newSize)) env m m' root l
        (wants (fun v => m.missing v 3 root)
          (stepBy (pageRoundUp oldSize) (pageRoundUp newSize) pageSize)))
      (fun _ => False) := by
  refine Sat.ite (fun hn => absurd hend (Nat.not_le.mpr hn)) fun _ => Sat.ite (fun _ => Sat.pure ⟨l, h⟩)
    fun hlt => ?_
  have hmem : ∀ v ∈ stepBy (pageRoundUp oldSize) (pageRoundUp newSize) pageSize, _ := fun v hv =>
    (mem_stepBy_pages (pageRoundUp_mod oldSize)).mp hv
  exact Sat.bind (allocPages_exact (Nat.not_le.mp hlt) hend hmem (List.nodup_range' _ (by decide)) h
    (fun v hv => hrange v (hmem v hv).2.1 (hmem v hv).2.2) fun _ _ => rfl)
    (fun _ _ he => he) fun _ _ hm => Sat.pure hm

/-- When `alloc_user` undoes what it did. -/
theorem allocUser_undone (h : ProcTable A m root l oldSize) :
    Sat (allocUser root oldSize newSize flags env m) (fun _ _ => True)
      (fun _ m' => ∃ l', OwnTable A m' root l' ∧
        (Undone m m' root l l' ↔ Reversible env m root l oldSize newSize))
      (fun _ => False) := by
  by_cases hbig : userEnd < newSize
  · refine Sat.ite (fun _ => ⟨l, h.own, iff_of_true ⟨fun _ _ => rfl, fun _ => Iff.rfl⟩ (.inl hbig)⟩)
      fun hn => absurd hbig hn
  have hend := Nat.not_lt.mp hbig
  have hspec : Sat (allocUser root oldSize newSize flags env m) _ _ _ := allocUser_spec h.own
  by_cases hstack : pageRoundUp newSize ≤ userStack
  · -- the range was not mapped before
    have hrange : ∀ v, pageRoundUp oldSize ≤ v → v < pageRoundUp newSize →
        m.entryFor root v = none := by
      intro v hlo hhi
      have hv : v < userEnd := Nat.lt_of_lt_of_le hhi (pageRoundUp_userEnd hend)
      refine Option.eq_none_iff_forall_ne_some.mpr fun e he => ?_
      have := (h.mapped v hv).mp ⟨e, he⟩
      omega
    have hexact : Sat (allocUser root oldSize newSize flags env m) _ _ _ :=
      allocUser_exact h.toTidy hend hrange
    refine (hspec.and hexact).imp (fun _ _ _ => True.intro) ?_ (fun _ hx => hx.1)
    rintro _ m' ⟨⟨hn, -⟩ | ⟨-, -, -, -, hview⟩, c, l', hown, hrefused, hwhat⟩
    · exact absurd hn hbig
    refine ⟨l', hown, ?_⟩
    rcases hwhat with ⟨hpage, hback⟩ | ⟨htable, page, hin, hout⟩
    · refine iff_of_true ⟨fun v hv => ?_, fun g => ?_⟩ (.inr ⟨hstack, c, hrefused, hpage⟩)
      · rw [hview v hv]
        split
        · next hr => exact (hrange v hr.1 hr.2).symm
        · rfl
      · rw [hback g]
        exact or_iff_left (h.gap hstack g)
    · refine iff_of_false (fun hu => hout ((hu.2 page).mpr hin)) ?_
      rintro (hn | ⟨-, c', hrefused', hpage⟩)
      · exact hbig hn
      · rw [hrefused'.unique hrefused, htable] at hpage
        cases hpage
  · -- the stack goes
    refine hspec.imp (fun _ _ _ => True.intro) ?_ (fun _ hx => hx)
    rintro _ m' (⟨hn, -⟩ | ⟨-, l', hown, -, hview⟩)
    · exact absurd hn hbig
    refine ⟨l', hown, iff_of_false (fun hu => ?_) ?_⟩
    · have hgone := hview userStack (by decide)
      rw [if_pos ⟨h.below, Nat.not_le.mp hstack⟩, hu.1 userStack (by decide)] at hgone
      obtain ⟨e, he⟩ := (h.mapped userStack (by decide)).mpr (.inr (Nat.le_refl _))
      cases hgone.symm.trans he
    · rintro (hn | ⟨hn, -⟩)
      · exact hbig hn
      · exact hstack hn

/-- `adjsize` fails by itself with nothing done, or as `alloc_user` does. -/
theorem adjsize_undone {s : Sys} {p : ProcIdx} {delta : Int64} (hroot : (s.procs p).pgtbl = some root)
    (h : ProcTable A s.mem root l (s.procs p).size) :
    Sat (adjsize p delta env s) (fun _ _ => True)
      (fun _ s' => s'.procs = s.procs ∧ ∃ l', OwnTable A s'.mem root l' ∧
        (Undone s.mem s'.mem root l l' ↔
          delta < 0 ∨ wrapAdd (s.procs p).size delta < (s.procs p).size ∨
            Reversible env s.mem root l (s.procs p).size (wrapAdd (s.procs p).size delta)))
      (fun _ => True) := by
  unfold adjsize
  refine Sat.gets ?_
  generalize wrapAdd (s.procs p).size delta = newSize
  rw [hroot]
  have hsame : Undone s.mem s.mem root l l := ⟨fun _ _ => rfl, fun _ => Iff.rfl⟩
  refine Sat.ite (fun hneg => ?_) fun hpos => ?_
  · refine Sat.ite (fun _ => ⟨rfl, l, h.own, iff_of_true hsame (.inl hneg)⟩) fun hle => ?_
    have hsize : (s.procs p).size ≤ userEnd :=
      Nat.le_trans (le_pageRoundUp _) (Nat.le_trans h.below (by decide))
    refine Sat.bind ((vm_sat (deallocUser_spec h.own hsize)).imp (fun _ _ hq => hq)
      (fun _ _ he => he) (fun _ hx => hx.elim)) ?_ fun _ _ _ => Sat.modify (Sat.pure True.intro)
    rintro _ _ ⟨_, -, hf⟩
    exact hf.elim
  · refine Sat.ite (fun hlt => ⟨rfl, l, h.own, iff_of_true hsame (.inr (.inl hlt))⟩) fun hle => ?_
    refine Sat.bind ((vm_sat (allocUser_undone h)).imp (fun _ _ hq => hq) (fun _ _ he => he)
      (fun _ hx => hx.elim)) ?_ fun _ _ _ => Sat.modify (Sat.pure True.intro)
    rintro _ _ ⟨m, rfl, l', hown, hiff⟩
    refine ⟨rfl, l', hown, hiff.trans ?_⟩
    rw [or_iff_right hpos, or_iff_right hle]

/-- **A growth that is refused is undone** exactly if it was out of range, or stays below the
stack and is refused a page and not a table. -/
theorem growth_undone_iff {s : Sys} {p : ProcIdx} (hroot : (s.procs p).pgtbl = some root)
    (h : ProcTable A s.mem root l (s.procs p).size) :
    (∀ newSize flags e m', allocUser root (s.procs p).size newSize flags env s.mem = .err e m' →
      ∃ l', OwnTable A m' root l' ∧ (Undone s.mem m' root l l' ↔
        Reversible env s.mem root l (s.procs p).size newSize)) ∧
    ∀ delta e s', adjsize p delta env s = .err e s' →
      s'.procs = s.procs ∧ ∃ l', OwnTable A s'.mem root l' ∧ (Undone s.mem s'.mem root l l' ↔
        delta < 0 ∨ wrapAdd (s.procs p).size delta < (s.procs p).size ∨
          Reversible env s.mem root l (s.procs p).size (wrapAdd (s.procs p).size delta)) := by
  constructor
  · intro newSize flags e m' herr
    have hsat : Sat (allocUser root (s.procs p).size newSize flags env s.mem) _ _ _ :=
      allocUser_undone h
    exact hsat.of_err herr
  · intro delta e s' herr
    have hsat : Sat (adjsize p delta env s) _ _ _ := adjsize_undone hroot h
    exact hsat.of_err herr

/-! ## A process with nothing but its stack -/

theorem spare_tidy : ∃ l, Tidy Set.univ spare 0 l := by
  obtain ⟨l, hown⟩ := spare_own
  refine ⟨l, hown, fun k _ => .inl (by rw [spare_zero]; rfl), fun g hg hne => ?_⟩
  obtain rfl | ⟨k, x, -, hx, -⟩ := hg
  · exact absurd rfl hne
  · cases (heap_zero spare_zero k).symm.trans hx

/-- Its stack is mapped, and some pages are left. The second request from here on is refused. -/
theorem stackOnly : ∃ m l env, ProcTable Set.univ m 0 l 0 ∧ l ≠ [] ∧
    env.deny m.allocs = false ∧ env.deny (m.allocs + 1) = true ∧
    ∃ e m', allocUser 0 0 1 .write env m = .err e m' := by
  have hrun : ((allocUser 0 userStack userEnd .write .willing spare).result?.map fun r =>
      (r.2.freeList.isSome, (allocUser 0 0 1 .write ⟨fun i => i == r.2.allocs + 1⟩ r.2).result?.isSome)) =
      some (true, false) := by decide +kernel
  obtain ⟨n, m, hres, hall⟩ := Outcome.ok_of_map hrun
  obtain ⟨hfree, hfail⟩ := Prod.mk.inj hall
  obtain ⟨l₀, h₀⟩ := spare_tidy
  have hempty : ∀ v, spare.entryFor 0 v = none := fun v => by
    rw [entryFor_eq_view, view_empty (heap_zero spare_zero)]
  have hspec : Sat (allocUser 0 userStack userEnd .write .willing spare) _ _ _ :=
    (allocUser_spec h₀.own).and (allocUser_exact h₀ (Nat.le_refl _) fun v _ _ => hempty v)
  obtain ⟨⟨-, -, -, -, -, hview⟩, l, htidy⟩ := hspec.of_ok hres
  have hproc : ProcTable Set.univ m 0 l 0 := by
    refine ⟨htidy, fun v hv => ?_⟩
    have hv' := hview v hv
    by_cases hst : userStack ≤ v
    · rw [if_pos ⟨hst, hv⟩] at hv'
      obtain ⟨page, he⟩ := hv'
      exact iff_of_true ⟨_, he⟩ (.inr hst)
    · rw [if_neg fun hin => hst hin.1, hempty v] at hv'
      rw [hv']
      refine iff_of_false (fun ⟨_, he⟩ => (by cases he)) fun hin => ?_
      exact hin.elim (Nat.not_lt_zero v) hst
  refine ⟨m, l, ⟨fun i => i == m.allocs + 1⟩, hproc, ?_, by simp, by simp, ?_⟩
  · rintro rfl
    have hnone : m.freeList = none := htidy.own.pool.chain
    rw [hnone] at hfree
    cases hfree
  · have hsat : Sat (allocUser 0 0 1 .write ⟨fun i => i == m.allocs + 1⟩ m) _ _ _ :=
      allocUser_undone hproc
    rcases hsat.ends (awake_allocUser 0 0 1 .write _ m) with ⟨n', m', hok, -⟩ | ⟨e, m', herr, -⟩
    · rw [hok] at hfail
      cases hfail
    · exact ⟨e, m', herr⟩

/-- The table is refused, and the page for the heap is lost. -/
theorem growth_leaks : ∃ m l env e m' l', ProcTable Set.univ m 0 l 0 ∧
    allocUser 0 0 1 .write env m = .err e m' ∧ OwnTable Set.univ m' 0 l' ∧
    ¬Undone m m' 0 l l' := by
  obtain ⟨m, l, env, hproc, hne, hfirst, hsecond, e, m', herr⟩ := stackOnly
  have hsat : Sat (allocUser 0 0 1 .write env m) _ _ _ := allocUser_undone hproc
  obtain ⟨l', hown, hiff⟩ := hsat.of_err herr
  refine ⟨m, l, env, e, m', l', hproc, herr, hown, fun hu => ?_⟩
  obtain ⟨-, c, ⟨hlow, -, hwhy⟩, hpage⟩ := (hiff.mp hu).resolve_left (by decide)
  have hrange : stepBy (pageRoundUp 0) (pageRoundUp 1) pageSize = [0] := by decide
  rw [hrange, wants, wants, List.append_nil] at hpage
  cases c with
  | zero =>
      rcases hwhy with hd | hl
      · rw [Nat.add_zero, hfirst] at hd
        cases hd
      · exact hne (List.length_eq_zero_iff.mp hl)
  | succ c =>
      cases c with
      | zero =>
          rw [List.getElem?_cons_succ, List.getElem?_replicate] at hpage
          split at hpage <;> cases hpage
      | succ c =>
          have := hlow 1 (by omega)
          rw [hsecond] at this
          cases this

/-- One process with such a table. -/
theorem growth_undone_stack : ∃ s l env, (s.procs initProc).pgtbl = some 0 ∧
    ProcTable Set.univ s.mem 0 l (s.procs initProc).size ∧
    (∀ newSize flags e m', allocUser 0 (s.procs initProc).size newSize flags env s.mem = .err e m' →
      ∃ l', OwnTable Set.univ m' 0 l' ∧ (Undone s.mem m' 0 l l' ↔
        Reversible env s.mem 0 l (s.procs initProc).size newSize)) ∧
    ∀ delta e s', adjsize initProc delta env s = .err e s' →
      s'.procs = s.procs ∧ ∃ l', OwnTable Set.univ s'.mem 0 l' ∧ (Undone s.mem s'.mem 0 l l' ↔
        delta < 0 ∨ wrapAdd (s.procs initProc).size delta < (s.procs initProc).size ∨
          Reversible env s.mem 0 l (s.procs initProc).size
            (wrapAdd (s.procs initProc).size delta)) := by
  obtain ⟨m, l, env, hproc, -⟩ := stackOnly
  have hroot : ((⟨m, fun _ => { Proc.new with pgtbl := some 0 }, 0⟩ : Sys).procs initProc).pgtbl =
    some 0 := rfl
  exact ⟨⟨m, fun _ => { Proc.new with pgtbl := some 0 }, 0⟩, l, env, hroot, hproc,
    growth_undone_iff hroot hproc⟩

end Rxv64.Vm
