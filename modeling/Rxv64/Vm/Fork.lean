import Rxv64.Vm.Account
import Rxv64.Vm.Stack
import Rxv64.Vm.Translate

/-!
# Vm.Fork — an exact copy of an address space

`dup` of `kernel/src/vm.rs`. While a copy is being made, each page that was free
when it began hangs in the new table, is in the free list or in hand. So a copy
that is dropped half-built gives back all of them, and the frames of one that is
finished are pages that nobody else had.
-/

namespace Rxv64.Vm

open Radix

variable {A : Set Frame} {m₀ m m' : Mem} {n b : Nat} {K : Fin 512 → Prop}
  {t src dst page g : Frame} {l l' held fs : List Frame} {va size : Nat} {env : Env}
  {E : String → Mem → Prop} {X : String → Prop} {P Q : Nat → Prop}

/-! ## Tables that go as a whole -/

/-- A clean table is its first frame and what a sweep of everything would free. -/
theorem Clean.mem_foot (h : Clean m n K t b) :
    g ∈ m.foot (n + 1) K t ↔ g = t ∨ g ∈ freesIn (fun _ _ => True) m n K t b := by
  refine or_congr_right ⟨?_, ?_⟩
  · rintro ⟨k, x, hk, hx, hg⟩
    refine ⟨k, hk, x, hx, ?_⟩
    rcases h k hk with hz | ⟨x', hx', hd⟩
    · rw [Mem.heap, hz, Entry.isPresent_zero] at hx
      cases hx
    · cases hx.symm.trans hx'
      exact hd.frees hg
  · rintro ⟨k, hk, x, hx, hg⟩
    exact ⟨k, x, hk, hx, frees_subset hg⟩

/-- In user space each block is touched. -/
theorem touches_user (n : Nat) (h : (b + 1) * span n ≤ userEnd) : Touches 0 userEnd n b := by
  refine ⟨fun _ => by decide, by simp, ?_⟩
  have := span_pos n
  rw [Nat.succ_mul] at h
  omega

theorem Dead.of_user (h : Dead (fun _ _ => True) m n t b) (hb : (b + 1) * span n ≤ userEnd) :
    Dead (Touches 0 userEnd) m n t b := by
  induction n generalizing t b with
  | zero => exact touches_user 0 hb
  | succ n ih =>
      refine ⟨touches_user (n + 1) hb, fun k => (h.2 k).imp_right ?_⟩
      rintro ⟨x, hx, hd⟩
      refine ⟨x, hx, ih hd (Nat.le_trans ?_ hb)⟩
      have hk := k.isLt
      rw [span_succ, Nat.mul_comm (span n), ← Nat.mul_assoc]
      exact Nat.mul_le_mul_right _ (by omega)

/-- Of a clean table nothing but the first frame is left. -/
theorem Clean.swept (h : Clean m 3 UserHalf dst 0)
    (hsw : Swept (Touches 0 userEnd) A m m' 3 UserHalf dst 0 l fs UserHalf)
    (hg : g ∈ m.foot 4 UserHalf dst) (hne : g ≠ dst) : g ∈ fs := by
  obtain rfl | ⟨k, x, hk, hx, hg⟩ := hg
  · exact absurd rfl hne
  rw [hsw.freed]
  refine ⟨k, x, hk, hx, ?_⟩
  rcases h k hk with hz | ⟨x', hx', hd⟩
  · rw [Mem.heap, hz, Entry.isPresent_zero] at hx
    cases hx
  · cases hx.symm.trans hx'
    refine (hd.of_user ?_).frees hg
    have hspan : span 3 = 549755813888 := rfl
    have hk : k.val < 256 := hk
    simp only [hspan, userEnd]
    omega

/-! ## Under construction -/

/-- All of `A` hangs in the table, is free or in hand. -/
structure Building (A : Set Frame) (m : Mem) (dst : Frame) (l held : List Frame) : Prop where
  own : OwnTable A m dst l
  clean : Clean m 3 UserHalf dst 0
  all : ∀ g ∈ A, g ∈ m.foot 4 UserHalf dst ∨ g ∈ l ∨ g ∈ held

/-- The tables stay, and pages move between the list and the hand. -/
theorem Building.frame {held' : List Frame} (h : Building A m dst l held) (hown : OwnTable A m' dst l')
    (heq : ∀ g ∈ m.nodes 4 UserHalf dst, m'.pages g = m.pages g)
    (hall : ∀ g, g ∈ l ∨ g ∈ held → g ∈ l' ∨ g ∈ held') : Building A m' dst l' held' := by
  refine ⟨hown, (freesIn_congr heq).2.mpr h.clean, fun g hg => ?_⟩
  rw [foot_frame heq]
  exact (h.all g hg).imp_right (hall g)

/-- An unfinished table that is dropped gives everything back. -/
theorem Building.drop (h : Building A m dst l []) :
    Sat (dropTable dst env m)
      (fun _ m' => ∃ l', Pool A m' l' ∧ (∀ g ∈ A, g ∈ l') ∧ Same A m m')
      (fun _ _ => False) (fun _ => False) := by
  have hspec : Sat (freeUserPages dst 0 userEnd env m) _ _ _ :=
    freeUserPages_spec h.own (Nat.le_refl userEnd)
  have hswept : Sat (freeUserPages dst 0 userEnd env m) _ _ _ :=
    freeUserPages_swept h.own (show 0 < userEnd by decide) (Nat.le_refl _)
  refine Sat.seq (hspec.also (hswept.imp (fun _ _ hq => hq) (fun _ _ _ => True.intro)
    (fun _ _ => True.intro))) fun _ m₁ hm₁ => ?_
  obtain ⟨⟨l₁, -, hsame, -⟩, fs, hsw⟩ := hm₁
  have hroot : dst ∈ A := h.own.sub dst mem_foot_self
  have hout : dst ∉ fs ++ l := hsw.own.apart dst mem_foot_self
  refine Sat.last_modify ⟨dst :: (fs ++ l), hsw.own.pool.put hroot hout, fun g hg => ?_,
    hsame.trans (same_put hroot)⟩
  by_cases hne : g = dst
  · exact List.mem_cons.mpr (.inl hne)
  · refine List.mem_cons_of_mem dst (List.mem_append.mpr ?_)
    rcases h.all g hg with hf | hf | hf
    · exact .inl (h.clean.swept hsw hf hne)
    · exact .inr hf
    · cases hf

/-- What `map_to` leaves alone: pages that are neither tables nor free, and the
kernel's half. -/
structure Untouched (m m' : Mem) (dst : Frame) (l : List Frame) : Prop where
  pages : ∀ g, g ∉ m.nodes 4 UserHalf dst → g ∉ l → m'.pages g = m.pages g
  kern : ∀ k, ¬UserHalf k → m'.pages dst k = m.pages dst k

/-- `map_to` of the page in hand. -/
theorem Building.mapTo {flags : PageFlags} (h : Building A m dst l [page]) (hva : va < userEnd)
    (hA : page ∈ A) (hl : page ∉ l) (hf : page ∉ m.foot 4 UserHalf dst)
    (hnone : m.entryFor dst va = none) :
    Sat (Vm.mapTo dst (physAddr page) va flags env m)
      (fun _ m' => ∃ l', Building A m' dst l' [] ∧ Same A m m' ∧ Untouched m m' dst l ∧
        ∀ v, v < userEnd → m'.entryFor dst v =
          if v / pageSize = va / pageSize then some (Entry.new (physAddr page) flags).enable
          else m.entryFor dst v)
      (fun _ m' => ∃ l', Building A m' dst l' [page] ∧ Same A m m' ∧ page ∉ l' ∧
        page ∉ m'.foot 4 UserHalf dst) X := by
  have hframe : (Entry.new (physAddr page) flags).enable.frame = page := by simp
  have huser : Sat (Vm.mapTo dst (physAddr page) va flags env m) _ _ X :=
    mapTo_user h.own hva hA hl hf
  have hexact : Sat (Vm.mapTo dst (physAddr page) va flags env m) _ _ X :=
    mapTo_exact h.own hva h.clean hA hl hf hnone
  -- in both cases the table has grown by what left the list
  have hgrown : ∀ {m' : Mem} {l' us : List Frame} {ok : Bool},
      MapRun A env m m' 3 UserHalf dst 0 l l' us (Entry.new (physAddr page) flags).enable va ok →
      ∀ held, (page ∈ (if ok then [page] else []) ∨ page ∈ held) →
        Building A m' dst l' held ∧ Untouched m m' dst l ∧
          (ok = false → page ∉ m'.foot 4 UserHalf dst) := by
    intro m' l' us ok hm held hpage
    have hg := hm.grows (fun _ _ => True) fun _ _ => True.intro
    rw [hframe] at hg
    have hclean : Clean m' 3 UserHalf dst 0 := hg.bare.mpr h.clean
    have hus : ∀ g ∈ us, g ∈ l := fun g hgu => by
      rw [hg.list]
      exact List.mem_append_left _ hgu
    refine ⟨⟨hm.own, hclean, fun g hgA => ?_⟩, ⟨fun g hn hgl => hg.still g hn fun hgu =>
      hgl (hus g hgu), hg.half⟩, fun hok => ?_⟩
    · have hfree : g ∈ freesIn (fun _ _ => True) m' 3 UserHalf dst 0 → g ∈ m'.foot 4 UserHalf dst :=
        fun hfr => hclean.mem_foot.mpr (.inr hfr)
      rcases h.all g hgA with hin | hin | hin
      · rcases h.clean.mem_foot.mp hin with rfl | hin
        · exact .inl mem_foot_self
        · exact .inl (hfree ((hg.frees g).mpr (.inl hin)))
      · rw [hg.list] at hin
        rcases List.mem_append.mp hin with hin | hin
        · exact .inl (hfree ((hg.frees g).mpr (.inr (.inl hin))))
        · exact .inr (.inl hin)
      · obtain rfl := List.mem_singleton.mp hin
        rcases hpage with hpage | hpage
        · exact .inl (hfree ((hg.frees g).mpr (.inr (.inr hpage))))
        · exact .inr (.inr hpage)
    · subst hok
      rw [hclean.mem_foot, hg.frees]
      rintro (rfl | hin | hin | hin)
      · exact hf mem_foot_self
      · exact hf (h.clean.mem_foot.mpr (.inr hin))
      · exact hl (hus page hin)
      · cases hin
  refine (huser.and hexact).imp ?_ ?_ (fun _ hx => hx.1)
  · rintro - m' ⟨⟨-, -, hsame, -, hview⟩, l', us, hm⟩
    obtain ⟨hbuild, huntouched, -⟩ := hgrown hm [] (.inl List.mem_cons_self)
    exact ⟨l', hbuild, hsame, huntouched, hview⟩
  · rintro - m' ⟨⟨-, -, hsame, -⟩, l', us, hm⟩
    obtain ⟨hbuild, -, hout⟩ := hgrown hm [page] (.inr List.mem_cons_self)
    have hg := hm.grows (fun _ _ => True) fun _ _ => True.intro
    refine ⟨l', hbuild, hsame, fun hin => hl ?_, hout rfl⟩
    rw [hg.list]
    exact List.mem_append_right _ hin

/-! ## The copy -/

/-- The pages of `P` have been copied to `dst`, and nothing else is mapped there. -/
structure Copies (A : Set Frame) (m₀ m : Mem) (src dst : Frame) (P : Nat → Prop) : Prop where
  same : Same A m₀ m
  kern : ∀ k, ¬UserHalf k → m.pages dst k = m₀.pages src k
  done : ∀ v, v < userEnd → P v → ∃ e page, m₀.entryFor src v = some e ∧
    m.entryFor dst v = some (Entry.new (physAddr page) e.flags).enable ∧
    m.pages page = m₀.pages e.frame
  todo : ∀ v, v < userEnd → ¬P v → m.entryFor dst v = none

theorem Copies.imp (h : Copies A m₀ m src dst P) (hPQ : ∀ v, P v ↔ Q v) :
    Copies A m₀ m src dst Q := by
  have : P = Q := funext fun v => propext (hPQ v)
  exact this ▸ h

/-- Another page has been copied. -/
theorem Copies.step {e : Entry} {m₁ : Mem} (h : Copies A m₀ m src dst P) (hown : OwnTable A m dst l)
    (hva : va < userEnd) (he : m₀.entryFor src va = some e)
    (hpages : ∀ g, g ≠ page → m₁.pages g = m.pages g) (hpage : m₁.pages page = m₀.pages e.frame)
    (hout : page ∉ m.foot 4 UserHalf dst) (hless : ∀ g ∈ l', g ∈ l) (hpl : page ∉ l')
    (hsame : Same A m₀ m') (hun : Untouched m₁ m' dst l')
    (hview : ∀ v, v < userEnd → m'.entryFor dst v = if v / pageSize = va / pageSize
      then some (Entry.new (physAddr page) e.flags).enable else m₁.entryFor dst v) :
    Copies A m₀ m' src dst fun v => P v ∨ v / pageSize = va / pageSize := by
  have hdst : dst ≠ page := by
    rintro rfl
    exact hout mem_foot_self
  have hnodes : ∀ g ∈ m.nodes 4 UserHalf dst, m₁.pages g = m.pages g := fun g hg => by
    refine hpages g ?_
    rintro rfl
    exact hout (nodes_subset_foot hg)
  have hold : ∀ v, v < userEnd → m₁.entryFor dst v = m.entryFor dst v := fun v hv =>
    entryFor_congr hnodes hv
  have hnodes' : m₁.nodes 4 UserHalf dst = m.nodes 4 UserHalf dst := nodes_frame hnodes
  refine ⟨hsame, fun k hk => ?_, fun v hv hPv => ?_, fun v hv hPv => ?_⟩
  · rw [hun.kern k hk, hpages dst hdst, h.kern k hk]
  · by_cases hpg : v / pageSize = va / pageSize
    · refine ⟨e, page, (entryFor_page hv hva hpg).trans he, ?_, ?_⟩
      · rw [hview v hv, if_pos hpg]
      · rw [hun.pages page ?_ hpl, hpage]
        rw [hnodes']
        exact fun hn => hout (nodes_subset_foot hn)
    · obtain ⟨e', page', he', hnew, hbytes⟩ := h.done v hv (hPv.resolve_right hpg)
      obtain ⟨hin, hleaf⟩ := hown.leaf hv hnew
      simp only [Entry.frame_enable, Entry.frame_new] at hin hleaf
      have hne : page' ≠ page := by
        rintro rfl
        exact hout hin
      refine ⟨e', page', he', ?_, ?_⟩
      · rw [hview v hv, if_neg hpg, hold v hv, hnew]
      · rw [hun.pages page' (by rwa [hnodes']) fun hl => hown.apart page' hin (hless page' hl),
          hpages page' hne, hbytes]
  · rw [not_or] at hPv
    rw [hview v hv, if_neg hPv.2, hold v hv, h.todo v hv hPv.1]

/-- `copy_region`, with all that leaves the free list. -/
theorem copyRegion_exact (hsrc : ∀ g ∈ m₀.foot 4 UserHalf src, g ∉ A) {ks : List Nat}
    (hks : ∀ k ∈ ks, k % pageSize = 0 ∧ k < userEnd ∧ ∃ e, m₀.entryFor src k = some e)
    (hnodup : ks.Nodup) :
    ∀ {m : Mem} {l : List Frame} {P : Nat → Prop}, Building A m dst l [] →
      Copies A m₀ m src dst P → (∀ k ∈ ks, ¬P k) →
      Sat (copyRegion src dst ks env m)
        (fun ok m' => ∃ l', Building A m' dst l' [] ∧ Same A m₀ m' ∧
          (ok = true → Copies A m₀ m' src dst fun v => P v ∨ v / pageSize * pageSize ∈ ks))
        (fun _ _ => False) (fun _ => False) := by
  induction ks with
  | nil =>
      intro m l P h hcopies _
      exact Sat.pure ⟨l, h, hcopies.same, fun _ => hcopies.imp fun v => by simp⟩
  | cons k ks ih =>
      intro m l P h hcopies hP
      obtain ⟨hmod, hk, e, he⟩ := hks k List.mem_cons_self
      obtain ⟨hnot, hnodup⟩ := List.nodup_cons.mp hnodup
      have hm := hcopies.same
      have hread : m.entryFor src k = some e := by
        rw [entryFor_congr (fun g hg => hm g (hsrc g (nodes_subset_foot hg))) hk, he]
      have hframe : e.frame ∉ A := hsrc e.frame
        (walk_mem_foot (length_digits 4 k).le (head_userHalf hk) (walk_entryFor he))
      refine Sat.gets ?_
      rw [hread]
      refine Sat.assert (fun hn => absurd (isPresent_entryFor he) hn) fun _ => ?_
      refine Sat.seq h.own.alloc fun r m₁ hr => ?_
      cases r with
      | none =>
          refine Sat.pure ⟨l, h.frame hr.1 (fun g _ => by rw [hr.2]) fun g hg => hg,
            fun g hg => by rw [hr.2, hm g hg], fun hok => (by cases hok)⟩
      | some page =>
          obtain ⟨l₁, hg⟩ := hr
          have hout : page ∉ m.foot 4 UserHalf dst := by
            rw [← foot_frame hg.nodes]
            exact hg.out
          refine Sat.modify ?_
          have hpage : (m₁.setPage page (m₁.pages e.frame)).pages page = m₀.pages e.frame := by
            have hself : (m₁.setPage page (m₁.pages e.frame)).pages page = m₁.pages e.frame :=
              Function.update_self ..
            rw [hself, hg.same e.frame hframe, hm e.frame hframe]
          have hpages : ∀ g, g ≠ page →
              (m₁.setPage page (m₁.pages e.frame)).pages g = m.pages g := fun g hne => by
            rw [setPage_pages hne, hg.pages g hne]
          have hfree : (m₁.setPage page (m₁.pages e.frame)).freeList = m₁.freeList := rfl
          generalize m₁.setPage page (m₁.pages e.frame) = m₂ at hpage hpages hfree ⊢
          have hnodes : ∀ g ∈ m.nodes 4 UserHalf dst, m₂.pages g = m.pages g := fun g hgn => by
            refine hpages g ?_
            rintro rfl
            exact hout (nodes_subset_foot hgn)
          have hsame : Same A m m₂ := fun g hgA => by
            refine hpages g ?_
            rintro rfl
            exact hgA hg.mem
          have hown : OwnTable A m₂ dst l₁ := by
            refine h.own.frame (hg.own.pool.frame hfree fun g hgl => ?_) hnodes fun g hgf hgl => ?_
            · rw [hpages g, hg.pages g]
              all_goals
                rintro rfl
                exact hg.notMem hgl
            · exact h.own.apart g hgf (by rw [hg.list]; exact List.mem_cons_of_mem page hgl)
          have hbuild : Building A m₂ dst l₁ [page] := h.frame hown hnodes fun g hgl => by
            rw [hg.list] at hgl
            rcases hgl with hgl | hgl
            · exact (List.mem_cons.mp hgl).symm.imp_right List.mem_singleton.mpr
            · cases hgl
          have hnone : m₂.entryFor dst k = none := by
            rw [entryFor_congr hnodes hk]
            exact hcopies.todo k hk (hP k List.mem_cons_self)
          have hout₂ : page ∉ m₂.foot 4 UserHalf dst := by rwa [foot_frame hnodes]
          refine Sat.seq (Sat.attempt (hbuild.mapTo hk hg.mem hg.notMem hout₂ hnone)) ?_
          rintro (err | u) m₃ h₃
          · obtain ⟨l₃, hbuild₃, hsame₃, hl₃, hout₃⟩ := h₃
            have hput : Building A (m₃.put page) dst (page :: l₃) [] := by
              refine hbuild₃.frame (hbuild₃.own.put hg.mem hl₃ hout₃) (fun g hgn => put_pages ?_)
                fun g hgl => ?_
              · rintro rfl
                exact hout₃ (nodes_subset_foot hgn)
              · rw [List.mem_cons]
                exact .inl (hgl.symm.imp_left List.mem_singleton.mp)
            exact Sat.modify (Sat.pure ⟨page :: l₃, hput,
              ((hm.trans hsame).trans hsame₃).trans (same_put hg.mem), fun hok => (by cases hok)⟩)
          · obtain ⟨l₃, hbuild₃, hsame₃, hun, hview₃⟩ := h₃
            have hcopies₃ := hcopies.step h.own hk he hpages hpage hout
              (fun g hgl => by rw [hg.list]; exact List.mem_cons_of_mem page hgl) hg.notMem
              ((hm.trans hsame).trans hsame₃) hun hview₃
            refine (ih (fun k hk => hks k (List.mem_cons_of_mem _ hk)) hnodup hbuild₃ hcopies₃ ?_).imp
              ?_ (fun _ _ he => he) (fun _ hx => hx)
            · intro k' hk'
              rintro (hPk | hpg)
              · exact hP k' (List.mem_cons_of_mem k hk') hPk
              · have hmod' := (hks k' (List.mem_cons_of_mem k hk')).1
                have heq : k' = k := by
                  simp only [pageSize] at hmod hmod' hpg
                  omega
                exact hnot (heq ▸ hk')
            · rintro ok m₄ ⟨l₄, hbuild₄, hsame₄, hok₄⟩
              refine ⟨l₄, hbuild₄, hsame₄, fun hok => (hok₄ hok).imp fun v => ?_⟩
              rw [List.mem_cons, or_assoc]
              refine or_congr_right (or_congr_left ?_)
              simp only [pageSize] at hmod ⊢
              omega

/-! ## `dup` -/

/-- The first page of a copy: the kernel's half and nothing else. -/
theorem dupKern_page (h : Pool A m l) (hsrc : src ∉ A) :
    Sat (dupKern src env m) (fun r m' => ∀ root, r = some root → ∀ k : Fin 512,
      m'.pages root k = if 256 ≤ k.val then m.pages src k else 0) E X := by
  refine Sat.seq h.alloc fun r m₁ hr => ?_
  cases r with
  | none => exact Sat.pure fun _ hroot => by cases hroot
  | some page =>
      obtain ⟨l', rfl, -, hpages⟩ := hr
      refine Sat.modify (Sat.pure fun root hroot k => ?_)
      cases hroot
      have hne : src ≠ page := by
        rintro rfl
        exact hsrc (h.mem src List.mem_cons_self)
      simp only [Mem.setPage, hpages, Function.update_self, Function.update_of_ne hne]
      rfl

theorem dupKern_exact (h : Pool A m l) (hA : ∀ g ∈ A, g ∈ l) (hsrc : src ∉ A) :
    Sat (dupKern src env m) (fun r m' => match r with
      | none => Pool A m' l ∧ Same A m m'
      | some dst => ∃ l', Building A m' dst l' [] ∧ Copies A m m' src dst fun _ => False) E X := by
  refine ((dupKern_spec h).also (dupKern_page h hsrc)).imp ?_ (fun _ _ he => he) (fun _ hx => hx)
  rintro r m' ⟨hr, hpage⟩
  cases r with
  | none => exact hr
  | some dst =>
      obtain ⟨l', rfl, hown, hsame, hview⟩ := hr
      have hdst := hpage dst rfl
      refine ⟨l', ⟨hown, fun k hk => .inl ?_, fun g hg => ?_⟩, hsame, fun k hk => ?_,
        fun _ _ hn => hn.elim, fun v hv _ => hview v hv⟩
      · have hk : k.val < 256 := hk
        rw [hdst k, if_neg (Nat.not_le.mpr hk)]
      · rcases List.mem_cons.mp (hA g hg) with rfl | hg
        · exact .inl mem_foot_self
        · exact .inr (.inl hg)
      · rw [hdst k, if_pos (Nat.not_lt.mp hk)]

/-- What a new table is to the one it was copied from. -/
structure Forked (m m' : Mem) (src table : Frame) (size : Nat) : Prop where
  copied : ∀ v, v < userEnd → Copied size v → ∃ e e', m.entryFor src v = some e ∧
    m'.entryFor table v = some e' ∧ e'.flags = e.flags ∧ m'.pages e'.frame = m.pages e.frame
  rest : ∀ v, v < userEnd → ¬Copied size v → m'.entryFor table v = none
  distinct : ∀ v v' e e', v < userEnd → v' < userEnd → m'.entryFor table v = some e →
    m'.entryFor table v' = some e' → e.frame = e'.frame → v / pageSize = v' / pageSize
  apart : ∀ g ∈ m'.foot 4 UserHalf table, g ∉ m.foot 4 UserHalf src
  kern : ∀ k, ¬UserHalf k → m'.pages table k = m.pages src k

/-- An entry that is there keeps its flags when it is made anew. -/
theorem flags_copy {e : Entry} (h : e.isPresent = true) (pa : BitVec 64) :
    (Entry.new pa e.flags).enable.flags = e.flags := by
  have hbits : e &&& flagBits ||| PageFlags.present.bits = e &&& flagBits := by
    refine BitVec.eq_of_getLsbD_eq fun i _ => ?_
    rw [← Entry.enable, Entry.getLsbD_enable]
    by_cases h0 : i = 0
    · subst h0
      simpa [Entry.isPresent, getLsbD_flagBits] using h
    · simp [h0]
  rw [Entry.flags_new]
  simp only [PageFlags.union, Entry.flags, hbits]

/-- Nobody has mapped everything up to the stack. -/
theorem OwnTable.below (h : OwnTable A m src l)
    (hall : ∀ v < userEnd, Copied size v → ∃ e, m.entryFor src v = some e) :
    pageRoundUp size ≤ userStack := by
  by_contra hbig
  have hmap : ∀ v, 0 ≤ v → v ≤ userEnd - 1 → ∃ e, m.entryFor src v = some e := by
    intro v _ hv
    refine hall v (Nat.lt_of_le_of_lt hv (by decide)) ?_
    unfold Copied
    simp only [userStack, userEnd] at hbig hv ⊢
    omega
  have hcard := Own.card_range h (Nat.zero_le _) (by decide) hmap
  revert hcard
  decide

theorem awake_dup (src : Frame) (size : Nat) : Awake (dup src size) := by
  have hregion : ∀ dst ks, Awake (copyRegion src dst ks) := by
    intro dst ks
    induction ks with
    | nil => exact .pure
    | cons k ks ih =>
        refine Awake.gets fun e => ?_
        cases e with
        | none => exact .abort
        | some e =>
            refine .assert (awake_alloc.bind fun r => ?_)
            cases r with
            | none => exact .pure
            | some page =>
                refine Awake.modify.bind fun _ => (awake_mapTo _ _ _ _).attempt.bind fun r => ?_
                cases r with
                | error err => exact Awake.modify.bind fun _ => .pure
                | ok u => exact ih
  have hdrop : ∀ table, Awake (do dropTable table; pure none : VmM (Option Frame)) := fun table =>
    (awake_dropTable table).bind fun _ => .pure
  refine Awake.bind (awake_alloc.bind fun r => ?_) fun r => ?_
  · cases r with
    | none => exact .pure
    | some page => exact Awake.modify.bind fun _ => .pure
  · cases r with
    | none => exact .pure
    | some table =>
        exact (hregion _ _).bind fun _ => .ite ((hregion _ _).bind fun _ => .ite .pure (hdrop table))
          (hdrop table)

/-- The pages of the list, in the new table or back in the list. -/
theorem dup_builds (h : OwnTable A m src l) (hall : ∀ v, Copied size v → ∃ e, m.entryFor src v = some e) :
    Sat (dup src size env m) (fun r m' => Same {g | g ∈ l} m m' ∧ match r with
      | none => ∃ l', Pool {g | g ∈ l} m' l' ∧ ∀ g ∈ l, g ∈ l'
      | some table => ∃ l', Building {g | g ∈ l} m' table l' [] ∧
          Copies {g | g ∈ l} m m' src table (Copied size))
      (fun _ _ => False) (fun _ => False) := by
  have hpool : Pool {g | g ∈ l} m l := ⟨h.pool.chain, h.pool.nodup, fun g hg => hg⟩
  have hsize := OwnTable.below h fun v _ => hall v
  have hlow : ∀ k ∈ stepBy 0 size pageSize,
      k % pageSize = 0 ∧ k < userEnd ∧ ∃ e, m.entryFor src k = some e := by
    intro k hk
    obtain ⟨hmod, -, hlt⟩ := (mem_stepBy_pages (by decide)).mp hk
    have hround : k < pageRoundUp size := Nat.lt_of_lt_of_le hlt (le_pageRoundUp size)
    exact ⟨hmod, Nat.lt_of_lt_of_le hround (Nat.le_trans hsize (by decide)), hall k (.inl hround)⟩
  have hstack : ∀ k ∈ stepBy userStack userEnd pageSize,
      k % pageSize = 0 ∧ k < userEnd ∧ ∃ e, m.entryFor src k = some e := by
    intro k hk
    obtain ⟨hmod, hlo, hlt⟩ := (mem_stepBy_pages (by decide)).mp hk
    exact ⟨hmod, hlt, hall k (.inr ⟨hlo, hlt⟩)⟩
  have hnodup : ∀ a b, (stepBy a b pageSize).Nodup := fun a b => List.nodup_range' _ (by decide)
  have hapart : ∀ g ∈ m.foot 4 UserHalf src, g ∉ {g | g ∈ l} := fun g hg => h.apart g hg
  -- a copy that is not finished is dropped
  have hdrop : ∀ {m₁ : Mem} {table : Frame} {l₁ : List Frame}, Building {g | g ∈ l} m₁ table l₁ [] →
      Same {g | g ∈ l} m m₁ →
      Sat ((do dropTable table; pure none : VmM (Option Frame)) env m₁)
        (fun r m' => Same {g | g ∈ l} m m' ∧ match r with
          | none => ∃ l', Pool {g | g ∈ l} m' l' ∧ ∀ g ∈ l, g ∈ l'
          | some table => ∃ l', Building {g | g ∈ l} m' table l' [] ∧
              Copies {g | g ∈ l} m m' src table (Copied size))
        (fun _ _ => False) (fun _ => False) := by
    intro m₁ table l₁ hbuild hsame
    refine Sat.seq hbuild.drop fun _ m₂ hm₂ => Sat.pure ?_
    obtain ⟨l₂, hpool₂, hback, hsame₂⟩ := hm₂
    exact ⟨hsame.trans hsame₂, l₂, hpool₂, hback⟩
  refine Sat.seq (dupKern_exact hpool (fun g hg => hg) (hapart src mem_foot_self)) fun r m₁ hr => ?_
  cases r with
  | none => exact Sat.pure ⟨hr.2, l, hr.1, fun g hg => hg⟩
  | some table =>
      obtain ⟨l₁, hbuild₁, hcopies₁⟩ := hr
      refine Sat.seq (copyRegion_exact hapart hlow (hnodup 0 size) hbuild₁ hcopies₁ fun _ _ hn => hn) ?_
      rintro ok m₂ ⟨l₂, hbuild₂, hsame₂, hok₂⟩
      cases ok with
      | false => exact hdrop hbuild₂ hsame₂
      | true =>
          refine Sat.seq (copyRegion_exact hapart hstack (hnodup userStack userEnd) hbuild₂ (hok₂ rfl)
            ?_) ?_
          · rintro k hk (hn | hn)
            · exact hn
            · have hlo := (mem_stepBy_pages (by decide)).mp hk
              have := mem_stepBy_zero.mp hn
              omega
          rintro ok m₃ ⟨l₃, hbuild₃, hsame₃, hok₃⟩
          cases ok with
          | false => exact hdrop hbuild₃ hsame₃
          | true =>
              refine Sat.pure ⟨hsame₃, l₃, hbuild₃, (hok₃ rfl).imp fun v => ?_⟩
              rw [false_or, mem_stepBy_zero, mem_stepBy_stack]
              exact Iff.rfl

/-- **`dup` copies the address space exactly**, or gives back every page it took. Nothing but
free pages is written in either case. -/
theorem dup_exact (h : OwnTable A m src l)
    (hall : ∀ v, Copied size v → ∃ e, m.entryFor src v = some e) :
    ∃ r m' l', dup src size env m = .ok r m' ∧ OwnTable A m' src l' ∧ Same {g | g ∈ l} m m' ∧
      match r with
      | none => ∀ g, g ∈ l' ↔ g ∈ l
      | some table => OwnTable {g | g ∈ l} m' table l' ∧ Forked m m' src table size := by
  have hsat : Sat (dup src size env m) _ _ _ := dup_builds h hall
  obtain ⟨r, m', heq, hsame, hr⟩ := hsat.returns (awake_dup src size env m)
  have hsrc : ∀ {l' : List Frame}, Pool {g | g ∈ l} m' l' → OwnTable A m' src l' := fun hpool =>
    h.frame (hpool.mono h.pool.mem) (fun g hg => hsame g (h.apart g (nodes_subset_foot hg)))
      fun g hg hgl => h.apart g hg (hpool.mem g hgl)
  cases r with
  | none =>
      obtain ⟨l', hpool, hback⟩ := hr
      exact ⟨none, m', l', heq, hsrc hpool, hsame, fun g => ⟨hpool.mem g, hback g⟩⟩
  | some table =>
      obtain ⟨l', hbuild, hcopies⟩ := hr
      refine ⟨some table, m', l', heq, hsrc hbuild.own.pool, hsame, hbuild.own, ⟨fun v hv hc => ?_,
        hcopies.todo, fun v v' e e' hv hv' he he' hframe => ?_, fun g hg hgs => ?_, hcopies.kern⟩⟩
      · obtain ⟨e, page, he, hnew, hbytes⟩ := hcopies.done v hv hc
        refine ⟨e, _, he, hnew, flags_copy (isPresent_entryFor he) _, ?_⟩
        rw [Entry.frame_enable, Entry.frame_new, hbytes]
      · have hw' := walk_entryFor he'
        rw [← hframe] at hw'
        exact (digits_four hv hv').mp (hbuild.own.tree.walk_inj (length_digits 4 v).le
          (length_digits 4 v').le (head_userHalf hv) (head_userHalf hv') (walk_entryFor he) hw')
      · exact h.apart g hgs (hbuild.own.sub g hg)

/-! ## With enough pages -/

theorem dupKern_granted (hdeny : ∀ i, env.deny i = false) (h : Pool A m l) (hl : 0 < l.length) :
    Sat (dupKern src env m) (fun r _ => r.isSome = true) E X := by
  refine Sat.seq (h.alloc_supplied hdeny hl) fun r m₁ hr => ?_
  cases r with
  | none => cases hr
  | some page => exact Sat.modify (Sat.pure rfl)

theorem copyRegion_supplied (hdeny : ∀ i, env.deny i = false) {ks : List Nat}
    (hks : ∀ k ∈ ks, k < userEnd) (h : Own A m 3 UserHalf dst l) (hl : 4 * ks.length ≤ l.length) :
    Sat (copyRegion src dst ks env m)
      (fun ok m' => ok = true ∧
        ∃ l', Own A m' 3 UserHalf dst l' ∧ l.length ≤ l'.length + 4 * ks.length)
      (fun _ _ => True) (fun _ => True) := by
  induction ks generalizing m l with
  | nil => exact Sat.pure ⟨rfl, l, h, Nat.le_refl _⟩
  | cons k ks ih =>
      rw [List.length_cons] at hl ⊢
      refine Sat.gets ?_
      cases m.entryFor src k with
      | none => exact Sat.abort True.intro
      | some e =>
          refine Sat.assert (fun _ => True.intro) fun _ => ?_
          refine Sat.seq (h.alloc.also (h.pool.alloc_supplied hdeny (by omega))) fun r m₁ hr => ?_
          obtain ⟨hr, hsome⟩ := hr
          cases r with
          | none => cases hsome
          | some page =>
              obtain ⟨l₁, hg⟩ := hr
              rw [hg.list, List.length_cons] at hl ⊢
              have hown : Own A (m₁.setPage page (m₁.pages e.frame)) 3 UserHalf dst l₁ := by
                refine hg.own.frame (hg.own.pool.frame rfl fun g hgl => setPage_pages ?_)
                  (fun g hgn => setPage_pages ?_) hg.own.apart
                · rintro rfl
                  exact hg.notMem hgl
                · rintro rfl
                  exact hg.out (nodes_subset_foot hgn)
              have hk : UserHalf (index 3 k) := userHalf_index (hks k List.mem_cons_self)
              refine Sat.modify (Sat.seq (Sat.attempt (mapTo_supplied hdeny hown hk (by omega))) ?_)
              rintro (err | u) m₂ h₂
              · exact h₂.elim
              · obtain ⟨l₂, hown₂, hcount₂⟩ := h₂
                refine (ih (fun k' hk' => hks k' (List.mem_cons_of_mem k hk')) hown₂ (by omega)).imp
                  ?_ (fun _ _ he => he) (fun _ hx => hx)
                rintro ok m₃ ⟨hok, l₃, hown₃, hcount₃⟩
                exact ⟨hok, l₃, hown₃, by omega⟩

/-- `dup` makes a copy if no allocation is refused and there are pages for all
that it copies and for its tables. -/
theorem dup_supplied (hdeny : ∀ i, env.deny i = false) (h : Pool A m l) (hsize : size ≤ userEnd)
    (hl : 4 * ((stepBy 0 size pageSize).length + (stepBy userStack userEnd pageSize).length) <
      l.length) :
    Sat (dup src size env m) (fun r _ => r.isSome = true) (fun _ _ => True) (fun _ => True) := by
  have hlow : ∀ k ∈ stepBy 0 size pageSize, k < userEnd := fun k hk =>
    Nat.lt_of_lt_of_le ((mem_stepBy_pages (by decide)).mp hk).2.2 hsize
  have hstack : ∀ k ∈ stepBy userStack userEnd pageSize, k < userEnd := fun k hk =>
    ((mem_stepBy_pages (by decide)).mp hk).2.2
  refine Sat.seq ((dupKern_spec h).also (dupKern_granted hdeny h (by omega))) fun r m₁ hr => ?_
  obtain ⟨hr, hsome⟩ := hr
  cases r with
  | none => cases hsome
  | some table =>
      obtain ⟨l₁, rfl, hown, -⟩ := hr
      rw [List.length_cons] at hl
      refine Sat.seq (copyRegion_supplied hdeny hlow hown.tables (by omega)) fun ok m₂ hok => ?_
      obtain ⟨rfl, l₂, hown₂, hcount₂⟩ := hok
      refine Sat.seq (copyRegion_supplied hdeny hstack hown₂ (by omega)) fun ok m₃ hok => ?_
      obtain ⟨rfl, -⟩ := hok
      exact Sat.pure rfl

abbrev sparePages : List Frame := (List.range' 1 24).map (BitVec.ofNat 35)

/-- Some free pages beside an empty table. -/
def spare : Mem := Mem.freePages ⟨fun _ => Page.zero, none, 0⟩ sparePages

theorem zero_notMem_spare : (0 : Frame) ∉ sparePages := by decide

theorem spare_zero : spare.pages 0 = Page.zero := freePages_pages zero_notMem_spare

theorem spare_own : ∃ l, OwnTable Set.univ spare 0 l := by
  have hpool : Pool {g | g ≠ 0} ⟨fun _ => Page.zero, none, 0⟩ [] :=
    ⟨rfl, List.nodup_nil, fun _ hg => (by cases hg)⟩
  have hempty : ∀ k, spare.heap 0 k = none := heap_zero spare_zero
  have hfoot := foot_single (n := 4) (K := UserHalf) (.inr fun k _ => hempty k)
  have hpages : ∀ g ∈ sparePages, g ≠ 0 := by
    rintro g hg rfl
    exact zero_notMem_spare hg
  obtain ⟨l, hl⟩ := hpool.freePages hpages (by decide) fun _ _ => List.not_mem_nil
  refine ⟨l, hl.mono fun _ _ => True.intro, tree_single (.inr fun k _ => hempty k),
    fun _ _ => True.intro, fun g hg hgl => hl.mem g hgl ?_⟩
  rw [hfoot] at hg
  exact hg

/-- A table with nothing but its stack, and its copy. -/
theorem dup_exact_stack : ∃ m l, OwnTable Set.univ m 0 l ∧ (∃ e, m.entryFor 0 userStack = some e) ∧
    ∃ table m' l', dup 0 0 .willing m = .ok (some table) m' ∧ OwnTable Set.univ m' 0 l' ∧
      Same {g | g ∈ l} m m' ∧ OwnTable {g | g ∈ l} m' table l' ∧ Forked m m' 0 table 0 := by
  have hrun : ((allocUser 0 userStack userEnd .write .willing spare).result?.map fun r =>
      (r.2.nth 16).isSome) = some true := by decide +kernel
  obtain ⟨n, m, hres, hmany⟩ := Outcome.ok_of_map hrun
  obtain ⟨l₀, h₀⟩ := spare_own
  have hspec : Sat (allocUser 0 userStack userEnd .write .willing spare) _ _ _ := allocUser_spec h₀
  obtain ⟨-, -, l, hown, -, hview⟩ := hspec.of_ok hres
  have hlen : 16 < l.length := by
    obtain ⟨g, hg⟩ := Option.isSome_iff_exists.mp hmany
    rw [nth_chain hown.pool.chain] at hg
    exact (List.getElem?_eq_some_iff.mp hg).1
  have hstack : ∀ v, userStack ≤ v → v < userEnd → ∃ e, m.entryFor 0 v = some e := by
    intro v hlo hhi
    have hv := hview v hhi
    rw [if_pos ⟨hlo, hhi⟩] at hv
    obtain ⟨page, he⟩ := hv
    exact ⟨_, he⟩
  have hall : ∀ v, Copied 0 v → ∃ e, m.entryFor 0 v = some e := by
    rintro v (hv | hv)
    · exact absurd hv (Nat.not_lt_zero v)
    · exact hstack v hv.1 hv.2
  refine ⟨m, l, hown, hstack userStack (Nat.le_refl _) (by decide), ?_⟩
  have hfew : 4 * ((stepBy 0 0 pageSize).length + (stepBy userStack userEnd pageSize).length) <
      l.length := by
    simp only [stepBy, List.length_range', pageSize, userStack, userEnd]
    omega
  have hmade : Sat (dup 0 0 .willing m) _ _ _ :=
    dup_supplied (fun _ => rfl) hown.pool (Nat.zero_le _) hfew
  obtain ⟨r, m', l', heq, hsrc, hsame, hr⟩ := dup_exact hown hall
  cases r with
  | none => cases hmade.of_ok heq
  | some table => exact ⟨table, m', l', heq, hsrc, hsame, hr⟩

end Rxv64.Vm
