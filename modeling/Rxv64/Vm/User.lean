import Rxv64.Vm.Free

/-!
# Vm.User — page tables as maps from user addresses

What the operations of `PageTable` do to `entry_for`, for the addresses below
`USEREND`. Each takes pages from the free list or gives them back and leaves
everything outside of its table and the free list alone.
-/

namespace Rxv64.Vm

open Radix

variable {A : Set Frame} {m m' : Mem} {root src dst page : Frame} {l l' : List Frame} {va : Nat}
  {env : Env} {E : String → Mem → Prop} {X : String → Prop}

/-! ## Rounding and indices -/

theorem pageRoundUp_mod (v : Nat) : pageRoundUp v % pageSize = 0 := by
  simp only [pageRoundUp, pageSize]
  omega

theorem le_pageRoundUp (v : Nat) : v ≤ pageRoundUp v := Nat.le_add_left ..

theorem pageRoundUp_mono {a b : Nat} (h : a ≤ b) : pageRoundUp a ≤ pageRoundUp b := by
  simp only [pageRoundUp, pageSize]
  omega

theorem pageRoundUp_userEnd {a : Nat} (h : a ≤ userEnd) : pageRoundUp a ≤ userEnd := by
  simp only [pageRoundUp, pageSize, userEnd] at *
  omega

theorem userHalf_index (h : va < userEnd) : UserHalf (index 3 va) := by
  have hspan : span 3 = 549755813888 := rfl
  simp only [UserHalf, index, hspan, userEnd] at *
  omega

theorem div_span_four (h : va < userEnd) : va / span 4 = 0 := by
  have hspan : span 4 = 281474976710656 := rfl
  simp only [hspan, userEnd] at *
  omega

/-- Two addresses of one block with the same indices lie in the same page. -/
theorem digits_inj {n v : Nat} (hb : va / span n = v / span n) :
    digits n va = digits n v ↔ va / pageSize = v / pageSize := by
  induction n with
  | zero => exact iff_of_true rfl hb
  | succ n ih =>
      rw [digits, digits, List.cons.injEq, index_eq_iff hb]
      constructor
      · rintro ⟨hn, hd⟩
        exact (ih hn).mp hd
      · intro hp
        have hn : va / span n = v / span n := by
          rw [span, ← Nat.div_div_eq_div_mul, ← Nat.div_div_eq_div_mul, hp]
        exact ⟨hn, (ih hn).mpr hp⟩

/-- The indices of user addresses are those of their pages. -/
theorem digits_four {v : Nat} (hva : va < userEnd) (hv : v < userEnd) :
    digits 4 va = digits 4 v ↔ va / pageSize = v / pageSize :=
  digits_inj (by rw [div_span_four hva, div_span_four hv])

theorem head_userHalf (hva : va < userEnd) : ∀ k ∈ (digits 4 va).head?, UserHalf k := by
  intro k hk
  cases hk
  exact userHalf_index hva

/-- A page table and the free list. -/
abbrev OwnTable (A : Set Frame) (m : Mem) (root : Frame) (l : List Frame) : Prop :=
  Own A m 4 UserHalf root l

/-- The user addresses of a table are mapped as before. -/
theorem entryFor_congr (heq : ∀ g ∈ m.nodes 4 UserHalf root, m'.pages g = m.pages g)
    (hva : va < userEnd) : m'.entryFor root va = m.entryFor root va := by
  rw [entryFor_eq_view, entryFor_eq_view]
  exact view_congr heq (head_userHalf hva)

/-! ## Mapping -/

theorem mapTo_user {flags : PageFlags} (h : OwnTable A m root l) (hva : va < userEnd)
    (hA : page ∈ A) (hl : page ∉ l) (hf : page ∉ m.foot 4 UserHalf root) :
    Sat (mapTo root (physAddr page) va flags env m)
      (fun _ m' => ∃ l', OwnTable A m' root l' ∧ Same A m m' ∧ (∀ g ∈ l', g ∈ l) ∧
        ∀ v, v < userEnd → m'.entryFor root v =
          if v / pageSize = va / pageSize then some (Entry.new (physAddr page) flags).enable
          else m.entryFor root v)
      (fun _ m' => ∃ l', OwnTable A m' root l' ∧ Same A m m' ∧ (∀ g ∈ l', g ∈ l) ∧
        page ∉ m'.foot 4 UserHalf root ∧ ∀ v, v < userEnd → m'.entryFor root v = m.entryFor root v)
      X := by
  refine (mapTo_spec h (userHalf_index hva) hA hl hf).imp ?_ ?_ (fun _ hx => hx)
  · rintro - m' ⟨l', hm⟩
    refine ⟨l', hm.own, hm.same, hm.less, fun v hv => ?_⟩
    rw [entryFor_eq_view, entryFor_eq_view, hm.view v (head_userHalf hv)]
    simp only [true_and, digits_four hv hva]
  · rintro - m' ⟨l', hm⟩
    refine ⟨l', hm.own, hm.same, hm.less, by simpa using hm.out rfl, fun v hv => ?_⟩
    rw [entryFor_eq_view, entryFor_eq_view, hm.view v (head_userHalf hv)]
    simp

/-! ## Freeing -/

theorem freeUserPages_spec {start stop : Nat} (h : OwnTable A m root l) (hstop : stop ≤ userEnd) :
    Sat (freeUserPages root start stop env m)
      (fun _ m' => ∃ l', OwnTable A m' root l' ∧ Same A m m' ∧
        ∀ v, v < userEnd → m'.entryFor root v =
          if pageRoundUp start ≤ v ∧ v < pageRoundUp stop then none else m.entryFor root v)
      (fun _ _ => False) (fun _ => False) := by
  unfold freeUserPages
  refine Sat.ite (fun hlt => ?_) fun hge => Sat.pure ⟨l, h, Same.refl, fun v _ => ?_⟩
  · have hend := pageRoundUp_userEnd hstop
    have hloop : Sat (Prog.each (freeTable _ _ _ _ _) _ env m) _ _ _ :=
      freeTables_spec (n := 2) (b := 0) frees_three h (pageRoundUp_mod start)
      (pageRoundUp_mod stop) (by simp) (Nat.le_trans hend (by decide))
      fun v hv => userHalf_index (Nat.lt_of_lt_of_le hv hend)
    refine hloop.imp ?_ (fun _ _ he => he) (fun _ hx => hx)
    rintro - m' ⟨l', hf⟩
    refine ⟨l', hf.own, hf.same, fun v hv => ?_⟩
    rw [entryFor_eq_view, entryFor_eq_view]
    split
    · next hin => exact hf.gone v (div_span_four hv) (head_userHalf hv) hin
    · next hout => exact hf.kept v (div_span_four hv) (head_userHalf hv) hout
  · rw [if_neg]
    have := pageRoundUp_mono (Nat.not_lt.mp hge)
    omega

/-- A table that is dropped leaves nothing but free pages. -/
theorem dropTable_spec (h : OwnTable A m root l) :
    Sat (dropTable root env m) (fun _ m' => ∃ l', Pool A m' l' ∧ Same A m m')
      (fun _ _ => False) (fun _ => False) := by
  refine Sat.seq (freeUserPages_spec h (Nat.le_refl _)) fun _ m₁ ⟨l₁, h₁, hsame, _⟩ => ?_
  have hroot : root ∈ A := h₁.sub root mem_foot_self
  exact Sat.last_modify ⟨root :: l₁, h₁.pool.put hroot (h₁.apart root mem_foot_self),
    hsame.trans (same_put hroot)⟩

theorem deallocUser_spec {oldSize newSize : Nat} (h : OwnTable A m root l) (hold : oldSize ≤ userEnd) :
    Sat (deallocUser root oldSize newSize env m)
      (fun r m' => r = min oldSize newSize ∧ ∃ l', OwnTable A m' root l' ∧ Same A m m' ∧
        ∀ v, v < userEnd → m'.entryFor root v =
          if pageRoundUp newSize ≤ v ∧ v < pageRoundUp oldSize then none else m.entryFor root v)
      (fun _ _ => False) (fun _ => False) := by
  unfold deallocUser
  refine Sat.ite (fun hle => Sat.pure ⟨(Nat.min_eq_left hle).symm, l, h, Same.refl, fun v _ => ?_⟩)
    fun hlt => ?_
  · rw [if_neg]
    have := pageRoundUp_mono hle
    omega
  · refine Sat.seq (freeUserPages_spec h hold) fun _ m' hm => Sat.pure ⟨?_, hm⟩
    omega

/-! ## Growing -/

/-- A page that was mapped with these flags, for user code. -/
def Granted (m : Mem) (root : Frame) (flags : PageFlags) (v : Nat) : Prop :=
  ∃ page, m.entryFor root v = some (Entry.new (physAddr page) (flags.union .user)).enable

/-- What a failed growth leaves behind: the range is unmapped, whatever it held. -/
def Rolled (A : Set Frame) (m m' : Mem) (root : Frame) (oldSize newSize : Nat) : Prop :=
  ∃ l', OwnTable A m' root l' ∧ Same A m m' ∧
    ∀ v, v < userEnd → m'.entryFor root v =
      if pageRoundUp oldSize ≤ v ∧ v < pageRoundUp newSize then none else m.entryFor root v

theorem rollback_spec {oldSize newSize : Nat} (h : OwnTable A m root l) (hnew : newSize ≤ userEnd) :
    Sat (rollback root oldSize newSize env m) (fun _ m' => Rolled A m m' root oldSize newSize)
      (fun _ _ => False) (fun _ => False) :=
  Sat.seq ((deallocUser_spec h hnew).expect fun _ _ he => he) fun _ _ hm => Sat.pure hm.2

/-- Addresses outside the range were the same before. -/
theorem Rolled.of_outside {m₀ : Mem} {oldSize newSize : Nat} (h : Rolled A m m' root oldSize newSize)
    (hsame : Same A m₀ m) (hview : ∀ v, v < userEnd →
      ¬(pageRoundUp oldSize ≤ v ∧ v < pageRoundUp newSize) →
      m.entryFor root v = m₀.entryFor root v) : Rolled A m₀ m' root oldSize newSize := by
  obtain ⟨l', hown, hsame', hv'⟩ := h
  refine ⟨l', hown, hsame.trans hsame', fun v hv => ?_⟩
  rw [hv' v hv]
  split
  · rfl
  · next hout => exact hview v hv hout

/-- The loop of `alloc_user`, from some page of the range on. -/
theorem allocPages_spec {oldSize newSize : Nat} {flags : PageFlags} (hnew : newSize ≤ userEnd)
    {vs : List Nat} (hvs : ∀ v ∈ vs, v % pageSize = 0 ∧ pageRoundUp oldSize ≤ v ∧
      v < pageRoundUp newSize) :
    ∀ {m : Mem} {l : List Frame}, OwnTable A m root l →
      Sat (allocPages root oldSize newSize flags vs env m)
        (fun _ m' => ∃ l', OwnTable A m' root l' ∧ Same A m m' ∧
          ∀ v, v < userEnd → if v / pageSize * pageSize ∈ vs
            then Granted m' root flags v
            else m'.entryFor root v = m.entryFor root v)
        (fun _ m' => Rolled A m m' root oldSize newSize) (fun _ => False) := by
  have hend := pageRoundUp_userEnd hnew
  induction vs with
  | nil =>
      intro m l h
      exact Sat.pure ⟨l, h, Same.refl, fun v _ => by simp⟩
  | cons va vs ih =>
      intro m l h
      obtain ⟨hmod, hlo, hhi⟩ := hvs va List.mem_cons_self
      have hva : va < userEnd := Nat.lt_of_lt_of_le hhi hend
      refine Sat.seq h.alloc fun r m₁ hr => ?_
      cases r with
      | none =>
          have hview : ∀ v, v < userEnd → m₁.entryFor root v = m.entryFor root v :=
            fun v hv => entryFor_congr (fun g _ => by rw [hr.2]) hv
          refine Sat.bind (rollback_spec hr.1 hnew) (fun _ _ hf => hf.elim) fun _ m₂ hm₂ => ⟨?_⟩
          exact hm₂.of_outside (fun g _ => by rw [hr.2]) fun v hv _ => hview v hv
      | some page =>
          obtain ⟨l₁, hg⟩ := hr
          have hview : ∀ v, v < userEnd → m₁.entryFor root v = m.entryFor root v :=
            fun v hv => entryFor_congr hg.nodes hv
          refine Sat.seq (Sat.onErr (mapTo_user hg.own hva hg.mem hg.notMem hg.out) ?_) ?_
          · rintro e m₂ ⟨l₂, hown₂, hsame₂, -, -, hview₂⟩
            refine (rollback_spec hown₂ hnew).imp (fun _ m₃ hm₃ => ?_) (fun _ _ hf => hf.elim)
              (fun _ hx => hx)
            exact hm₃.of_outside (hg.same.trans hsame₂) fun v hv _ =>
              (hview₂ v hv).trans (hview v hv)
          · rintro - m₂ ⟨l₂, hown₂, hsame₂, -, hview₂⟩
            refine (ih (fun v hv => hvs v (List.mem_cons_of_mem va hv)) hown₂).imp ?_ ?_
              (fun _ hx => hx)
            · rintro - m₃ ⟨l₃, hown₃, hsame₃, hview₃⟩
              refine ⟨l₃, hown₃, (hg.same.trans hsame₂).trans hsame₃, fun v hv => ?_⟩
              have h₂ := hview₂ v hv
              have h₃ := hview₃ v hv
              by_cases hin : v / pageSize * pageSize ∈ vs
              · rw [if_pos hin] at h₃
                rw [if_pos (List.mem_cons_of_mem va hin)]
                exact h₃
              · rw [if_neg hin] at h₃
                by_cases hpg : v / pageSize = va / pageSize
                · rw [if_pos hpg] at h₂
                  rw [if_pos (List.mem_cons.mpr (.inl ?_)), Granted, h₃, h₂]
                  · exact ⟨page, rfl⟩
                  · rw [hpg]
                    simp only [pageSize] at hmod ⊢
                    omega
                · rw [if_neg hpg] at h₂
                  rw [if_neg, h₃, h₂, hview v hv]
                  rintro hmem
                  rcases List.mem_cons.mp hmem with hmem | hmem
                  · refine hpg ?_
                    simp only [pageSize] at hmem ⊢
                    omega
                  · exact hin hmem
            · intro _ m₃ hm₃
              refine hm₃.of_outside (hg.same.trans hsame₂) fun v hv hout => ?_
              have hpg : v / pageSize ≠ va / pageSize := by
                intro hpg
                have hmod' := pageRoundUp_mod newSize
                simp only [pageSize] at hpg hmod hmod'
                omega
              rw [hview₂ v hv, if_neg hpg, hview v hv]

theorem mem_stepBy_pages {a b : Nat} (ha : a % pageSize = 0) :
    va ∈ stepBy a b pageSize ↔ va % pageSize = 0 ∧ a ≤ va ∧ va < b := by
  have hround : a / pageSize * pageSize = a := by
    simp only [pageSize] at ha ⊢
    omega
  have h : va ∈ stepBy (a / pageSize * pageSize) b pageSize ↔ _ := mem_stepBy (by decide)
  rw [hround] at h
  rw [h]
  simp only [pageSize] at ha ⊢
  omega

/-- `alloc_user`: the range is mapped, or rolled back. -/
theorem allocUser_spec {oldSize newSize : Nat} {flags : PageFlags} (h : OwnTable A m root l) :
    Sat (allocUser root oldSize newSize flags env m)
      (fun r m' => r = max oldSize newSize ∧ newSize ≤ userEnd ∧
        ∃ l', OwnTable A m' root l' ∧ Same A m m' ∧
          ∀ v, v < userEnd → if pageRoundUp oldSize ≤ v ∧ v < pageRoundUp newSize
            then Granted m' root flags v
            else m'.entryFor root v = m.entryFor root v)
      (fun _ m' => (userEnd < newSize ∧ m' = m) ∨
        (newSize ≤ userEnd ∧ Rolled A m m' root oldSize newSize))
      (fun _ => False) := by
  unfold allocUser
  refine Sat.ite (fun hbig => ⟨.inl ⟨hbig, rfl⟩⟩) fun hsmall => ?_
  have hnew : newSize ≤ userEnd := Nat.not_lt.mp hsmall
  refine Sat.ite (fun hle => Sat.pure ⟨(Nat.max_eq_left hle).symm, hnew, l, h, Same.refl,
    fun v _ => ?_⟩) fun hlt => ?_
  · have := pageRoundUp_mono hle
    rw [if_neg (by omega)]
  · have hmem : ∀ v, v ∈ stepBy (pageRoundUp oldSize) (pageRoundUp newSize) pageSize ↔ _ := fun v =>
      mem_stepBy_pages (pageRoundUp_mod oldSize)
    refine Sat.bind (allocPages_spec hnew (fun v hv => (hmem v).mp hv) h)
      (fun _ m' hm' => .inr ⟨hnew, hm'⟩) fun _ m' hm' => Sat.pure ?_
    obtain ⟨l', hown, hsame, hview⟩ := hm'
    refine ⟨(Nat.max_eq_right (Nat.le_of_not_le hlt)).symm, hnew, l', hown, hsame, fun v hv => ?_⟩
    have hin : v / pageSize * pageSize ∈ stepBy (pageRoundUp oldSize) (pageRoundUp newSize) pageSize ↔
        pageRoundUp oldSize ≤ v ∧ v < pageRoundUp newSize := by
      have h₁ := pageRoundUp_mod oldSize
      have h₂ := pageRoundUp_mod newSize
      rw [hmem]
      simp only [pageSize] at h₁ h₂ ⊢
      omega
    have := hview v hv
    simp only [hin] at this
    exact this

end Rxv64.Vm
