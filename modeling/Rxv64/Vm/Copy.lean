import Rxv64.Vm.User

/-!
# Vm.Copy — new tables, copies of tables and writes to user pages

`dup` reads one table and builds another one out of free pages. The table it
reads is somebody else's as far as the new one is concerned, so nothing in it
changes. It panics only where a page it is asked to copy is missing.
-/

namespace Rxv64.Vm

open Radix

variable {A : Set Frame} {m m₀ m' : Mem} {root src dst page : Frame} {l l' : List Frame} {va : Nat}
  {e : Entry} {env : Env} {E : String → Mem → Prop} {X : String → Prop}

/-- The entry of an address is that of its page. -/
theorem entryFor_page {v : Nat} (hva : va < userEnd) (hv : v < userEnd)
    (h : va / pageSize = v / pageSize) : m.entryFor root va = m.entryFor root v := by
  rw [entryFor_eq_view, entryFor_eq_view, Mem.view, Mem.view, (digits_four hva hv).mpr h]

theorem isPresent_entryFor (h : m.entryFor root va = some e) : e.isPresent = true := by
  unfold Mem.entryFor at h
  obtain ⟨p3, -, h⟩ := Option.bind_eq_some_iff.mp h
  obtain ⟨p2, -, h⟩ := Option.bind_eq_some_iff.mp h
  obtain ⟨p1, -, h⟩ := Option.bind_eq_some_iff.mp h
  unfold Mem.entry at h
  split at h
  · next hp => exact Option.some.inj h ▸ hp
  · cases h

/-- A new table: its user half is empty. -/
theorem dupKern_spec (h : Pool A m l) :
    Sat (dupKern src env m) (fun r m' => match r with
      | none => Pool A m' l ∧ Same A m m'
      | some root => ∃ l', l = root :: l' ∧ OwnTable A m' root l' ∧ Same A m m' ∧
          ∀ v, v < userEnd → m'.entryFor root v = none) E X := by
  refine Sat.seq h.alloc fun r m₁ hr => ?_
  cases r with
  | none => exact Sat.pure ⟨hr.1, fun g _ => by rw [hr.2]⟩
  | some g =>
      obtain ⟨l', rfl, hpool, hpages⟩ := hr
      have hgl : g ∉ l' := (List.nodup_cons.mp h.nodup).1
      have hgA : g ∈ A := h.mem g List.mem_cons_self
      refine Sat.modify (Sat.pure ⟨l', rfl, ?_⟩)
      generalize hp : (fun k : Fin 512 => if 256 ≤ k.val then m₁.pages src k else m₁.pages g k) = p
      have hnone : ∀ k, UserHalf k → (m₁.setPage g p).heap g k = none := by
        intro k hk
        have hk : k.val < 256 := hk
        have hzero : (m₁.setPage g p).pages g k = 0 := by
          simp only [Mem.setPage, Function.update_self, ← hp, if_neg (Nat.not_le.mpr hk), hpages]
          rfl
        simp only [Mem.heap, hzero, Entry.isPresent_zero]
        rfl
      have hpool' : Pool A (m₁.setPage g p) l' := hpool.frame rfl fun y hy => setPage_pages (by
        rintro rfl
        exact hgl hy)
      have hfoot := foot_single (n := 4) (.inr hnone)
      refine ⟨⟨hpool', tree_single (.inr hnone), ?_, ?_⟩, ?_, fun v hv => ?_⟩
      · rw [hfoot]
        rintro y rfl
        exact hgA
      · rw [hfoot]
        rintro y rfl
        exact hgl
      · have hsame : Same A m m₁ := by
          intro y hy
          rw [hpages]
          refine Function.update_of_ne ?_ _ _
          rintro rfl
          exact hy hgA
        exact hsame.trans (same_setPage hgA)
      · rw [entryFor_eq_view]
        exact view_none (hnone _ (userHalf_index hv))

/-- `copy_region`: the pages listed are copied, with their flags. -/
theorem copyRegion_spec (hsrc : ∀ g ∈ m₀.nodes 4 UserHalf src, g ∉ A) {ks : List Nat}
    (hks : ∀ k ∈ ks, k % pageSize = 0 ∧ k < userEnd) :
    ∀ {m : Mem} {l : List Frame}, OwnTable A m dst l → Same A m₀ m →
      Sat (copyRegion src dst ks env m)
        (fun ok m' => ∃ l', OwnTable A m' dst l' ∧ Same A m m' ∧
          (ok = true → ∀ v, v < userEnd → if v / pageSize * pageSize ∈ ks
            then ∃ e page, m₀.entryFor src v = some e ∧
              m'.entryFor dst v = some (Entry.new (physAddr page) e.flags).enable
            else m'.entryFor dst v = m.entryFor dst v))
        (fun _ _ => False) (fun _ => ∃ k ∈ ks, m₀.entryFor src k = none) := by
  induction ks with
  | nil =>
      intro m l h _
      exact Sat.pure ⟨l, h, Same.refl, fun _ v _ => by simp⟩
  | cons k ks ih =>
      intro m l h hm
      obtain ⟨hmod, hk⟩ := hks k List.mem_cons_self
      have hread : m.entryFor src k = m₀.entryFor src k :=
        entryFor_congr (fun g hg => hm g (hsrc g hg)) hk
      refine Sat.gets ?_
      cases he : m.entryFor src k with
      | none => exact Sat.abort ⟨k, List.mem_cons_self, hread ▸ he⟩
      | some e =>
          refine Sat.assert (fun hn => absurd (isPresent_entryFor he) hn) fun _ => ?_
          refine Sat.seq h.alloc fun r m₁ hr => ?_
          cases r with
          | none => exact Sat.pure ⟨l, hr.1, fun g _ => by rw [hr.2], fun hok => by cases hok⟩
          | some page =>
              obtain ⟨l₁, hg⟩ := hr
              -- the contents of the new page matter to nobody yet
              have hown : OwnTable A (m₁.setPage page (m₁.pages e.frame)) dst l₁ := by
                refine hg.own.frame (hg.own.pool.frame rfl fun y hy => setPage_pages ?_)
                  (fun y hy => setPage_pages ?_) hg.own.apart
                · rintro rfl
                  exact hg.notMem hy
                · rintro rfl
                  exact hg.out (nodes_subset_foot hy)
              have hnodes : ∀ y ∈ m₁.nodes 4 UserHalf dst,
                  (m₁.setPage page (m₁.pages e.frame)).pages y = m₁.pages y := fun y hy => by
                refine setPage_pages ?_
                rintro rfl
                exact hg.out (nodes_subset_foot hy)
              have hout : page ∉ (m₁.setPage page (m₁.pages e.frame)).foot 4 UserHalf dst := by
                rw [foot_frame hnodes]
                exact hg.out
              have hsame : Same A m (m₁.setPage page (m₁.pages e.frame)) :=
                hg.same.trans (same_setPage hg.mem)
              have hview : ∀ v, v < userEnd →
                  (m₁.setPage page (m₁.pages e.frame)).entryFor dst v = m.entryFor dst v := fun v hv =>
                (entryFor_congr hnodes hv).trans (entryFor_congr hg.nodes hv)
              refine Sat.modify ?_
              generalize m₁.setPage page (m₁.pages e.frame) = m₂ at *
              refine Sat.seq (Sat.attempt (mapTo_user hown hk hg.mem hg.notMem hout)) ?_
              rintro (err | u) m₃ h₃
              · obtain ⟨l₃, hown₃, hsame₃, hless, hout₃, -⟩ := h₃
                have hl₃ : page ∉ l₃ := fun hp => hg.notMem (hless page hp)
                exact Sat.modify (Sat.pure ⟨page :: l₃, hown₃.put hg.mem hl₃ hout₃,
                  (hsame.trans hsame₃).trans (same_put hg.mem), fun hok => by cases hok⟩)
              · obtain ⟨l₃, hown₃, hsame₃, -, hview₃⟩ := h₃
                have hm₃ := hsame.trans hsame₃
                refine (ih (fun k hk => hks k (List.mem_cons_of_mem _ hk)) hown₃ (hm.trans hm₃)).imp
                  ?_ (fun _ _ he => he) (fun _ ⟨k, hk, hn⟩ => ⟨k, List.mem_cons_of_mem _ hk, hn⟩)
                rintro ok m₄ ⟨l₄, hown₄, hsame₄, hview₄⟩
                refine ⟨l₄, hown₄, hm₃.trans hsame₄, fun hok v hv => ?_⟩
                have h₄ := hview₄ hok v hv
                by_cases hin : v / pageSize * pageSize ∈ ks
                · rw [if_pos hin] at h₄
                  rw [if_pos (List.mem_cons_of_mem k hin)]
                  exact h₄
                · rw [if_neg hin, hview₃ v hv] at h₄
                  by_cases hpg : v / pageSize = k / pageSize
                  · rw [if_pos hpg] at h₄
                    rw [if_pos (List.mem_cons.mpr (.inl ?_)), entryFor_page hv hk hpg, ← hread, he]
                    · exact ⟨e, page, rfl, h₄⟩
                    · rw [hpg]
                      simp only [pageSize] at hmod ⊢
                      omega
                  · rw [if_neg hpg, hview v hv] at h₄
                    rw [if_neg, h₄]
                    intro hmem
                    rcases List.mem_cons.mp hmem with hmem | hmem
                    · refine hpg ?_
                      simp only [pageSize] at hmem ⊢
                      omega
                    · exact hin hmem

/-- The pages that `dup(size)` copies. -/
def Copied (size va : Nat) : Prop := va < pageRoundUp size ∨ (userStack ≤ va ∧ va < userEnd)

/-- A page of the new table: a page of the source with its flags, or none. -/
structure CopyOf (m m' : Mem) (src table : Frame) (size v : Nat) : Prop where
  copied : Copied size v → ∃ e page, m.entryFor src v = some e ∧
    m'.entryFor table v = some (Entry.new (physAddr page) e.flags).enable
  others : ¬Copied size v → m'.entryFor table v = none

theorem mem_stepBy_zero {size v : Nat} :
    v / pageSize * pageSize ∈ stepBy 0 size pageSize ↔ v < pageRoundUp size := by
  rw [mem_stepBy_pages (by decide)]
  simp only [pageSize, pageRoundUp]
  omega

theorem mem_stepBy_stack {v : Nat} :
    v / pageSize * pageSize ∈ stepBy userStack userEnd pageSize ↔ userStack ≤ v ∧ v < userEnd := by
  rw [mem_stepBy_pages (by decide)]
  simp only [pageSize, userStack, userEnd]
  omega

/-- `dup`: a copy of everything asked for, or nothing. -/
theorem dup_spec {size : Nat} (hsize : size ≤ userEnd) (h : Pool A m l)
    (hsrc : ∀ g ∈ m.nodes 4 UserHalf src, g ∉ A) :
    Sat (dup src size env m) (fun r m' => match r with
      | none => ∃ l', Pool A m' l' ∧ Same A m m'
      | some table => ∃ l', OwnTable A m' table l' ∧ Same A m m' ∧
          ∀ v, v < userEnd → CopyOf m m' src table size v)
      (fun _ _ => False)
      (fun _ => ∃ v, v < userEnd ∧ Copied size v ∧ m.entryFor src v = none) := by
  have hlow : ∀ k ∈ stepBy 0 size pageSize, k % pageSize = 0 ∧ k < userEnd := fun k hk => by
    obtain ⟨h₁, -, h₂⟩ := (mem_stepBy_pages (by decide)).mp hk
    exact ⟨h₁, Nat.lt_of_lt_of_le h₂ hsize⟩
  have hstack : ∀ k ∈ stepBy userStack userEnd pageSize, k % pageSize = 0 ∧ k < userEnd :=
    fun k hk => by
      obtain ⟨h₁, -, h₂⟩ := (mem_stepBy_pages (by decide)).mp hk
      exact ⟨h₁, h₂⟩
  -- a table that is not finished is dropped
  have hdrop : ∀ {m₁ : Mem} {table : Frame} {l₁ : List Frame}, OwnTable A m₁ table l₁ → Same A m m₁ →
      Sat ((do dropTable table; pure none : VmM (Option Frame)) env m₁) (fun r m' => match r with
        | none => ∃ l', Pool A m' l' ∧ Same A m m'
        | some table => ∃ l', OwnTable A m' table l' ∧ Same A m m' ∧
            ∀ v, v < userEnd → CopyOf m m' src table size v)
        (fun _ _ => False)
        (fun _ => ∃ v, v < userEnd ∧ Copied size v ∧ m.entryFor src v = none) := by
    intro m₁ table l₁ hown hsame
    refine Sat.seq ((dropTable_spec hown).imp (fun _ _ hq => hq) (fun _ _ he => he)
      (fun _ hx => hx.elim)) fun _ m₂ ⟨l₂, hpool, hsame₂⟩ => Sat.pure ⟨l₂, hpool, hsame.trans hsame₂⟩
  refine Sat.seq (dupKern_spec h) fun r m₁ hr => ?_
  cases r with
  | none => exact Sat.pure ⟨l, hr⟩
  | some table =>
      obtain ⟨l₁, -, hown₁, hsame₁, hview₁⟩ := hr
      refine Sat.seq ((copyRegion_spec hsrc hlow hown₁ hsame₁).imp (fun _ _ hq => hq)
        (fun _ _ he => he) ?_) ?_
      · rintro - ⟨k, hk, hn⟩
        refine ⟨k, (hlow k hk).2, .inl ?_, hn⟩
        exact Nat.lt_of_lt_of_le ((mem_stepBy_pages (by decide)).mp hk).2.2 (le_pageRoundUp size)
      rintro ok m₂ ⟨l₂, hown₂, hsame₂, hview₂⟩
      have hm₂ := hsame₁.trans hsame₂
      cases ok with
      | false => exact hdrop hown₂ hm₂
      | true =>
          refine Sat.seq ((copyRegion_spec hsrc hstack hown₂ hm₂).imp (fun _ _ hq => hq)
            (fun _ _ he => he) ?_) ?_
          · rintro - ⟨k, hk, hn⟩
            exact ⟨k, (hstack k hk).2, .inr ((mem_stepBy_pages (by decide)).mp hk).2, hn⟩
          rintro ok m₃ ⟨l₃, hown₃, hsame₃, hview₃⟩
          have hm₃ := hm₂.trans hsame₃
          cases ok with
          | false => exact hdrop hown₃ hm₃
          | true =>
              refine Sat.pure ⟨l₃, hown₃, hm₃, fun v hv => ?_⟩
              have h₃ := hview₃ rfl v hv
              have h₂ := hview₂ rfl v hv
              simp only [mem_stepBy_stack] at h₃
              simp only [mem_stepBy_zero] at h₂
              by_cases hst : userStack ≤ v ∧ v < userEnd
              · rw [if_pos hst] at h₃
                exact ⟨fun _ => h₃, fun hn => absurd (.inr hst) hn⟩
              · rw [if_neg hst] at h₃
                refine ⟨fun hcopied => ?_, fun hn => ?_⟩
                · rw [if_pos (hcopied.resolve_right hst)] at h₂
                  rw [h₃]
                  exact h₂
                · rw [if_neg fun hlow => hn (.inl hlow)] at h₂
                  rw [h₃, h₂, hview₁ v hv]

/-! ## Writes to user pages -/

/-- A user page is a frame of the tree and not one of its tables. -/
theorem Own.leaf (h : OwnTable A m root l) (hva : va < userEnd) (he : m.entryFor root va = some e) :
    e.frame ∈ m.foot 4 UserHalf root ∧ e.frame ∉ m.nodes 4 UserHalf root := by
  have hwalk : walk Entry.frame m.heap root (digits 4 va) = some e.frame := by
    rw [entryFor_eq_view] at he
    rw [walk, if_neg (by simp [digits])]
    exact congrArg (Option.map Entry.frame) he
  exact ⟨walk_mem_foot (length_digits 4 va).le (head_userHalf hva) hwalk,
    h.tree.leaf_notMem_nodes (length_digits 4 va) (head_userHalf hva) hwalk⟩

/-- Nothing but the data of user pages has changed. -/
def Poked (A : Set Frame) (m m' : Mem) (root : Frame) (l : List Frame) : Prop :=
  OwnTable A m' root l ∧ Same A m m' ∧ ∀ v, v < userEnd → m'.entryFor root v = m.entryFor root v

theorem Poked.refl (h : OwnTable A m root l) : Poked A m m root l := ⟨h, Same.refl, fun _ _ => rfl⟩

theorem Poked.trans {m'' : Mem} (h : Poked A m m' root l) (h' : Poked A m' m'' root l) :
    Poked A m m'' root l :=
  ⟨h'.1, h.2.1.trans h'.2.1, fun v hv => (h'.2.2 v hv).trans (h.2.2 v hv)⟩

/-- User data is not looked at. -/
theorem Own.poke (h : OwnTable A m root l) (hva : va < userEnd) (he : m.entryFor root va = some e)
    (p : Page) : Poked A m (m.setPage e.frame p) root l := by
  obtain ⟨hin, hout⟩ := h.leaf hva he
  have hnodes : ∀ g ∈ m.nodes 4 UserHalf root, (m.setPage e.frame p).pages g = m.pages g := by
    intro g hg
    refine setPage_pages ?_
    rintro rfl
    exact hout hg
  refine ⟨h.frame (h.pool.frame rfl fun g hg => setPage_pages ?_) hnodes h.apart,
    same_setPage (h.sub _ hin), fun v hv => entryFor_congr hnodes hv⟩
  rintro rfl
  exact h.apart _ hin hg

/-- `user_addr_to_kern_page` reads. -/
theorem userAddrToKernPage_spec :
    Sat (userAddrToKernPage root va env m)
      (fun g m' => m' = m ∧ ∃ e, m.entryFor root va = some e ∧ g = e.frame)
      (fun _ m' => m' = m) X := by
  refine Sat.gets ?_
  cases he : m.entryFor root va with
  | none => exact ⟨rfl⟩
  | some e => exact Sat.ite (fun _ => ⟨⟨rfl, e, rfl, rfl⟩⟩) fun _ => ⟨rfl⟩

theorem copyOutLoop_spec (fuel : Nat) :
    ∀ {m : Mem} {data : List (BitVec 8)} {va : Nat}, OwnTable A m root l →
      va + data.length ≤ userEnd →
      Sat (copyOutLoop root fuel data va env m) (fun _ m' => Poked A m m' root l)
        (fun _ m' => Poked A m m' root l) X := by
  induction fuel with
  | zero => exact fun h _ => Sat.pure (.refl h)
  | succ fuel ih =>
      intro m data va h hlen
      refine Sat.ite (fun _ => Sat.pure (.refl h)) fun hne => ?_
      have hpos : 0 < data.length := List.length_pos_iff.mpr hne
      refine Sat.bind userAddrToKernPage_spec ?_ ?_
      · rintro - m' rfl
        exact .refl h
      · rintro g m' ⟨rfl, e, he, rfl⟩
        have hva : pageRoundDown va < userEnd := by
          simp only [pageRoundDown, pageSize]
          omega
        have hpoke := h.poke hva he ((m'.pages e.frame).blit (va - pageRoundDown va)
          (data.take (min (pageSize - (va - pageRoundDown va)) data.length)))
        refine Sat.modify ((ih hpoke.1 ?_).imp (fun _ _ hq => hpoke.trans hq)
          (fun _ _ hq => hpoke.trans hq) (fun _ hx => hx))
        simp only [List.length_drop, pageRoundDown, pageSize, userEnd] at hlen hva ⊢
        omega

theorem copyOut_spec {data : List (BitVec 8)} (h : OwnTable A m root l)
    (hlen : va + data.length ≤ userEnd) :
    Sat (copyOut root data va env m) (fun _ m' => Poked A m m' root l)
      (fun _ m' => Poked A m m' root l) X :=
  copyOutLoop_spec _ h hlen

end Rxv64.Vm
