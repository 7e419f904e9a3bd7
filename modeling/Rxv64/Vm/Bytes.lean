import Mathlib.Data.List.GetD
import Mathlib.Tactic.IntervalCases
import Rxv64.Vm.Exec
import Rxv64.Vm.Tables

/-!
# Vm.Bytes — user memory byte by byte

Pages are words, user memory is bytes. A byte of user memory is found through
the page table; two addresses that differ in their page have different frames,
so a write changes just the bytes it is for. New pages are zero, and mapping
them changes no other user page.
-/

namespace Rxv64.Vm

open Radix

variable {A : Set Frame} {m m' : Mem} {root page : Frame} {l l' : List Frame} {va v : Nat}
  {e e' : Entry} {env : Env} {E : String → Mem → Prop} {X : String → Prop}

/-! ## Bytes of a page -/

/-- The bits of a word made of eight bytes. -/
theorem getLsbD_word (c : Nat → BitVec 8) {j i : Nat} (hj : j < 8) (hi : i < 8) :
    ((List.range 8).foldr (fun i (w : BitVec 64) => (w <<< 8) ||| (c i).setWidth 64) 0).getLsbD
      (8 * j + i) = (c j).getLsbD i := by
  simp only [List.range, List.range.loop, List.foldr, BitVec.getLsbD_or, BitVec.getLsbD_shiftLeft,
    BitVec.getLsbD_setWidth]
  interval_cases j <;> interval_cases i <;> simp

theorem Page.getByte_ofBytes (b : Nat → BitVec 8) {off : Nat} (h : off < pageSize) :
    (Page.ofBytes b).getByte off = b off := by
  have hk : off / 8 % 512 = off / 8 := Nat.mod_eq_of_lt (by simp only [pageSize] at h; omega)
  refine BitVec.eq_of_getLsbD_eq fun i hi => ?_
  rw [Page.getByte, BitVec.getLsbD_extractLsb', Page.ofBytes]
  simp only [hk, hi, decide_true, Bool.true_and]
  rw [getLsbD_word (fun i => b (8 * (off / 8) + i)) (Nat.mod_lt _ (by decide)) hi, Nat.div_add_mod]

theorem Page.getByte_zero (off : Nat) : Page.zero.getByte off = 0 := by
  unfold Page.getByte Page.zero
  exact BitVec.extractLsb'_zero

theorem Page.getByte_blit (p : Page) (data : List (BitVec 8)) {start off : Nat}
    (h : off < pageSize) : (p.blit start data).getByte off =
      if start ≤ off ∧ off < start + data.length then data.getD (off - start) 0
      else p.getByte off := by
  rw [Page.blit, Page.getByte_ofBytes _ h]

/-! ## Bytes of user memory -/

theorem setPage_self {g : Frame} {p : Page} : (m.setPage g p).pages g = p :=
  Function.update_self ..

/-- The byte at a user address. -/
def Mem.byte (m : Mem) (root : Frame) (v : Nat) : Option (BitVec 8) :=
  (m.entryFor root v).map fun e => (m.pages e.frame).getByte (v % pageSize)

theorem walk_entryFor (he : m.entryFor root va = some e) :
    walk Entry.frame m.heap root (digits 4 va) = some e.frame := by
  rw [entryFor_eq_view] at he
  rw [walk, if_neg (by simp [digits])]
  exact congrArg (Option.map Entry.frame) he

/-- Different user pages have different frames. -/
theorem Own.page_of_frame (h : OwnTable A m root l) (hva : va < userEnd) (hv : v < userEnd)
    (he : m.entryFor root va = some e) (he' : m.entryFor root v = some e')
    (hf : e.frame = e'.frame) : va / pageSize = v / pageSize := by
  have hw := walk_entryFor he
  rw [hf] at hw
  exact (digits_four hva hv).mp (h.tree.walk_inj (length_digits 4 va).le (length_digits 4 v).le
    (head_userHalf hva) (head_userHalf hv) hw (walk_entryFor he'))

/-- A write to the page of `va`, seen at every address. -/
theorem Own.byte_poke (h : OwnTable A m root l) (hva : va < userEnd)
    (he : m.entryFor root va = some e) (off : Nat) (data : List (BitVec 8)) (hv : v < userEnd) :
    (m.setPage e.frame ((m.pages e.frame).blit off data)).byte root v =
      if v / pageSize = va / pageSize ∧ off ≤ v % pageSize ∧ v % pageSize < off + data.length then
        some (data.getD (v % pageSize - off) 0)
      else m.byte root v := by
  have hmod : v % pageSize < pageSize := Nat.mod_lt _ (by decide)
  rw [Mem.byte, Mem.byte, (h.poke hva he _).2.2 v hv]
  by_cases hpg : v / pageSize = va / pageSize
  · rw [entryFor_page hv hva hpg, he, Option.map_some, Option.map_some, setPage_self,
      Page.getByte_blit _ _ hmod]
    simp only [hpg, true_and]
    split <;> rfl
  · rw [if_neg fun hn => hpg hn.1]
    cases he' : m.entryFor root v with
    | none => rfl
    | some e' =>
        have hne : e'.frame ≠ e.frame := fun hf => hpg (h.page_of_frame hv hva he' he hf)
        rw [Option.map_some, Option.map_some, setPage_pages hne]

/-- `data` has been written at `va`. -/
def Wrote (A : Set Frame) (m m' : Mem) (root : Frame) (l : List Frame) (va : Nat)
    (data : List (BitVec 8)) : Prop :=
  Poked A m m' root l ∧ ∀ v, v < userEnd → m'.byte root v =
    if va ≤ v ∧ v < va + data.length then some (data.getD (v - va) 0) else m.byte root v

theorem Wrote.nil (h : OwnTable A m root l) : Wrote A m m root l va [] :=
  ⟨.refl h, fun v _ => by rw [if_neg (by simp)]⟩

/-- One page and the pages after it. -/
theorem Wrote.append {m₁ : Mem} {xs ys : List (BitVec 8)} (h : Wrote A m m₁ root l va xs)
    (h' : Wrote A m₁ m' root l (va + xs.length) ys) : Wrote A m m' root l va (xs ++ ys) := by
  refine ⟨h.1.trans h'.1, fun v hv => ?_⟩
  rw [h'.2 v hv, h.2 v hv, List.length_append]
  by_cases hys : va + xs.length ≤ v ∧ v < va + xs.length + ys.length
  · rw [if_pos hys, if_pos (by omega), List.getD_append_right _ _ _ _ (by omega),
      show v - va - xs.length = v - (va + xs.length) by omega]
  · rw [if_neg hys]
    by_cases hxs : va ≤ v ∧ v < va + xs.length
    · rw [if_pos hxs, if_pos (by omega), List.getD_append _ _ _ _ (by omega)]
    · rw [if_neg hxs, if_neg (by omega)]

/-- A write that stays in one page. -/
theorem Own.wrote (h : OwnTable A m root l) {va₀ : Nat} (he : m.entryFor root va₀ = some e)
    (hva₀ : va₀ = pageRoundDown va) (hva : va < userEnd) {data : List (BitVec 8)}
    (hlen : va - va₀ + data.length ≤ pageSize) :
    Wrote A m (m.setPage e.frame ((m.pages e.frame).blit (va - va₀) data)) root l va data := by
  have hva₀' : va₀ < userEnd := by
    rw [hva₀, pageRoundDown]
    have := Nat.div_mul_le_self va pageSize
    omega
  refine ⟨h.poke hva₀' he _, fun v hv => ?_⟩
  rw [h.byte_poke hva₀' he _ _ hv]
  simp only [pageRoundDown, pageSize] at hva₀ hlen ⊢
  by_cases hin : va ≤ v ∧ v < va + data.length
  · rw [if_pos hin, if_pos (by omega), show v % 4096 - (va - va₀) = v - va by omega]
  · rw [if_neg hin, if_neg (by omega)]

/-- `copy_out` page by page. -/
theorem copyOutLoop_bytes (fuel : Nat) :
    ∀ {m : Mem} {data : List (BitVec 8)} {va : Nat}, OwnTable A m root l →
      va + data.length ≤ userEnd → data.length ≤ fuel →
      Sat (copyOutLoop root fuel data va env m) (fun _ m' => Wrote A m m' root l va data)
        (fun _ m' => Poked A m m' root l) X := by
  induction fuel with
  | zero =>
      intro m data va h _ hfuel
      rw [List.length_eq_zero_iff.mp (Nat.le_zero.mp hfuel)]
      exact Sat.pure (.nil h)
  | succ fuel ih =>
      intro m data va h hlen hfuel
      refine Sat.ite (fun hnil => Sat.pure (hnil ▸ .nil h)) fun hne => ?_
      have hpos : 0 < data.length := List.length_pos_iff.mpr hne
      refine Sat.bind userAddrToKernPage_spec ?_ ?_
      · rintro - m' rfl
        exact .refl h
      · rintro g m' ⟨rfl, e, he, rfl⟩
        have hoff : va - pageRoundDown va < pageSize := by
          simp only [pageRoundDown, pageSize]
          omega
        dsimp only
        generalize hn : min (pageSize - (va - pageRoundDown va)) data.length = n
        have htake : (data.take n).length = n := by
          rw [List.length_take]
          omega
        have hone : Wrote A m' _ root l va (data.take n) := h.wrote he rfl (by omega) (by omega)
        refine Sat.modify ((ih hone.1.1 ?_ ?_).imp (fun _ m₂ hrest => ?_)
          (fun _ _ hq => hone.1.trans hq) (fun _ hx => hx))
        · simp only [List.length_drop, pageRoundDown, pageSize, userEnd] at hn hlen ⊢
          omega
        · rw [List.length_drop]
          omega
        · rw [← List.take_append_drop n data]
          refine hone.append ?_
          rw [htake]
          by_cases hlast : data.length ≤ n
          · rw [List.drop_eq_nil_of_le hlast] at hrest ⊢
            exact ⟨hrest.1, fun v hv => by
              rw [hrest.2 v hv, if_neg (by simp), if_neg (by simp)]⟩
          · have hnext : va + n = pageRoundDown va + pageSize := by
              simp only [pageRoundDown, pageSize] at hn hoff ⊢
              omega
            rw [hnext]
            exact hrest

theorem copyOut_bytes {data : List (BitVec 8)} (h : OwnTable A m root l)
    (hlen : va + data.length ≤ userEnd) :
    Sat (copyOut root data va env m) (fun _ m' => Wrote A m m' root l va data)
      (fun _ m' => Poked A m m' root l) X :=
  copyOutLoop_bytes data.length h hlen (Nat.le_refl _)

/-- A page that user code can reach is found. -/
theorem userAddrToKernPage_returns (h : UserPage m root va) :
    Sat (userAddrToKernPage root va env m)
      (fun g m' => m' = m ∧ ∃ e, m.entryFor root va = some e ∧ g = e.frame) E X := by
  obtain ⟨e, he, huser⟩ := h
  refine Sat.gets ?_
  rw [he]
  exact Sat.ite (fun _ => Sat.pure ⟨rfl, e, rfl, rfl⟩) fun hno =>
    absurd ⟨isPresent_entryFor he, huser⟩ hno

/-- Where every page can be reached, `copy_out` does not fail. -/
theorem copyOutLoop_returns (fuel : Nat) :
    ∀ {m : Mem} {data : List (BitVec 8)} {va : Nat}, OwnTable A m root l →
      va + data.length ≤ userEnd → (∀ v, va ≤ v → v < va + data.length → UserPage m root v) →
      Sat (copyOutLoop root fuel data va env m) (fun _ _ => True) E X := by
  induction fuel with
  | zero => exact fun _ _ _ => Sat.pure True.intro
  | succ fuel ih =>
      intro m data va h hlen hmap
      refine Sat.ite (fun _ => Sat.pure True.intro) fun hne => ?_
      have hpos : 0 < data.length := List.length_pos_iff.mpr hne
      have hdown : pageRoundDown va < userEnd := by
        simp only [pageRoundDown, pageSize]
        omega
      have hpage : pageRoundDown va / pageSize = va / pageSize := by
        simp only [pageRoundDown, pageSize]
        omega
      have huser : UserPage m root (pageRoundDown va) := by
        unfold UserPage
        rw [entryFor_page hdown (by omega) hpage]
        exact hmap va (Nat.le_refl va) (by omega)
      refine Sat.seq (userAddrToKernPage_returns huser) ?_
      rintro g m' ⟨rfl, e, he, rfl⟩
      have hpoke := h.poke hdown he ((m'.pages e.frame).blit (va - pageRoundDown va)
        (data.take (min (pageSize - (va - pageRoundDown va)) data.length)))
      refine Sat.modify (ih hpoke.1 ?_ fun v hv hvend => ?_)
      · simp only [List.length_drop, pageRoundDown, pageSize, userEnd] at hlen hdown ⊢
        omega
      · rw [List.length_drop] at hvend
        simp only [pageRoundDown, pageSize] at hv hvend
        unfold UserPage
        rw [hpoke.2.2 v (by omega)]
        exact hmap v (by omega) (by omega)

theorem copyOut_returns {data : List (BitVec 8)} (h : OwnTable A m root l)
    (hlen : va + data.length ≤ userEnd)
    (hmap : ∀ v, va ≤ v → v < va + data.length → UserPage m root v) :
    Sat (copyOut root data va env m) (fun _ _ => True) E X := copyOutLoop_returns _ h hlen hmap

/-! ## New pages -/

/-- What `map_to` leaves of user memory: a zero page at `va`, the rest as it was. -/
theorem mapTo_bytes {flags : PageFlags} (h : OwnTable A m root l) (hva : va < userEnd)
    (hA : page ∈ A) (hl : page ∉ l) (hf : page ∉ m.foot 4 UserHalf root)
    (hzero : m.pages page = Page.zero) :
    Sat (mapTo root (physAddr page) va flags env m)
      (fun _ m' => ∃ l', OwnTable A m' root l' ∧ ∀ v, v < userEnd →
        m'.entryFor root v = (if v / pageSize = va / pageSize
          then some (Entry.new (physAddr page) flags).enable else m.entryFor root v) ∧
        m'.byte root v = if v / pageSize = va / pageSize then some 0 else m.byte root v)
      (fun _ _ => True) X := by
  refine ((mapTo_user h hva hA hl hf).and (mapTo_tables (X := X) h.tables
    (userHalf_index hva))).imp ?_
    (fun _ _ _ => True.intro) (fun _ hx => hx.1)
  rintro - m' ⟨⟨l', hown, -, -, hview⟩, l₂, hmap⟩
  refine ⟨l', hown, fun v hv => ⟨hview v hv, ?_⟩⟩
  rw [Mem.byte, hview v hv]
  by_cases hpg : v / pageSize = va / pageSize
  · have hpage : m'.pages page = m.pages page := hmap.same page
      fun hn => hn.elim (fun hn => hf (nodes_subset_foot hn)) hl
    rw [if_pos hpg, if_pos hpg, Option.map_some, Entry.frame_enable, Entry.frame_new, hpage, hzero,
      Page.getByte_zero]
  · rw [if_neg hpg, if_neg hpg, Mem.byte]
    cases he : m.entryFor root v with
    | none => rfl
    | some e =>
        obtain ⟨hin, hout⟩ := h.leaf hv he
        have hpage : m'.pages e.frame = m.pages e.frame := hmap.same e.frame
          fun hn => hn.elim hout (h.apart _ hin)
        rw [Option.map_some, Option.map_some, hpage]

/-- Allocating a page changes no user memory. -/
theorem Own.byte_fetched (h : OwnTable A m root l) {g : Frame}
    (hg : Fetched A m m' 4 UserHalf root l g l') (hv : v < userEnd) :
    m'.entryFor root v = m.entryFor root v ∧ m'.byte root v = m.byte root v := by
  have hview := entryFor_congr hg.nodes hv
  refine ⟨hview, ?_⟩
  rw [Mem.byte, Mem.byte, hview]
  cases he : m.entryFor root v with
  | none => rfl
  | some e =>
      have hne : e.frame ≠ g := by
        rintro rfl
        refine h.apart _ (h.leaf hv he).1 ?_
        rw [hg.list]
        exact List.mem_cons_self
      rw [Option.map_some, Option.map_some, hg.pages _ hne]

/-- The pages `vs` are new, zero and have these flags; the rest is as it was. -/
def Cleared (m m' : Mem) (root : Frame) (flags : PageFlags) (P : Nat → Prop) : Prop :=
  ∀ v, v < userEnd →
    (P v → (∃ page, m'.entryFor root v =
      some (Entry.new (physAddr page) (flags.union .user)).enable) ∧ m'.byte root v = some 0) ∧
    (¬P v → m'.entryFor root v = m.entryFor root v ∧ m'.byte root v = m.byte root v)

theorem allocPages_bytes {oldSize newSize : Nat} {flags : PageFlags} {vs : List Nat}
    (hvs : ∀ v ∈ vs, v % pageSize = 0 ∧ v < userEnd) :
    ∀ {m : Mem} {l : List Frame}, OwnTable A m root l →
      Sat (allocPages root oldSize newSize flags vs env m)
        (fun _ m' => Cleared m m' root flags fun v => v / pageSize * pageSize ∈ vs)
        (fun _ _ => True) (fun _ => True) := by
  induction vs with
  | nil =>
      intro m l h
      exact Sat.pure fun v _ => ⟨fun hin => absurd hin List.not_mem_nil, fun _ => ⟨rfl, rfl⟩⟩
  | cons va vs ih =>
      intro m l h
      obtain ⟨hmod, hva⟩ := hvs va List.mem_cons_self
      refine Sat.seq h.alloc fun r m₁ hr => ?_
      cases r with
      | none => exact Sat.seq (Sat.trivial _) fun _ _ _ => Sat.throw True.intro
      | some page =>
          obtain ⟨l₁, hg⟩ := hr
          refine Sat.seq (Sat.onErr (mapTo_bytes hg.own hva hg.mem hg.notMem hg.out hg.zero)
            fun _ _ _ => Sat.trivial _) ?_
          rintro - m₂ ⟨l₂, hown₂, hmap⟩
          refine (ih (fun v hv => hvs v (List.mem_cons_of_mem va hv)) hown₂).imp (fun _ m₃ hrest => ?_)
            (fun _ _ he => he) (fun _ hx => hx)
          intro v hv
          obtain ⟨hent, hbyte⟩ := hmap v hv
          obtain ⟨hent₁, hbyte₁⟩ := h.byte_fetched hg hv
          obtain ⟨hin, hout⟩ := hrest v hv
          have hpage : v / pageSize * pageSize = va ↔ v / pageSize = va / pageSize := by
            simp only [pageSize] at hmod ⊢
            omega
          refine ⟨fun hmem => ?_, fun hnot => ?_⟩
          · by_cases hrec : v / pageSize * pageSize ∈ vs
            · exact hin hrec
            · have hpg := hpage.mp ((List.mem_cons.mp hmem).resolve_right hrec)
              rw [if_pos hpg] at hent hbyte
              obtain ⟨he, hb⟩ := hout hrec
              exact ⟨⟨page, he.trans hent⟩, hb.trans hbyte⟩
          · have hpg : ¬v / pageSize = va / pageSize := fun hpg =>
              hnot (List.mem_cons.mpr (.inl (hpage.mpr hpg)))
            rw [if_neg hpg] at hent hbyte
            obtain ⟨he, hb⟩ := hout fun hrec => hnot (List.mem_cons_of_mem va hrec)
            exact ⟨he.trans (hent.trans hent₁), hb.trans (hbyte.trans hbyte₁)⟩

/-- **`alloc_user`** maps zero pages with the flags it is given, from the page
behind the old size to that of the new one. -/
theorem allocUser_bytes {oldSize newSize : Nat} {flags : PageFlags} (h : OwnTable A m root l) :
    Sat (allocUser root oldSize newSize flags env m)
      (fun r m' => r = max oldSize newSize ∧ newSize ≤ userEnd ∧
        (∃ l', OwnTable A m' root l' ∧ Same A m m') ∧
        Cleared m m' root flags fun v => pageRoundUp oldSize ≤ v ∧ v < pageRoundUp newSize)
      (fun _ m' => Intact A m m' root) (fun _ => False) := by
  have hbytes : Sat (allocUser root oldSize newSize flags env m)
      (fun _ m' => newSize ≤ userEnd → Cleared m m' root flags fun v =>
        pageRoundUp oldSize ≤ v ∧ v < pageRoundUp newSize)
      (fun _ _ => True) (fun _ => True) := by
    unfold allocUser
    refine Sat.ite (fun _ => ⟨True.intro⟩) fun hsmall => Sat.ite (fun hle => ?_) fun _ => ?_
    · refine Sat.pure fun _ v _ => ⟨fun hin => ?_, fun _ => ⟨rfl, rfl⟩⟩
      have := pageRoundUp_mono hle
      omega
    · have hnew : newSize ≤ userEnd := Nat.not_lt.mp hsmall
      have hend := pageRoundUp_userEnd hnew
      have hmem : ∀ v, v ∈ stepBy (pageRoundUp oldSize) (pageRoundUp newSize) pageSize ↔ _ := fun v =>
        mem_stepBy_pages (pageRoundUp_mod oldSize)
      refine Sat.bind (allocPages_bytes (fun v hv => ?_) h) (fun _ _ _ => True.intro)
        fun _ m' hc => Sat.pure fun _ v hv => ?_
      · obtain ⟨h₁, -, h₂⟩ := (hmem v).mp hv
        exact ⟨h₁, Nat.lt_of_lt_of_le h₂ hend⟩
      · have hin : v / pageSize * pageSize ∈
            stepBy (pageRoundUp oldSize) (pageRoundUp newSize) pageSize ↔
            pageRoundUp oldSize ≤ v ∧ v < pageRoundUp newSize := by
          have h₁ := pageRoundUp_mod oldSize
          have h₂ := pageRoundUp_mod newSize
          rw [hmem]
          simp only [pageSize] at h₁ h₂ ⊢
          omega
        have hv' := hc v hv
        simp only [hin] at hv'
        exact hv'
  refine ((allocUser_spec h).and hbytes).imp ?_ ?_ (fun _ hx => hx.1)
  · rintro r m' ⟨⟨hr, hnew, l', hown, hsame, -⟩, hc⟩
    exact ⟨hr, hnew, ⟨l', hown, hsame⟩, hc hnew⟩
  · rintro - m' ⟨⟨-, rfl⟩ | ⟨-, l₁, hown, hsame, -⟩, -⟩
    · exact (Poked.refl h).intact
    · exact ⟨l₁, hown, hsame⟩

end Rxv64.Vm
