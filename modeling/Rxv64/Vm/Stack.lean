import Rxv64.Vm.Launch

/-!
# Vm.Stack — the stack of a new program

What `exec` of `kernel/src/exec.rs` puts on the new stack. Strings go from the
top down, each with room for a NUL that is there already; then the pointers to
them, some padding and a word of ones. Only the strings are checked against
`USERSTACK`. What comes after them is too small to get past the page below.
-/

namespace Rxv64.Vm

open Prog Radix

variable {A : Set Frame} {m m' : Mem} {root : Frame} {l l' : List Frame} {sp v : Nat}
  {arg : List (BitVec 8)} {args : List (List (BitVec 8))} {uargs : List Nat} {env : Env}
  {E : String → Mem → Prop} {X : String → Prop}

/-! ## Strings are short -/

/-- A string, with its NUL, in some address space. -/
def UserString (arg : List (BitVec 8)) : Prop :=
  ∃ A m root l off, OwnTable A m root l ∧ off + arg.length < userEnd ∧
    (∀ i < arg.length, m.byte root (off + i) = arg[i]?) ∧
    m.byte root (off + arg.length) = some 0

/-- An address in the `i`-th page from that of `a` on. -/
def nthPage (a i : Nat) : Nat := max a ((a / pageSize + i) * pageSize)

/-- The ways to `n` pages, and to the tables in front of the first. -/
def rangePath (a n : Nat) (i : Fin (n + 4)) : List (Fin 512) :=
  if i.val < n then digits 4 (nthPage a i.val) else (digits 4 a).take (i.val - n)

theorem length_rangePath {a n : Nat} (i : Fin (n + 4)) :
    (rangePath a n i).length = if i.val < n then 4 else i.val - n := by
  unfold rangePath
  split
  · exact length_digits 4 _
  · rw [List.length_take, length_digits]
    omega

theorem nthPage_div (a i : Nat) : nthPage a i / pageSize = a / pageSize + i := by
  simp only [nthPage, pageSize]
  omega

/-- **A mapped range without gaps** has its pages and at least four tables. -/
theorem Own.card_range (h : OwnTable A m root l) {a b : Nat} (hab : a ≤ b) (hb : b < userEnd)
    (hmap : ∀ v, a ≤ v → v ≤ b → ∃ e, m.entryFor root v = some e) :
    b / pageSize - a / pageSize + 1 + 4 ≤ 2 ^ 35 := by
  generalize hn : b / pageSize - a / pageSize + 1 = n
  have hin : ∀ i < n, a ≤ nthPage a i ∧ nthPage a i ≤ b := by
    intro i hi
    simp only [nthPage, pageSize] at hn ⊢
    omega
  have hlt : ∀ i < n, nthPage a i < userEnd := fun i hi => Nat.lt_of_le_of_lt (hin i hi).2 hb
  have ha : a < userEnd := Nat.lt_of_le_of_lt hab hb
  have hinj : Function.Injective (rangePath a n) := by
    intro i j hij
    have hlen := congrArg List.length hij
    rw [length_rangePath, length_rangePath] at hlen
    by_cases hi : i.val < n
    · by_cases hj : j.val < n
      · rw [rangePath, rangePath, if_pos hi, if_pos hj, digits_four (hlt _ hi) (hlt _ hj),
          nthPage_div, nthPage_div] at hij
        exact Fin.ext (by omega)
      · rw [if_pos hi, if_neg hj] at hlen
        have := j.isLt
        omega
    · by_cases hj : j.val < n
      · rw [if_neg hi, if_pos hj] at hlen
        have := i.isLt
        omega
      · rw [if_neg hi, if_neg hj] at hlen
        exact Fin.ext (by omega)
  have hnumber : Function.Injective (BitVec.toFin : Frame → Fin (2 ^ 35)) :=
    fun f g hfg => BitVec.eq_of_toFin_eq hfg
  refine h.tree.card_paths hnumber hinj fun i => ?_
  unfold rangePath
  split
  · next hi =>
    obtain ⟨e, he⟩ := hmap _ (hin _ hi).1 (hin _ hi).2
    exact ⟨(length_digits 4 _).le, head_userHalf (hlt _ hi), _, walk_entryFor he⟩
  · next hi =>
    obtain ⟨e, he⟩ := hmap a (Nat.le_refl a) hab
    refine ⟨?_, fun k hk => head_userHalf ha k ?_, walk_take (walk_entryFor he) _⟩
    · rw [List.length_take, length_digits]
      exact Nat.min_le_right _ _
    · rw [List.head?_take] at hk
      split at hk
      · cases hk
      · exact hk

/-- No string takes up as much as there is below the stack. -/
theorem UserString.short (h : UserString arg) : arg.length + 1 ≤ userStack := by
  obtain ⟨A, m, root, l, off, hown, hend, hbytes, hnul⟩ := h
  by_contra hlong
  have hmap : ∀ v, off ≤ v → v ≤ off + arg.length → ∃ e, m.entryFor root v = some e := by
    intro v hlo hhi
    have hbyte : ∃ b, m.byte root v = some b := by
      by_cases hv : v = off + arg.length
      · exact ⟨0, hv ▸ hnul⟩
      · have hi : v - off < arg.length := by omega
        refine ⟨arg[v - off], ?_⟩
        rw [← List.getElem?_eq_getElem hi, ← hbytes _ hi, Nat.add_sub_cancel' hlo]
    obtain ⟨b, hb⟩ := hbyte
    obtain ⟨e, he, -⟩ := Option.map_eq_some_iff.mp hb
    exact ⟨e, he⟩
  have hcard := hown.card_range (Nat.le_add_right off arg.length) hend hmap
  simp only [pageSize, userStack] at hcard hlong
  omega

/-! ## Words in memory -/

theorem length_wordBytes (w : Nat) : (wordBytes w).length = 8 := rfl

/-- The bytes of a table of words. -/
theorem getElem?_flatMap_wordBytes {u : Nat} {k i : Nat} (hk : uargs[k]? = some u) (hi : i < 8) :
    (uargs.flatMap wordBytes)[8 * k + i]? = some (BitVec.ofNat 8 (u / 256 ^ i)) := by
  induction uargs generalizing k with
  | nil => cases hk
  | cons w ws ih =>
      rw [List.flatMap_cons]
      cases k with
      | zero =>
          cases hk
          have hfirst : i < (wordBytes u).length := hi
          rw [Nat.mul_zero, Nat.zero_add, List.getElem?_append_left hfirst, wordBytes,
            List.getElem?_map, List.getElem?_range hi]
          rfl
      | succ k =>
          rw [List.getElem?_append_right (by rw [length_wordBytes]; omega), length_wordBytes,
            show 8 * (k + 1) + i - 8 = 8 * k + i by omega]
          exact ih hk

theorem length_flatMap_wordBytes (uargs : List Nat) :
    (uargs.flatMap wordBytes).length = 8 * uargs.length := by
  induction uargs with
  | nil => rfl
  | cons w ws ih =>
      rw [List.flatMap_cons, List.length_append, length_wordBytes, ih, List.length_cons]
      omega

/-- A word is made of its bytes again. -/
theorem foldr_bytes {u : Nat} (hu : u < 2 ^ 64) :
    (List.range 8).foldr (fun i w => (BitVec.ofNat 8 (u / 256 ^ i)).toNat + 256 * w) 0 = u := by
  simp only [List.range, List.range.loop, List.foldr, BitVec.toNat_ofNat]
  omega

/-- The word at a user address. -/
def Mem.word (m : Mem) (root : Frame) (v : Nat) : Option Nat :=
  (List.range 8).foldr (fun i w => do
    let b ← m.byte root (v + i)
    let w ← w
    pure (b.toNat + 256 * w)) (some 0)

theorem word_of_bytes {u : Nat} (hu : u < 2 ^ 64)
    (h : ∀ i < 8, m.byte root (v + i) = some (BitVec.ofNat 8 (u / 256 ^ i))) :
    m.word root v = some u := by
  have hw := foldr_bytes hu
  unfold Mem.word
  simp only [List.range, List.range.loop, List.foldr] at hw ⊢
  rw [h 0 (by omega), h 1 (by omega), h 2 (by omega), h 3 (by omega), h 4 (by omega), h 5 (by omega),
    h 6 (by omega), h 7 (by omega)]
  exact congrArg some hw

/-! ## The strings -/

/-- Room for a string and its NUL. -/
def argSpace (arg : List (BitVec 8)) : Nat := (arg.length + 8) / 8 * 8

/-- Strings on the stack, from `top` down to `sp`. -/
inductive Strings (m : Mem) (root : Frame) :
    List (List (BitVec 8)) → List Nat → Nat → Nat → Prop where
  | nil {sp : Nat} : Strings m root [] [] sp sp
  | cons {arg : List (BitVec 8)} {args : List (List (BitVec 8))} {u top sp : Nat}
      {uargs : List Nat} :
      u + argSpace arg = top → u % 8 = 0 → userStack ≤ u →
      (∀ i < arg.length, m.byte root (u + i) = arg[i]?) →
      (∀ i, arg.length ≤ i → i < argSpace arg → m.byte root (u + i) = some 0) →
      Strings m root args uargs u sp → Strings m root (arg :: args) (u :: uargs) top sp

theorem argSpace_gt (arg : List (BitVec 8)) : arg.length < argSpace arg := by
  unfold argSpace
  omega

theorem argSpace_mod (arg : List (BitVec 8)) : argSpace arg % 8 = 0 := by
  unfold argSpace
  omega

section Strings

variable {top : Nat} (h : Strings m root args uargs top sp)

include h

theorem Strings.le : sp ≤ top := by
  induction h with
  | nil => exact Nat.le_refl _
  | cons hu _ _ _ _ _ ih => omega

theorem Strings.low (htop : userStack ≤ top) : userStack ≤ sp := by
  induction h with
  | nil => exact htop
  | cons _ _ hlow _ _ _ ih => exact ih hlow

theorem Strings.length : uargs.length = args.length := by
  induction h with
  | nil => rfl
  | cons _ _ _ _ _ _ ih => rw [List.length_cons, List.length_cons, ih]

theorem Strings.space : sp + (args.map argSpace).sum = top := by
  induction h with
  | nil => rfl
  | cons hu _ _ _ _ _ ih =>
      rw [List.map_cons, List.sum_cons]
      omega

/-- Later writes are below the strings. -/
theorem Strings.frame (heq : ∀ v, sp ≤ v → v < top → m'.byte root v = m.byte root v) :
    Strings m' root args uargs top sp := by
  induction h with
  | nil => exact .nil
  | cons hu hmod hlow hbytes hnul hrest ih =>
      rename_i arg _ u _ _ _
      have hspace := argSpace_gt arg
      have hle := hrest.le
      refine .cons hu hmod hlow (fun i hi => ?_) (fun i hlen hi => ?_)
        (ih fun v hlo hhi => heq v hlo (by omega))
      · rw [heq _ (by omega) (by omega)]
        exact hbytes i hi
      · rw [heq _ (by omega) (by omega)]
        exact hnul i hlen hi

theorem Strings.get {k u : Nat} (harg : args[k]? = some arg) (hu : uargs[k]? = some u) :
    u % 8 = 0 ∧ userStack ≤ u ∧ sp ≤ u ∧ u + arg.length < top ∧
    (∀ i < arg.length, m.byte root (u + i) = arg[i]?) ∧ m.byte root (u + arg.length) = some 0 := by
  induction h generalizing k with
  | nil => cases harg
  | cons htop hmod hlow hbytes hnul hrest ih =>
      rename_i a _ _ _ _ _
      have hspace := argSpace_gt a
      cases k with
      | zero =>
          cases harg
          cases hu
          exact ⟨hmod, hlow, hrest.le, by omega, hbytes, hnul _ (Nat.le_refl _) hspace⟩
      | succ k =>
          obtain ⟨h₁, h₂, h₃, h₄, h₅⟩ := ih harg hu
          exact ⟨h₁, h₂, h₃, by omega, h₅⟩

/-- Each string lies below those before it. -/
theorem Strings.apart {j k u u' : Nat} (hjk : j < k) (hu : uargs[j]? = some u)
    (harg : args[k]? = some arg) (hu' : uargs[k]? = some u') : u' + arg.length < u := by
  induction h generalizing j k with
  | nil => cases hu
  | cons _ _ _ _ _ hrest ih =>
      obtain _ | k := k
      · exact absurd hjk (Nat.not_lt_zero j)
      cases j with
      | zero =>
          cases hu
          exact (hrest.get harg hu').2.2.2.1
      | succ j => exact ih (Nat.lt_of_succ_lt_succ hjk) hu harg hu'

/-- The last string is what comes behind the pointers. -/
theorem Strings.last (hlast : args.getLast? = some arg) :
    sp + argSpace arg ≤ top ∧ (∀ i < arg.length, m.byte root (sp + i) = arg[i]?) ∧
    ∀ i, arg.length ≤ i → i < argSpace arg → m.byte root (sp + i) = some 0 := by
  induction h with
  | nil => cases hlast
  | @cons a args u top sp uargs htop _ _ hbytes hnul hrest ih =>
      cases args with
      | nil =>
          obtain rfl : a = arg := Option.some.inj (List.getLast?_singleton.symm.trans hlast)
          cases hrest
          exact ⟨by omega, hbytes, hnul⟩
      | cons b args =>
          rw [List.getLast?_cons_cons] at hlast
          obtain ⟨hle, hrest⟩ := ih hlast
          exact ⟨by omega, hrest⟩

end Strings

/-- Each string is written where there are zeros still, and the later ones are
further down. -/
theorem pushArgs_bytes (hshort : ∀ arg ∈ args, arg.length + 1 ≤ userStack) :
    ∀ {m : Mem} {sp : Nat}, OwnTable A m root l → sp % 8 = 0 → userStack ≤ sp → sp ≤ userEnd →
      (∀ v, userStack ≤ v → v < sp → m.byte root v = some 0) →
      Sat (pushArgs root args sp env m)
        (fun r m' => Poked A m m' root l ∧ Strings m' root args r.2 sp r.1 ∧ r.1 % 8 = 0 ∧
          ∀ v, sp ≤ v → v < userEnd → m'.byte root v = m.byte root v)
        (fun _ m' => Poked A m m' root l) (fun _ => False) := by
  induction args with
  | nil => exact fun h hmod _ _ _ => Sat.pure ⟨.refl h, .nil, hmod, fun _ _ _ => rfl⟩
  | cons arg args ih =>
      intro m sp h hmod hlow hend hzero
      have hlen := hshort arg List.mem_cons_self
      have hrest : ∀ a ∈ args, a.length + 1 ≤ userStack := fun a ha =>
        hshort a (List.mem_cons_of_mem arg ha)
      unfold pushArgs subSp
      refine Sat.seq (Q := fun r m' => m' = m ∧ r = sp - (arg.length + 1))
        (Sat.ite (fun hlt => absurd hlt (by omega)) fun _ => Sat.pure ⟨rfl, rfl⟩) ?_
      rintro r m' ⟨rfl, rfl⟩
      generalize hu : (sp - (arg.length + 1)) / 8 * 8 = u
      have hspace : u + argSpace arg = sp := by
        unfold argSpace
        omega
      have hroom := argSpace_gt arg
      refine Sat.seq (copyOut_bytes h (by omega)) fun _ m₁ hw => ?_
      refine Sat.ite (fun _ => Sat.throw hw.1) fun hulow => ?_
      have hbelow : ∀ v, userStack ≤ v → v < u → m₁.byte root v = some 0 := by
        intro v hv hvu
        rw [hw.2 v (by omega), if_neg (by omega)]
        exact hzero v hv (by omega)
      refine Sat.bind (ih hrest hw.1.1 (by omega) (Nat.not_lt.mp hulow) (by omega) hbelow)
        (fun _ _ hq => hw.1.trans hq) ?_
      rintro ⟨last, uargs⟩ m₂ ⟨hpoked, hstr, hmod', hsame⟩
      refine Sat.pure ⟨hw.1.trans hpoked, .cons hspace (by omega) (Nat.not_lt.mp hulow)
        (fun i hi => ?_) (fun i hlen hi => ?_) hstr, hmod', fun v hv hvend => ?_⟩
      · rw [hsame _ (by omega) (by omega), hw.2 _ (by omega), if_pos (by omega),
          Nat.add_sub_cancel_left, List.getD_eq_getElem _ _ hi, List.getElem?_eq_getElem hi]
      · rw [hsame _ (by omega) (by omega), hw.2 _ (by omega), if_neg (by omega)]
        exact hzero _ (by omega) (by omega)
      · rw [hsame _ (by omega) hvend, hw.2 v hvend, if_neg (by omega)]

/-! ## What comes after the strings -/

/-- `copy_out` needs the page of the first byte. -/
theorem copyOut_mapped {data : List (BitVec 8)} {va : Nat} (hva : va < userEnd) (hne : data ≠ []) :
    Sat (copyOut root data va env m) (fun _ _ => ∃ e, m.entryFor root va = some e)
      (fun _ _ => True) (fun _ => True) := by
  obtain ⟨n, hn⟩ := Nat.exists_eq_succ_of_ne_zero
    (Nat.ne_of_gt (List.length_pos_iff.mpr hne))
  rw [copyOut, hn]
  refine Sat.ite (fun hnil => absurd hnil hne) fun _ => ?_
  refine Sat.bind userAddrToKernPage_spec (fun _ _ _ => True.intro) ?_
  rintro g m' ⟨rfl, e, he, -⟩
  have hdown : pageRoundDown va < userEnd := by
    have := Nat.div_mul_le_self va pageSize
    unfold pageRoundDown
    omega
  have hpage : va / pageSize = pageRoundDown va / pageSize := by
    simp only [pageRoundDown, pageSize]
    omega
  exact (Sat.trivial _).imp (fun _ _ _ => ⟨e, (entryFor_page hva hdown hpage).trans he⟩)
    (fun _ _ hq => hq) (fun _ hx => hx)

/-- The page below the stack is not mapped. -/
def Gap (m : Mem) (root : Frame) : Prop := m.entryFor root (userStack - pageSize) = none

theorem Gap.poked (h : Gap m root) (hp : Poked A m m' root l) : Gap m' root :=
  (hp.2.2 _ (by decide)).trans h

theorem push_stack {bytes : List (BitVec 8)} (h : OwnTable A m root l) (hgap : Gap m root)
    (hlow : userStack ≤ sp) (hend : sp ≤ userEnd) (hlen : bytes.length ≤ pageSize) :
    Sat (push root bytes sp env m)
      (fun r m' => r + bytes.length = sp ∧ userStack ≤ r ∧ Wrote A m m' root l r bytes)
      (fun _ m' => Poked A m m' root l) (fun _ => False) := by
  have hsmall : pageSize ≤ userStack := by decide
  unfold push subSp
  refine Sat.seq (Q := fun r m' => m' = m ∧ r = sp - bytes.length)
    (Sat.ite (fun hlt => absurd hlt (by omega)) fun _ => Sat.pure ⟨rfl, rfl⟩) ?_
  rintro r m' ⟨rfl, rfl⟩
  generalize hr : sp - bytes.length = r
  have hwrote : Sat (copyOut root bytes r env m') _ _ (fun _ => False) :=
    copyOut_bytes h (by omega)
  by_cases hne : bytes = []
  · subst hne
    rw [List.length_nil] at hr
    refine Sat.seq hwrote fun _ m₁ hw => Sat.pure ⟨?_, by omega, hw⟩
    rw [List.length_nil]
    omega
  · have hpos : 0 < bytes.length := List.length_pos_iff.mpr hne
    refine Sat.seq ((hwrote.and (copyOut_mapped (by omega) hne)).imp (fun _ _ hq => hq)
      (fun _ _ hq => hq.1) (fun _ hx => hx.1)) ?_
    rintro - m₁ ⟨hw, e, he⟩
    refine Sat.pure ⟨by omega, ?_, hw⟩
    by_contra hlt
    have hpage : r / pageSize = (userStack - pageSize) / pageSize := by
      simp only [pageSize, userStack] at hlt hlow hlen ⊢
      omega
    rw [entryFor_page (by omega) (by decide) hpage, hgap] at he
    cases he

/-- What is pushed does not change what is above it. -/
theorem Wrote.above {bytes : List (BitVec 8)} {r : Nat} (h : Wrote A m m' root l r bytes)
    (hr : r + bytes.length = sp) (hv : sp ≤ v) (hend : v < userEnd) :
    m'.byte root v = m.byte root v := by
  rw [h.2 v hend, if_neg (by omega)]

theorem alignSp_stack (h : OwnTable A m root l) (hgap : Gap m root) (hlow : userStack ≤ sp)
    (hend : sp ≤ userEnd) :
    Sat (alignSp root sp env m)
      (fun r m' => r + (if sp % 16 = 0 then 8 else 0) = sp ∧ userStack ≤ r ∧ Poked A m m' root l ∧
        ∀ v, sp ≤ v → v < userEnd → m'.byte root v = m.byte root v)
      (fun _ m' => Poked A m m' root l) (fun _ => False) := by
  refine Sat.ite (fun hmod => ?_) fun hmod => ?_
  · rw [if_pos hmod]
    refine (push_stack h hgap hlow hend (by decide)).imp ?_ (fun _ _ hq => hq) (fun _ hx => hx)
    rintro r m' ⟨hr, hlow', hw⟩
    exact ⟨hr, hlow', hw.1, fun v hv hvend => hw.above hr hv hvend⟩
  · rw [if_neg hmod]
    exact Sat.pure ⟨rfl, hlow, .refl h, fun _ _ _ => rfl⟩

/-- The finished stack. -/
structure Stacked (m : Mem) (root : Frame) (args : List (List (BitVec 8))) (argv sp : Nat)
    (uargs : List Nat) : Prop where
  strings : Strings m root args uargs userEnd (argv + 8 * args.length)
  pointers : ∀ k u, uargs[k]? = some u → m.word root (argv + 8 * k) = some u
  aligned : argv % 8 = 0
  padding : sp + (if argv % 16 = 0 then 16 else 8) = argv
  low : userStack ≤ sp

theorem setupArgs_spec (h : OwnTable A m root l) (hgap : Gap m root)
    (hshort : ∀ arg ∈ args, arg.length + 1 ≤ userStack) (hn : args.length ≤ maxArg)
    (hzero : ∀ v, userStack ≤ v → v < userEnd → m.byte root v = some 0) :
    Sat (setupArgs root args env m)
      (fun r m' => Stacked m' root args r.1 r.2.1 r.2.2 ∧ Poked A m m' root l)
      (fun _ m' => Poked A m m' root l) (fun _ => False) := by
  refine Sat.bind (pushArgs_bytes hshort h (by decide) (by decide) (Nat.le_refl _) hzero)
    (fun _ _ he => he) ?_
  rintro ⟨top, uargs⟩ m₁ ⟨hp₁, hstr, hmod, -⟩
  dsimp only at hstr hmod
  have hlen := length_flatMap_wordBytes uargs
  have hcount := hstr.length
  have htop := hstr.le
  have hsmall : 8 * maxArg ≤ pageSize := by decide
  refine Sat.bind (push_stack hp₁.1 (hgap.poked hp₁) (hstr.low (by decide)) htop (by omega))
    (fun _ _ he => hp₁.trans he) ?_
  rintro argv m₂ ⟨hargv, hlow, hw⟩
  have hp₂ := hp₁.trans hw.1
  refine Sat.bind (alignSp_stack hp₂.1 (hgap.poked hp₂) hlow (by omega))
    (fun _ _ he => hp₂.trans he) ?_
  rintro r m₃ ⟨hr, hlow₃, hp₃, hsame₃⟩
  have hp₃ := hp₂.trans hp₃
  refine Sat.bind (push_stack hp₃.1 (hgap.poked hp₃) hlow₃ (by omega) (by decide))
    (fun _ _ he => hp₃.trans he) ?_
  rintro sp m₄ ⟨hsp, hlow₄, hw₄⟩
  have hsp : sp + 8 = r := hsp
  have hsame : ∀ v, argv ≤ v → v < userEnd → m₄.byte root v = m₂.byte root v := fun v hv hvend => by
    rw [hw₄.above hsp (by omega) hvend, hsame₃ v hv hvend]
  refine Sat.pure ⟨⟨?_, fun k u hu => ?_, by omega, ?_, hlow₄⟩, hp₃.trans hw₄.1⟩
  · have htop : argv + 8 * args.length = top := by omega
    rw [htop]
    refine hstr.frame fun v hv hvend => ?_
    rw [hsame v (by omega) hvend, hw.above hargv hv hvend]
  · have hk : k < uargs.length := (List.getElem?_eq_some_iff.mp hu).1
    have harg := List.getElem?_eq_getElem (hcount ▸ hk : k < args.length)
    have hubound := (hstr.get harg hu).2.2.2.1
    refine word_of_bytes (Nat.lt_trans (by omega : u < userEnd) (by decide)) fun i hi => ?_
    rw [hsame _ (by omega) (by omega), hw.2 _ (by omega), if_pos (by omega),
      show argv + 8 * k + i - argv = 8 * k + i by omega, List.getD_eq_getElem?_getD,
      getElem?_flatMap_wordBytes hu hi]
    rfl
  · dsimp only
    by_cases hz : argv % 16 = 0
    · rw [if_pos hz] at hr ⊢
      omega
    · rw [if_neg hz] at hr ⊢
      omega

/-! ## Nothing of this fails where there is room -/

/-- The stack can be used. -/
def StackMapped (m : Mem) (root : Frame) : Prop :=
  ∀ v, userStack ≤ v → v < userEnd → UserPage m root v

theorem StackMapped.poked (h : StackMapped m root) (hp : Poked A m m' root l) :
    StackMapped m' root := by
  intro v hv hvend
  unfold UserPage
  rw [hp.2.2 v hvend]
  exact h v hv hvend

theorem pushArgs_returns :
    ∀ {m : Mem} {sp : Nat}, OwnTable A m root l → StackMapped m root → sp % 8 = 0 → sp ≤ userEnd →
      userStack + (args.map argSpace).sum ≤ sp →
      Sat (pushArgs root args sp env m)
        (fun r m' => Poked A m m' root l ∧ r.1 + (args.map argSpace).sum = sp ∧
          r.2.length = args.length) E X := by
  induction args with
  | nil => exact fun h _ _ _ _ => Sat.pure ⟨.refl h, rfl, rfl⟩
  | cons arg args ih =>
      intro m sp h hmap hmod hend hroom
      rw [List.map_cons, List.sum_cons] at hroom ⊢
      have hlen := argSpace_gt arg
      unfold pushArgs subSp
      refine Sat.seq (Q := fun r m' => m' = m ∧ r = sp - (arg.length + 1))
        (Sat.ite (fun hlt => absurd hlt (by omega)) fun _ => Sat.pure ⟨rfl, rfl⟩) ?_
      rintro r m' ⟨rfl, rfl⟩
      generalize hu : (sp - (arg.length + 1)) / 8 * 8 = u
      have hspace : u + argSpace arg = sp := by
        unfold argSpace at hroom ⊢
        omega
      refine Sat.seq (((copyOut_returns h (by omega) fun v hlo hhi =>
        hmap v (by omega) (by omega)).and (copyOut_spec (X := X) h (by omega))).imp
          (fun _ _ hq => hq.2) (fun _ _ hq => hq.1) (fun _ hx => hx.1)) fun _ m₁ hp => ?_
      refine Sat.ite (fun hlow => absurd hlow (by omega)) fun _ => ?_
      refine Sat.seq (ih hp.1 (hmap.poked hp) (by omega) (by omega) (by omega)) ?_
      rintro ⟨last, uargs⟩ m₂ ⟨hp', hlast, hcount⟩
      dsimp only at hlast hcount
      exact Sat.pure ⟨hp.trans hp', by omega, by rw [List.length_cons, List.length_cons, hcount]⟩

theorem push_returns {bytes : List (BitVec 8)} (h : OwnTable A m root l) (hmap : StackMapped m root)
    (hend : sp ≤ userEnd) (hroom : userStack + bytes.length ≤ sp) :
    Sat (push root bytes sp env m)
      (fun r m' => r + bytes.length = sp ∧ Poked A m m' root l) E X := by
  unfold push subSp
  refine Sat.seq (Q := fun r m' => m' = m ∧ r + bytes.length = sp)
    (Sat.ite (fun hlt => absurd hlt (by omega)) fun _ => Sat.pure ⟨rfl, by omega⟩) ?_
  rintro r m' ⟨rfl, hr⟩
  refine Sat.seq (((copyOut_returns h (by omega) fun v hlo hhi =>
    hmap v (by omega) (by omega)).and (copyOut_spec (X := X) h (by omega))).imp
      (fun _ _ hq => hq.2) (fun _ _ hq => hq.1) (fun _ hx => hx.1)) fun _ m₁ hp => ?_
  exact Sat.pure ⟨hr, hp⟩

/-! ## The whole stack -/

/-- The bytes that the stack takes up. -/
def stackSize (args : List (List (BitVec 8))) : Nat :=
  let n := (args.map argSpace).sum + 8 * args.length
  n + if n % 16 = 0 then 16 else 8

theorem sum_argSpace_mod (args : List (List (BitVec 8))) : (args.map argSpace).sum % 8 = 0 := by
  induction args with
  | nil => rfl
  | cons arg args ih =>
      have hmod := argSpace_mod arg
      rw [List.map_cons, List.sum_cons]
      omega

theorem setupArgs_returns (h : OwnTable A m root l) (hmap : StackMapped m root)
    (hroom : stackSize args ≤ userEnd - userStack) :
    Sat (setupArgs root args env m) (fun _ _ => True) E X := by
  have hmod := sum_argSpace_mod args
  unfold stackSize at hroom
  dsimp only at hroom
  generalize hsum : (args.map argSpace).sum = sum at hmod hroom
  have hend : userStack < userEnd ∧ userEnd % 16 = 0 := by decide
  refine Sat.seq (pushArgs_returns h hmap (by decide) (Nat.le_refl _) ?_) ?_
  · rw [hsum]
    split at hroom <;> omega
  rintro ⟨top, uargs⟩ m₁ ⟨hp₁, htop, hcount⟩
  dsimp only at htop hcount
  rw [hsum] at htop
  have hlen := length_flatMap_wordBytes uargs
  refine Sat.seq (push_returns hp₁.1 (hmap.poked hp₁) (by omega) ?_) ?_
  · split at hroom <;> omega
  rintro argv m₂ ⟨hargv, hp₂⟩
  have hp₂ := hp₁.trans hp₂
  have halign : Sat (alignSp root argv env m₂)
      (fun r m' => r + (if argv % 16 = 0 then 8 else 0) = argv ∧ Poked A m₂ m' root l) E X := by
    refine Sat.ite (fun hz => ?_) fun hz => ?_
    · rw [if_pos hz]
      refine push_returns hp₂.1 (hmap.poked hp₂) (by omega) ?_
      rw [length_wordBytes]
      split at hroom <;> omega
    · rw [if_neg hz]
      exact Sat.pure ⟨rfl, .refl hp₂.1⟩
  refine Sat.seq halign ?_
  rintro r m₃ ⟨hr, hp₃⟩
  have hp₃ := hp₂.trans hp₃
  refine Sat.seq (push_returns hp₃.1 (hmap.poked hp₃) (by omega) ?_) fun _ _ _ => Sat.pure True.intro
  rw [length_wordBytes]
  by_cases hz : argv % 16 = 0
  · rw [if_pos hz] at hr
    split at hroom <;> omega
  · rw [if_neg hz] at hr
    split at hroom <;> omega

theorem Stacked.size {argv : Nat} (h : Stacked m root args argv sp uargs) :
    sp + stackSize args = userEnd := by
  have hspace := h.strings.space
  have hpad := h.padding
  have hend : userEnd % 16 = 0 := by decide
  unfold stackSize
  dsimp only
  generalize (args.map argSpace).sum = n at hspace ⊢
  split at hpad <;> split <;> omega

/-- What the new program finds. -/
structure Laid (m : Mem) (root : Frame) (args : List (List (BitVec 8))) (argv sp : Nat)
    (uargs : List Nat) : Prop where
  count : uargs.length = args.length
  strings : ∀ (k : Nat) (arg : List (BitVec 8)) (u : Nat), args[k]? = some arg →
    uargs[k]? = some u → u % 8 = 0 ∧ userStack ≤ u ∧ u + arg.length < userEnd ∧
    (∀ i < arg.length, m.byte root (u + i) = arg[i]?) ∧ m.byte root (u + arg.length) = some 0
  apart : ∀ (j k : Nat) (a b : List (BitVec 8)) (u v : Nat), j ≠ k → args[j]? = some a →
    args[k]? = some b → uargs[j]? = some u → uargs[k]? = some v → u + a.length < v ∨ v + b.length < u
  array : ∀ u ∈ uargs, argv + 8 * args.length ≤ u
  pointers : ∀ k u, uargs[k]? = some u → m.word root (argv + 8 * k) = some u
  stack : sp % 16 = 0 ∧ userStack ≤ sp ∧ sp < argv

theorem Stacked.laid {argv : Nat} (h : Stacked m root args argv sp uargs) :
    Laid m root args argv sp uargs := by
  have hcount := h.strings.length
  have hpad := h.padding
  have hmod := h.aligned
  refine ⟨hcount, fun k arg u harg hu => ?_, fun j k a b u v hjk ha hb hu hv => ?_, fun u hu => ?_,
    h.pointers, ?_, h.low, ?_⟩
  · obtain ⟨h₁, h₂, -, h₄⟩ := h.strings.get harg hu
    exact ⟨h₁, h₂, h₄⟩
  · rcases Nat.lt_or_gt_of_ne hjk with hjk | hjk
    · exact .inr (h.strings.apart hjk hu hb hv)
    · exact .inl (h.strings.apart hjk hv ha hu)
  · obtain ⟨k, hk, hget⟩ := List.getElem_of_mem hu
    have harg := List.getElem?_eq_getElem (hcount ▸ hk : k < args.length)
    exact (h.strings.get harg (hget ▸ List.getElem?_eq_getElem hk)).2.2.1
  · split at hpad <;> omega
  · split at hpad <;> omega

theorem execStack_spec (h : OwnTable A m root l) (hgap : Gap m root)
    (hshort : ∀ arg ∈ args, arg.length + 1 ≤ userStack) (hn : args.length ≤ maxArg) :
    Sat (execStack root args env m)
      (fun r m' => Stacked m' root args r.1 r.2.1 r.2.2) (fun _ _ => True) (fun _ => False) := by
  refine Sat.bind (allocUser_bytes h) (fun _ _ _ => True.intro) ?_
  rintro - m₁ ⟨-, -, ⟨l₁, hown, -⟩, hcleared⟩
  have hround : pageRoundUp userStack = userStack ∧ pageRoundUp userEnd = userEnd := by decide
  rw [hround.1, hround.2] at hcleared
  have hgap₁ : Gap m₁ root := (((hcleared _ (by decide)).2 (by decide)).1).trans hgap
  refine (setupArgs_spec hown hgap₁ hshort hn fun v hlo hhi => ?_).imp (fun _ _ hq => hq.1)
    (fun _ _ _ => True.intro) (fun _ hx => hx)
  exact ((hcleared v hhi).1 ⟨hlo, hhi⟩).2

theorem Cleared.stack {flags : PageFlags}
    (hc : Cleared m m' root flags fun v => pageRoundUp userStack ≤ v ∧ v < pageRoundUp userEnd) :
    StackMapped m' root := by
  intro v hlo hhi
  have hround : pageRoundUp userStack = userStack ∧ pageRoundUp userEnd = userEnd := by decide
  rw [hround.1, hround.2] at hc
  obtain ⟨⟨page, hpage⟩, -⟩ := (hc v hhi).1 ⟨hlo, hhi⟩
  exact ⟨_, hpage, by simp⟩

/-- With room and with pages for the stack it does not fail. -/
theorem execStack_returns {r : Nat} {m₁ : Mem} (h : OwnTable A m root l)
    (hrun : allocUser root userStack userEnd (PageFlags.write.union .nx) env m = .ok r m₁)
    (hroom : stackSize args ≤ userEnd - userStack) :
    Sat (execStack root args env m) (fun _ _ => True) E X := by
  obtain ⟨-, -, ⟨l₁, hown, -⟩, hcleared⟩ := (allocUser_bytes h).of_ok hrun
  exact Sat.bind_ok hrun (setupArgs_returns hown hcleared.stack hroom)

theorem awake_setupArgs (root : Frame) (args : List (List (BitVec 8))) :
    Awake (setupArgs root args) := by
  have hsub : ∀ sp n, Awake (subSp sp n) := fun _ _ => .ite .abort .pure
  have hloop : ∀ fuel data va, Awake (copyOutLoop root fuel data va) := by
    intro fuel
    induction fuel with
    | zero => exact fun _ _ => .pure
    | succ fuel ih =>
        exact fun data va => .ite .pure ((awake_userAddrToKernPage _ _).bind fun _ =>
          Awake.modify.bind fun _ => ih _ _)
  have hpush : ∀ bytes sp, Awake (push root bytes sp) := fun bytes sp =>
    (hsub _ _).bind fun _ => (hloop _ _ _).bind fun _ => .pure
  have hargs : ∀ sp, Awake (pushArgs root args sp) := by
    induction args with
    | nil => exact fun _ => .pure
    | cons arg args ih =>
        exact fun sp => (hsub _ _).bind fun _ => (hloop _ _ _).bind fun _ =>
          .ite .throw ((ih _).bind fun _ => .pure)
  exact (hargs _).bind fun _ => (hpush _ _).bind fun _ =>
    (Awake.ite (hpush _ _) .pure).bind fun _ => (hpush _ _).bind fun _ => .pure

theorem awake_execStack (root : Frame) (args : List (List (BitVec 8))) :
    Awake (execStack root args) :=
  (awake_allocUser _ _ _ _).bind fun _ => awake_setupArgs root args

/-- **`exec` lays out the arguments**, or it fails; and it fails when there is
no room for them. -/
theorem exec_lays_out_arguments (h : OwnTable A m root l) (hgap : Gap m root)
    (hargs : ∀ arg ∈ args, UserString arg) (hn : args.length ≤ maxArg) :
    ((∃ e m', execStack root args env m = .err e m') ∨
      ∃ argv sp uargs m', execStack root args env m = .ok (argv, sp, uargs) m' ∧
        Laid m' root args argv sp uargs) ∧
    (userEnd - userStack < stackSize args → ∃ e m', execStack root args env m = .err e m') := by
  have hspec : Sat (execStack root args env m) _ _ _ :=
    execStack_spec h hgap (fun arg harg => (hargs arg harg).short) hn
  rcases hspec.ends (awake_execStack root args env m) with
    ⟨⟨argv, sp, uargs⟩, m', heq, hst⟩ | ⟨e, m', heq, -⟩
  · refine ⟨.inr ⟨argv, sp, uargs, m', heq, hst.laid⟩, fun hbig => ?_⟩
    have hsize := hst.size
    have hlow := hst.low
    omega
  · exact ⟨.inl ⟨e, m', heq⟩, fun _ => ⟨e, m', heq⟩⟩

/-- The four bytes of the tiny program and the zero after them. -/
theorem userString_tiny : UserString [1, 2, 3, 4] := by
  have hrun : ((newTable [0, 1, 2, 3, 4, 5, 6, 7]).bind fun r =>
      (loadImage r.1 (fileReadi tinyElf fun _ _ => none) .willing r.2).result?.map fun o =>
        (List.range 5).map fun i => o.2.byte r.1 i) =
          some [some 1, some 2, some 3, some 4, some 0] := by decide +kernel
  obtain ⟨⟨root, m⟩, hnew, hbytes⟩ := Option.bind_eq_some_iff.mp hrun
  obtain ⟨r, m', hok, hload⟩ := Outcome.ok_of_map hbytes
  obtain ⟨A, l, hown, -⟩ := newTable_own (by decide) hnew
  obtain ⟨⟨l', hown', -⟩, -⟩ := (loadImage_spec (by decide +kernel) hown).of_ok hok
  have hat : ∀ i (b : BitVec 8), ([some 1, some 2, some 3, some 4, some 0] :
      List (Option (BitVec 8)))[i]? = some (some b) → i < 5 → m'.byte root i = some b := by
    intro i b hb hi
    have hget := congrArg (fun bytes => bytes[i]?) hload
    simp only [List.getElem?_map, List.getElem?_range hi, Option.map_some] at hget
    exact Option.some.inj (hget.trans hb)
  refine ⟨A, m', root, l', 0, hown', by decide, fun i hi => ?_, ?_⟩
  · rw [Nat.zero_add]
    have hi : i < 4 := hi
    interval_cases i
    · exact hat 0 1 rfl (by decide)
    · exact hat 1 2 rfl (by decide)
    · exact hat 2 3 rfl (by decide)
    · exact hat 3 4 rfl (by decide)
  · exact hat 4 0 rfl (by decide)

theorem exec_lays_out_one : ∃ root m argv sp uargs m',
    execStack root [[1, 2, 3, 4]] .willing m = .ok (argv, sp, uargs) m' ∧
    Laid m' root [[1, 2, 3, 4]] argv sp uargs := by
  have hrun : ((newTable [0, 1, 2, 3, 4, 5, 6, 7]).map fun r =>
      (allocUser r.1 userStack userEnd (PageFlags.write.union .nx) .willing r.2).result?.isSome) =
        some true := by decide +kernel
  obtain ⟨⟨root, m⟩, hnew, hsome⟩ := Option.map_eq_some_iff.mp hrun
  obtain ⟨_, m₁, hok⟩ := Outcome.ok_of_isSome hsome
  obtain ⟨A, l, hown, hempty⟩ := newTable_own (by decide) hnew
  have hgap : Gap m root := hempty _ (by decide)
  have hargs : ∀ arg ∈ [([1, 2, 3, 4] : List (BitVec 8))], UserString arg := by
    intro arg harg
    rw [List.mem_singleton.mp harg]
    exact userString_tiny
  have hreturns : Sat (execStack root [[1, 2, 3, 4]] .willing m) (fun _ _ => True)
      (fun _ _ => False) (fun _ => False) := execStack_returns hown hok (by decide)
  rcases (exec_lays_out_arguments hown hgap hargs (by decide)).1 with
    ⟨e, m', heq⟩ | ⟨argv, sp, uargs, m', heq, hlaid⟩
  · exact (hreturns.of_err heq).elim
  · exact ⟨root, m, argv, sp, uargs, m', heq, hlaid⟩

end Rxv64.Vm
