import Mathlib.Logic.Function.Basic
import Mathlib.Data.List.Nodup
import Mathlib.Data.Fintype.Card
import Mathlib.Data.List.FinRange

/-!
# Dlist — doubly linked lists through an array

Nodes are indices of a fixed type, links are functions from a node to the
next one or to the end. `Path` is the list segment predicate, `Links` says
that the two directions of a doubly linked list describe the same list,
and `Links.moveToFront` is the one mutation: unlink a node that is not
the head and put it in front.
-/

namespace Dlist

variable {ι : Type}

/-- Following `next` from `s` visits the nodes of the list and arrives
at `e`. -/
def Path (next : ι → Option ι) (s : Option ι) : List ι → Option ι → Prop
  | [], e => s = e
  | a :: l, e => s = some a ∧ Path next (next a) l e

theorem path_append {next : ι → Option ι} {s e : Option ι} {l m : List ι} :
    Path next s (l ++ m) e ↔ ∃ x, Path next s l x ∧ Path next x m e := by
  induction l generalizing s with
  | nil => simp [Path]
  | cons a l ih => simp [Path, ih, and_assoc]

/-- A segment does not see a change of links outside of it. -/
theorem Path.congr {next next' : ι → Option ι} {s e : Option ι} {l : List ι}
    (h : Path next s l e) (heq : ∀ a ∈ l, next' a = next a) : Path next' s l e := by
  induction l generalizing s with
  | nil => exact h
  | cons a l ih =>
      refine ⟨h.1, ?_⟩
      rw [heq a (by simp)]
      exact ih h.2 fun b hb => heq b (by simp [hb])

/-- Both directions of a doubly linked list: `next` from the head and
`prev` from the tail visit the same nodes in opposite orders. -/
structure Links (head tail : Option ι) (next prev : ι → Option ι) (l : List ι) : Prop where
  forth : Path next head l none
  back : Path prev tail l.reverse none
  nodup : l.Nodup

/-- Where the search loops stop: the first node that passes the test,
`some none` at the end of the list, `none` while still running after
`fuel` nodes. -/
def search (next : ι → Option ι) (ok : ι → Bool) : Nat → Option ι → Option (Option ι)
  | _, none => some none
  | 0, some _ => none
  | fuel + 1, some a => if ok a then some (some a) else search next ok fuel (next a)

theorem search_path {next : ι → Option ι} {ok : ι → Bool} {fuel : Nat} {s : Option ι}
    {l : List ι} (h : Path next s l none) (hfuel : l.length ≤ fuel) :
    search next ok fuel s = some (l.find? ok) := by
  induction l generalizing s fuel with
  | nil =>
      obtain rfl : s = none := h
      cases fuel <;> rfl
  | cons a l ih =>
      obtain ⟨rfl, h⟩ := h
      cases fuel with
      | zero => simp at hfuel
      | succ fuel =>
          simp only [List.length_cons, Nat.add_le_add_iff_right] at hfuel
          rw [search, List.find?_cons]
          cases ok a
          · exact ih h hfuel
          · rfl

/-- A segment that is not empty starts at one of its nodes. -/
theorem Path.start_mem {next : ι → Option ι} {s e : Option ι} {l : List ι}
    (h : Path next s l e) (hl : l ≠ []) : ∃ a ∈ l, s = some a := by
  cases l with
  | nil => exact absurd rfl hl
  | cons a l => exact ⟨a, by simp, h.1⟩

/-- The list around a node `k` that is not the head: `l₁` lies between the
head and `k`, whose predecessor is `q`, and `l₂` after it. -/
structure Around (head k q : ι) (tail : Option ι) (next prev : ι → Option ι)
    (l₁ r l₂ : List ι) : Prop where
  eq : head :: l₁ = r ++ [q]
  nodup : (head :: l₁ ++ k :: l₂).Nodup
  before : Path next (some head) r (some q)
  after : Path next (next k) l₂ none
  prevk : prev k = some q
  backAfter : Path prev tail l₂.reverse (some k)
  backBefore : Path prev (some q) l₁.reverse (some head)

theorem Links.around {head k : ι} {tail : Option ι} {next prev : ι → Option ι} {l : List ι}
    (h : Links (some head) tail next prev l) (hk : k ∈ l) (hne : head ≠ k) :
    ∃ q l₁ r l₂, l = head :: l₁ ++ k :: l₂ ∧ Around head k q tail next prev l₁ r l₂ := by
  obtain ⟨l₁, l₂, rfl⟩ := List.append_of_mem hk
  obtain ⟨_, hforth₁, rfl, hforth₂⟩ := path_append.mp h.forth
  have hback := h.back
  simp only [List.reverse_append, List.reverse_cons, List.append_assoc] at hback
  obtain ⟨_, hback₂, rfl, hback₁⟩ := path_append.mp hback
  cases l₁ with
  | nil => exact absurd (Option.some.inj hforth₁) hne
  | cons a l₁ =>
  obtain rfl := Option.some.inj hforth₁.1
  obtain ⟨r, q, hq⟩ : ∃ r q, head :: l₁ = r ++ [q] :=
    ⟨_, _, (List.dropLast_append_getLast (List.cons_ne_nil head l₁)).symm⟩
  have hprevk : prev k = some q := by
    rw [hq, List.reverse_append] at hback₁
    exact hback₁.1
  have hbefore : Path next (some head) r (some q) := by
    rw [hq] at hforth₁
    obtain ⟨_, hr, rfl, -⟩ := path_append.mp hforth₁
    exact hr
  have hbackBefore : Path prev (some q) l₁.reverse (some head) := by
    have hseg : Path prev (prev k) (head :: l₁).reverse none := hback₁
    rw [hprevk, List.reverse_cons] at hseg
    obtain ⟨_, hseg, rfl, -⟩ := path_append.mp hseg
    exact hseg
  exact ⟨q, l₁, r, l₂, rfl, hq, h.nodup, hbefore, hforth₂, hprevk, hback₂, hbackBefore⟩

theorem Around.not_mem {head k q : ι} {tail : Option ι} {next prev : ι → Option ι}
    {l₁ r l₂ : List ι} (h : Around head k q tail next prev l₁ r l₂) :
    k ∉ head :: l₁ ∧ k ∉ l₂ ∧ ∀ a ∈ head :: l₁, a ∉ l₂ := by
  obtain ⟨-, hnd, hdis⟩ := List.nodup_append.mp h.nodup
  exact ⟨fun hm => hdis k hm k (by simp) rfl, (List.nodup_cons.mp hnd).1,
    fun a ha ha' => hdis a ha a (by simp [ha']) rfl⟩

section MoveToFront

variable [DecidableEq ι]

/-- `moveToFront`'s new forward links. -/
def frontNext (head : ι) (next prev : ι → Option ι) (k : ι) : ι → Option ι :=
  Function.update
    (match prev k with
      | some q => Function.update next q (next k)
      | none => next) k (some head)

/-- `moveToFront`'s new backward links. -/
def frontPrev (head : ι) (next prev : ι → Option ι) (k : ι) : ι → Option ι :=
  Function.update
    (Function.update
      (match next k with
        | some x => Function.update prev x (prev k)
        | none => prev) k none) head (some k)

def frontTail (tail : Option ι) (prev : ι → Option ι) (k : ι) : Option ι :=
  if tail = some k then prev k else tail

section Around

variable {head k q : ι} {tail : Option ι} {next prev : ι → Option ι} {l₁ r l₂ : List ι}

theorem Around.forth (h : Around head k q tail next prev l₁ r l₂) :
    Path (frontNext head next prev k) (some head) (head :: l₁ ++ l₂) none := by
  obtain ⟨hk₁, hk₂, hdis⟩ := h.not_mem
  have hq : q ∈ head :: l₁ := by rw [h.eq]; simp
  have hqk : q ≠ k := fun heq => hk₁ (heq ▸ hq)
  have hnext : ∀ a, a ≠ k → a ≠ q → frontNext head next prev k a = next a := by
    intro a hak haq
    simp [frontNext, h.prevk, hak, haq]
  have hpred : frontNext head next prev k q = next k := by simp [frontNext, h.prevk, hqk]
  have hqr : q ∉ r := by
    have hnd := (List.nodup_append.mp h.nodup).1
    rw [h.eq] at hnd
    exact fun hm => List.disjoint_of_nodup_append hnd hm (by simp)
  refine path_append.mpr ⟨next k, ?_, h.after.congr fun a ha => hnext a ?_ ?_⟩
  · rw [h.eq] at hk₁ ⊢
    refine path_append.mpr ⟨some q, h.before.congr fun a ha => hnext a ?_ ?_, rfl, hpred⟩
    · rintro rfl
      exact hk₁ (by simp [ha])
    · rintro rfl
      exact hqr ha
  · rintro rfl
    exact hk₂ ha
  · rintro rfl
    exact hdis _ hq ha

/-- A link of `frontPrev` outside the three nodes it changes. -/
theorem frontPrev_of_ne {a : ι} (hk : a ≠ k) (hhead : a ≠ head) (hnext : next k ≠ some a) :
    frontPrev head next prev k a = prev a := by
  cases hx : next k with
  | none => simp [frontPrev, hx, hk, hhead]
  | some x =>
      have hne : a ≠ x := fun heq => hnext (by rw [hx, heq])
      simp [frontPrev, hx, hk, hhead, hne]

theorem Around.back_after (h : Around head k q tail next prev l₁ r l₂) :
    Path (frontPrev head next prev k) (frontTail tail prev k) l₂.reverse (some q) := by
  obtain ⟨-, hk₂, hdis⟩ := h.not_mem
  have hhead : head ∉ l₂ := hdis head (by simp)
  have hback := h.backAfter
  have hafter := h.after
  cases l₂ with
  | nil =>
      obtain rfl : tail = some k := hback
      simp [frontTail, Path, h.prevk]
  | cons x l₂ =>
      have htail : tail ≠ some k := by
        obtain ⟨a, ha, rfl⟩ := hback.start_mem (by simp)
        rw [List.mem_reverse] at ha
        rintro heq
        obtain rfl := Option.some.inj heq
        exact hk₂ ha
      have hxk : x ≠ k := fun heq => hk₂ (by simp [heq])
      have hxh : x ≠ head := fun heq => hhead (by simp [heq])
      have hprevx : frontPrev head next prev k x = some q := by
        simp [frontPrev, hafter.1, hxk, hxh, h.prevk]
      rw [frontTail, if_neg htail]
      rw [List.reverse_cons] at hback ⊢
      obtain ⟨_, hseg, rfl, -⟩ := path_append.mp hback
      refine path_append.mpr ⟨some x, hseg.congr fun a ha => ?_, rfl, hprevx⟩
      rw [List.mem_reverse] at ha
      refine frontPrev_of_ne ?_ ?_ ?_
      · rintro rfl
        exact hk₂ (by simp [ha])
      · rintro rfl
        exact hhead (List.mem_cons_of_mem _ ha)
      · rw [hafter.1]
        intro heq
        have hnd := (List.nodup_append.mp h.nodup).2.1
        rw [Option.some.injEq] at heq
        exact (List.nodup_cons.mp (List.nodup_cons.mp hnd).2).1 (heq ▸ ha)

theorem Around.back (h : Around head k q tail next prev l₁ r l₂) :
    Path (frontPrev head next prev k) (frontTail tail prev k)
      (k :: (head :: l₁ ++ l₂)).reverse none := by
  obtain ⟨hk₁, -, hdis⟩ := h.not_mem
  have hhk : head ≠ k := fun heq => hk₁ (by simp [heq])
  have hself : frontPrev head next prev k k = none := by simp [frontPrev, hhk.symm]
  have hhead : frontPrev head next prev k head = some k := by simp [frontPrev]
  have hnext : ∀ a ∈ l₁, next k ≠ some a := by
    intro a ha hx
    obtain ⟨b, hb, heq⟩ := (hx ▸ h.after).start_mem (l := l₂) (by
      rintro rfl
      have := h.after
      rw [hx] at this
      cases this)
    obtain rfl := Option.some.inj heq
    exact hdis a (by simp [ha]) hb
  rw [List.reverse_cons, List.reverse_append, List.append_assoc]
  refine path_append.mpr ⟨some q, h.back_after, path_append.mpr ⟨some k, ?_, rfl, hself⟩⟩
  rw [List.reverse_cons]
  refine path_append.mpr ⟨some head, h.backBefore.congr fun a ha => ?_, rfl, hhead⟩
  rw [List.mem_reverse] at ha
  refine frontPrev_of_ne ?_ ?_ (hnext a ha)
  · rintro rfl
    exact hk₁ (by simp [ha])
  · rintro rfl
    exact (List.nodup_cons.mp (List.nodup_append.mp h.nodup).1).1 ha

end Around

/-- A node that is not the head is unlinked and put in front. -/
theorem Links.moveToFront {head k : ι} {tail : Option ι} {next prev : ι → Option ι}
    {l : List ι} (h : Links (some head) tail next prev l) (hk : k ∈ l) (hne : head ≠ k) :
    Links (some k) (frontTail tail prev k) (frontNext head next prev k)
      (frontPrev head next prev k) (k :: l.erase k) := by
  obtain ⟨q, l₁, r, l₂, rfl, ha⟩ := h.around hk hne
  obtain ⟨hk₁, hk₂, hdis⟩ := ha.not_mem
  obtain ⟨hnd₁, hnd₂, -⟩ := List.nodup_append.mp h.nodup
  rw [List.erase_append_right _ hk₁, List.erase_cons_head]
  refine ⟨⟨rfl, ?_⟩, ha.back, List.nodup_cons.mpr ⟨?_, ?_⟩⟩
  · rw [show frontNext head next prev k k = some head by simp [frontNext]]
    exact ha.forth
  · rw [List.mem_append]
    exact fun hm => hm.elim hk₁ hk₂
  · exact List.nodup_append.mpr ⟨hnd₁, (List.nodup_cons.mp hnd₂).2,
      fun a ha b hb hab => hdis a ha (hab ▸ hb)⟩

end MoveToFront

/-! ## A row of nodes -/

section Row

variable {n : Nat}

def rowNext (k : Fin n) : Option (Fin n) :=
  if h : k.val + 1 < n then some ⟨k.val + 1, h⟩ else none

def rowPrev (k : Fin n) : Option (Fin n) :=
  if 0 < k.val then some ⟨k.val - 1, by omega⟩ else none

theorem row_forth (j : Nat) (hj : j ≤ n) :
    Path rowNext (if h : j < n then some ⟨j, h⟩ else none) ((List.finRange n).drop j) none := by
  induction hm : n - j generalizing j with
  | zero =>
      rw [dif_neg (by omega), List.drop_eq_nil_of_le (by rw [List.length_finRange]; omega)]
      rfl
  | succ m ih =>
      have hlt : j < n := by omega
      rw [List.drop_eq_getElem_cons (by rwa [List.length_finRange]), dif_pos hlt,
        List.getElem_finRange]
      exact ⟨rfl, ih (j + 1) (by omega) (by omega)⟩

theorem row_back (j : Nat) (hj : j ≤ n) :
    Path rowPrev (if h : 0 < j then some ⟨j - 1, by omega⟩ else none)
      ((List.finRange n).take j).reverse none := by
  induction j with
  | zero => rfl
  | succ j ih =>
      have hlt : j < (List.finRange n).length := by rw [List.length_finRange]; omega
      rw [List.take_succ_eq_append_getElem hlt, List.reverse_append, dif_pos (by omega),
        List.getElem_finRange]
      refine ⟨rfl, ?_⟩
      have h := ih (by omega)
      by_cases hpos : 0 < j
      · rw [dif_pos hpos] at h
        simpa [rowPrev, hpos] using h
      · rw [dif_neg hpos] at h
        simpa [rowPrev, hpos] using h

/-- All nodes in a row form a list. -/
theorem Links.row (h : 0 < n) :
    Links (some ⟨0, h⟩) (some ⟨n - 1, by omega⟩) rowNext rowPrev (List.finRange n) := by
  refine ⟨?_, ?_, List.nodup_finRange n⟩
  · have := row_forth 0 (Nat.zero_le n)
    rwa [dif_pos h] at this
  · have := row_back n (Nat.le_refl n)
    rwa [dif_pos h, List.take_of_length_le (by rw [List.length_finRange])] at this

end Row

/-! ## Chains with a last node -/

/-- A walk that looks for the node without a successor stops at the last
one. -/
theorem Path.find_last {next : ι → Option ι} {s : Option ι} {l : List ι} {a : ι}
    (h : Path next s (l ++ [a]) none) :
    (l ++ [a]).find? (fun b => (next b).isNone) = some a := by
  induction l generalizing s with
  | nil =>
      obtain ⟨rfl, hend⟩ := h
      have hnone : next a = none := hend
      simp [hnone]
  | cons b l ih =>
      obtain ⟨rfl, h⟩ := h
      obtain ⟨c, -, hc⟩ := Path.start_mem h (by simp)
      rw [List.cons_append, List.find?_cons, hc]
      exact ih h

/-- Linking a new node behind the last one. -/
theorem Path.snoc [DecidableEq ι] {next : ι → Option ι} {s : Option ι} {l : List ι} {a k : ι}
    (h : Path next s (l ++ [a]) none) (hnd : (l ++ [a]).Nodup) (hk : k ∉ l ++ [a]) :
    Path (Function.update (Function.update next k none) a (some k)) s (l ++ [a] ++ [k]) none := by
  have hka : k ≠ a := fun he => hk (by simp [he])
  have hal : a ∉ l := fun hm => (List.nodup_append.mp hnd).2.2 a hm a (by simp) rfl
  obtain ⟨x, hl, rfl, -⟩ := path_append.mp h
  refine path_append.mpr ⟨some k, path_append.mpr ⟨some a, hl.congr fun b hb => ?_, ?_⟩, ?_⟩
  · have hba : b ≠ a := fun he => hal (he ▸ hb)
    have hbk : b ≠ k := fun he => hk (by simp [← he, hb])
    rw [Function.update_of_ne hba, Function.update_of_ne hbk]
  · exact ⟨rfl, Function.update_self ..⟩
  · refine ⟨rfl, ?_⟩
    rw [Function.update_of_ne hka, Function.update_self]
    rfl

end Dlist
