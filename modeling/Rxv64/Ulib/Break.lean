import Rxv64.Ulib.Release
import Rxv64.Vm.Launch

/-!
# Ulib.Break — whether the break is aligned

`sbrk` returns the break as it is, and `more_units` asserts that it is a
multiple of the alignment of a header. Requests are multiples of the size of a
header, so all depends on the break that the program starts with.

The addresses that the list, `FREE_LIST` and the live pointers lead to are all
aligned when the break is. That needs none of the order of `Ulib.Malloc`: it
holds also when a request has wrapped.
-/

namespace Rxv64.Ulib.Malloc.Release

open Blocks Runs

variable {base nunits freep fuel prevp ptr : Nat} {rooms : List Bool} {h h' : Heap}
  {S : Nat → Prop}

/-! ## Addresses that lead to each other -/

/-- A set of aligned addresses that `next` does not leave. -/
structure Closed (S : Nat → Prop) (h : Heap) : Prop where
  aligned : ∀ a, S a → a % headerAlign = 0
  next : ∀ a, S a → S (h.mem a).next
  freeList : ∀ a, h.freeList = some a → S a

/-- Another header, with its `next` in the set. -/
theorem Closed.update (hc : Closed S h) {a : Nat} {x : Header} (ha : a % headerAlign = 0)
    (hx : S x.next ∨ x.next = a) {f : Option Nat} (hf : ∀ p, f = some p → S p ∨ p = a)
    (regions : List Blocks.Block) (brk : Nat) :
    Closed (fun i => S i ∨ i = a) ⟨Function.update h.mem a x, f, regions, brk⟩ where
  aligned := by
    rintro i (hi | rfl)
    · exact hc.aligned i hi
    · exact ha
  next := by
    intro i hi
    show (fun i => S i ∨ i = a) (Function.update h.mem a x i).next
    by_cases hia : i = a
    · subst hia
      rw [Function.update_self]
      exact hx
    · rw [Function.update_of_ne hia]
      exact .inl (hc.next i (hi.resolve_right hia))
  freeList := hf

/-- The same set, when the address was in it. -/
theorem Closed.mono {T : Nat → Prop} (hc : Closed T h) (hST : ∀ a, S a ↔ T a) : Closed S h :=
  ⟨fun a ha => hc.aligned a ((hST a).mp ha), fun a ha => (hST _).mpr (hc.next a ((hST a).mp ha)),
    fun a ha => (hST a).mpr (hc.freeList a ha)⟩

theorem Closed.joinNext (hc : Closed S h) {a b : Nat} (ha : S a) (hb : S b) :
    Closed S { h with mem := joinNext unitSize h.mem a b } := by
  refine (hc.update (hc.aligned a ha) (.inl ?_) (fun p hp => .inl (hc.freeList p hp))
    h.regions h.brk).mono
    fun i => ⟨.inl, ?_⟩
  · split
    · exact hc.next b hb
    · exact hb
  · rintro (hi | rfl)
    · exact hi
    · exact ha

theorem Closed.link (hc : Closed S h) {p tag nextp : Nat} (hp : S p) (htag : S tag)
    (hnext : S nextp) : Closed S (link h p tag nextp) := by
  have h₁ := (hc.joinNext htag hnext).joinNext hp htag
  exact ⟨h₁.aligned, h₁.next, fun a ha => by
    cases ha
    exact hp⟩

theorem Closed.freeLoop (hc : Closed S h) {tag p q : Nat} (htag : S tag) (hp : S p)
    (hrun : freeLoop fuel h tag p = some (q, h')) : Closed S h' ∧ S q ∧ h'.brk = h.brk := by
  induction fuel generalizing p with
  | zero => cases hrun
  | succ fuel ih =>
      rw [Malloc.freeLoop] at hrun
      split at hrun
      · cases hrun
        exact ⟨hc.link hp htag (hc.next _ hp), hp, rfl⟩
      · exact ih (hc.next _ hp) hrun

theorem Closed.innerFree (hc : Closed S h) {tag q : Nat} (htag : S tag)
    (hrun : innerFree fuel h tag = some (q, h')) : Closed S h' ∧ S q ∧ h'.brk = h.brk := by
  rw [Malloc.innerFree] at hrun
  split at hrun
  · cases hrun
  · split at hrun
    · cases hrun
      exact ⟨⟨hc.aligned, hc.next, fun a ha => by
        cases ha
        exact htag⟩, htag, rfl⟩
    · next p hp => exact hc.freeLoop htag (hc.freeList p hp) hrun

/-- A larger set, with what a function returns. -/
def Extends (S : Nat → Prop) (h' : Heap) (r : Option Nat) : Prop :=
  ∃ T, (∀ a, S a → T a) ∧ Closed T h' ∧ ∀ p, r = some p → T p

theorem Closed.carve (hc : Closed S h) (nunits : Nat) (hprev : S prevp) (hptr : S ptr) :
    Extends S (carve h nunits prevp ptr).2 (some (carve h nunits prevp ptr).1) ∧
      (carve h nunits prevp ptr).2.brk = h.brk := by
  have hpa := hc.aligned ptr hptr
  have hnext := hc.next ptr hptr
  unfold Malloc.carve
  split
  · have hprev' := hc.update (x := ⟨(h.mem ptr).next, (h.mem prevp).nunits⟩)
      (hc.aligned prevp hprev) (.inl hnext) (f := some prevp)
      (fun p hp => .inl (by cases hp; exact hprev)) h.regions h.brk
    refine ⟨⟨fun i => S i ∨ i = prevp, fun _ ha => .inl ha, hprev', fun p hp => ?_⟩, rfl⟩
    cases hp
    exact .inl hptr
  · have hrest := hc.update (x := ⟨(h.mem ptr).next, (h.mem ptr).nunits - nunits⟩) hpa
      (.inl hnext) (fun p hp => .inl (hc.freeList p hp)) h.regions h.brk
    have htail : (ptr + unitSize * ((h.mem ptr).nunits - nunits)) % headerAlign = 0 := by
      rw [show unitSize = headerAlign * 2 from rfl, Nat.mul_assoc, Nat.add_mul_mod_self_left]
      exact hpa
    have hboth := hrest.update (x := ⟨(h.mem ptr).next, nunits⟩) htail (.inl (.inl hnext))
      (f := some prevp) (fun p hp => .inl (.inl (by cases hp; exact hprev)))
      h.regions h.brk
    refine ⟨⟨fun i => (S i ∨ i = ptr) ∨ i = ptr + unitSize * ((h.mem ptr).nunits - nunits),
      fun _ ha => .inl (.inl ha), hboth, fun p hp => ?_⟩, rfl⟩
    cases hp
    exact .inr rfl

/-- The break moves by a multiple of the alignment, also when it wraps. -/
theorem newBrk_aligned {brk k : Nat} (hbrk : brk % headerAlign = 0) :
    newBrk brk (asIsize (unitSize * k)) % headerAlign = 0 := by
  have hword : asIsize (unitSize * k) =
      if 2 * (16 * k % 2 ^ 64) < 2 ^ 64 then ((16 * k % 2 ^ 64 : Nat) : Int)
      else ((16 * k % 2 ^ 64 : Nat) : Int) - (2 ^ 64 : Nat) := by
    rw [asIsize, BitVec.toInt_eq_toNat_cond, BitVec.toNat_ofNat]
  have halign : brk % 8 = 0 := hbrk
  show newBrk brk (asIsize (unitSize * k)) % 8 = 0
  unfold newBrk
  rw [hword]
  split <;> omega

/-! ## `krmalloc` -/

/-- All successful calls return aligned addresses. -/
def CallsAligned (calls : List Call) : Prop :=
  ∀ c ∈ calls, ∀ p, c.answer = some p → p % headerAlign = 0

theorem callsAligned_nil : CallsAligned [] := by
  intro c hc
  cases hc

/-- What a function leaves: a larger set and an aligned break. -/
def Leaves (S : Nat → Prop) (r : Option Nat) (h' : Heap) : Prop :=
  h'.brk % headerAlign = 0 ∧ Extends S h' r

theorem Closed.moreUnits (hc : Closed S h) (hbrk : h.brk % headerAlign = 0) (nunits : Nat)
    (room : Bool) :
    CallsAligned [(moreUnits nunits room h).1] ∧
      ∀ r h', (moreUnits nunits room h).2 = some (r, h') → Leaves S r h' := by
  have hsame : Leaves S none h := ⟨hbrk, S, fun _ ha => ha, hc, fun p hp => by cases hp⟩
  unfold Release.moreUnits safeSbrk
  dsimp only
  split
  · next heq =>
    split at heq
    · cases heq
    · cases heq
      refine ⟨fun c hcall p hp => ?_, fun r h' hr => ?_⟩
      · rw [List.mem_singleton.mp hcall] at hp
        cases hp
      · cases hr
        exact hsame
  · next heq =>
    split at heq
    · cases heq
      refine ⟨fun c hcall p hp => ?_, fun r h' hr => ?_⟩
      · rw [List.mem_singleton.mp hcall] at hp
        cases hp
        exact hbrk
      · rw [if_pos hbrk] at hr
        cases hr
        refine ⟨newBrk_aligned hbrk, fun i => S i ∨ i = h.brk, fun _ ha => .inl ha,
          hc.update hbrk (.inr rfl) (fun p hp => .inl (hc.freeList p hp)) _ _, fun p hp => ?_⟩
        cases hp
        exact .inr rfl
    · cases heq

theorem Leaves.trans {T : Nat → Prop} {r : Option Nat} (hst : ∀ a, S a → T a)
    (hl : Leaves T r h') : Leaves S r h' := by
  obtain ⟨hbrk, U, hTU, hc, hr⟩ := hl
  exact ⟨hbrk, U, fun a ha => hTU a (hst a ha), hc, hr⟩

/-- **The loop** only hands on addresses of the set and the break. -/
theorem Closed.mallocLoop (hc : Closed S h) (hbrk : h.brk % headerAlign = 0) (hprev : S prevp)
    (hptr : S ptr) :
    CallsAligned (mallocLoop nunits freep fuel rooms h prevp ptr).1 ∧
      ∀ r h', (mallocLoop nunits freep fuel rooms h prevp ptr).2 = some (r, h') →
        Leaves S r h' := by
  induction fuel generalizing S rooms h prevp ptr with
  | zero => exact ⟨callsAligned_nil, fun r h' hr => by cases hr⟩
  | succ fuel ih =>
      rw [Release.mallocLoop.eq_def]
      dsimp only
      split
      · refine ⟨callsAligned_nil, fun r h' hr => ?_⟩
        cases hr
        obtain ⟨hext, hsame⟩ := hc.carve nunits hprev hptr
        exact ⟨by rw [hsame]; exact hbrk, hext⟩
      split
      · cases rooms with
        | nil => exact ⟨callsAligned_nil, fun r h' hr => by cases hr⟩
        | cons room rooms =>
            obtain ⟨hcall, hmore⟩ := hc.moreUnits hbrk nunits room
            dsimp only
            generalize Release.moreUnits nunits room h = more at hcall hmore
            obtain ⟨call, _ | ⟨_ | units, h₁⟩⟩ := more
            · exact ⟨hcall, fun r h' hr => by cases hr⟩
            · refine ⟨hcall, fun r h' hr => ?_⟩
              cases hr
              exact hmore _ _ rfl
            · -- the new block goes into the list, and the search goes on
              obtain ⟨hbrk₁, T, hST, hT, hunits⟩ := hmore _ _ rfl
              dsimp only
              cases hfree : Malloc.innerFree fuel h₁ units with
              | none => exact ⟨hcall, fun r h' hr => by cases hr⟩
              | some res =>
                  obtain ⟨q, h₂⟩ := res
                  obtain ⟨hT₂, hq, hsame⟩ := hT.innerFree (hunits _ rfl) hfree
                  obtain ⟨hcalls, hrest⟩ : CallsAligned (Release.mallocLoop nunits freep fuel rooms
                      h₂ q (h₂.mem q).next).1 ∧ _ :=
                    ih hT₂ (by rw [hsame]; exact hbrk₁) hq (hT₂.next q hq)
                  refine ⟨fun c hc p hp => ?_, fun r h' hr => (hrest r h' hr).trans hST⟩
                  rcases List.mem_cons.mp hc with rfl | hc
                  · exact hcall _ (List.mem_singleton.mpr rfl) p hp
                  · exact hcalls c hc p hp
      · exact ih hc hbrk hptr (hc.next ptr hptr)

theorem Closed.started (hc : Closed S h) (hbase : base % headerAlign = 0) :
    ∃ T, (∀ a, S a → T a) ∧ Closed T (started base h) ∧ (started base h).brk = h.brk := by
  unfold Release.started
  split
  · refine ⟨fun i => S i ∨ i = base, fun _ ha => .inl ha, hc.update hbase (.inr rfl) ?_ _ _, rfl⟩
    intro p hp
    cases hp
    exact .inr rfl
  · exact ⟨S, fun _ ha => ha, hc, rfl⟩

theorem Closed.innerMalloc (hc : Closed S h) (hbase : base % headerAlign = 0)
    (hbrk : h.brk % headerAlign = 0) (fuel : Nat) (rooms : List Bool) (n : Nat) :
    CallsAligned (innerMalloc base fuel rooms h n).1 ∧
      ∀ r h', (innerMalloc base fuel rooms h n).2 = some (r, h') → Leaves S r h' := by
  unfold Release.innerMalloc
  split
  · obtain ⟨T, hST, hT, hsame⟩ := hc.started hbase
    dsimp only
    split
    · next units freep _ hfree =>
      have hp := hT.freeList freep hfree
      obtain ⟨hcalls, hres⟩ : CallsAligned (Release.mallocLoop (units + 1) freep fuel rooms
          (Release.started base h) freep ((Release.started base h).mem freep).next).1 ∧ _ :=
        hT.mallocLoop (by rw [hsame]; exact hbrk) hp (hT.next freep hp)
      exact ⟨hcalls, fun r h' hr => (hres r h' hr).trans hST⟩
    · exact ⟨callsAligned_nil, fun r h' hr => by cases hr⟩
  · refine ⟨callsAligned_nil, fun r h' hr => ?_⟩
    cases hr
    exact ⟨hbrk, S, fun _ ha => ha, hc, fun p hp => by cases hp⟩

/-- A pointer is behind its header. -/
theorem krmalloc_pointer {n p : Nat} (hr : (krmalloc base fuel rooms h n).2 = some (some p, h')) :
    ∃ q, p = q + unitSize ∧ (innerMalloc base fuel rooms h n).2 = some (some q, h') := by
  obtain ⟨⟨r, h₁⟩, hinner, he⟩ := Option.map_eq_some_iff.mp hr
  obtain ⟨hq, rfl⟩ := Prod.mk.inj he
  obtain ⟨q, hrq, hqp⟩ := Option.map_eq_some_iff.mp hq
  refine ⟨q, hqp.symm, ?_⟩
  rw [hinner]
  exact congrArg (fun r => some (r, h₁)) hrq

/-! ## A program from its start -/

/-- The headers that the list and the live pointers lead to. -/
inductive Known (s : Program) : Nat → Prop where
  | freeList {a : Nat} : s.heap.freeList = some a → Known s a
  | live {x : Live} : x ∈ s.live → Known s x.block.addr
  | next {a : Nat} : Known s a → Known s (s.heap.mem a).next

inductive Event where
  | malloc (n : Nat) (rooms : List Bool)
  | free (p : Option Nat)
  | write

/-- Calls that return, and writes that keep away from the headers. -/
inductive Step (base : Nat) (s : Program) : Event → Program → Prop where
  | malloc {n p fuel : Nat} {rooms : List Bool} {h : Heap} :
      (krmalloc base fuel rooms s.heap n).2 = some (some p, h) →
      Step base s (.malloc n rooms)
        ⟨h, ⟨⟨p - unitSize, (h.mem (p - unitSize)).nunits⟩, n⟩ :: s.live⟩
  | mallocNull {n fuel : Nat} {rooms : List Bool} {h : Heap} :
      (krmalloc base fuel rooms s.heap n).2 = some (none, h) →
      Step base s (.malloc n rooms) ⟨h, s.live⟩
  | free {fuel : Nat} {pre post : List Live} {x : Live} {h : Heap} :
      s.live = pre ++ x :: post →
      krfree fuel s.heap (some (x.block.addr + unitSize)) = some h →
      Step base s (.free (some (x.block.addr + unitSize))) ⟨h, pre ++ post⟩
  | freeNull {fuel : Nat} {h : Heap} :
      krfree fuel s.heap none = some h → Step base s (.free none) ⟨h, s.live⟩
  | write {mem : Nat → Header} :
      (∀ a, Known s a → mem a = s.heap.mem a) → Step base s .write ⟨{ s.heap with mem }, s.live⟩

/-- A program that `exec` has just started, with its size as the break. -/
structure Started (base size : Nat) (s : Program) : Prop where
  live : s.live = []
  freeList : s.heap.freeList = none
  brk : s.heap.brk = size

/-- What is asserted about addresses: `more_units` of those from `sbrk`, `krfree`
of those that `krmalloc` returns. -/
structure Passes (base : Nat) (s : Program) : Prop where
  calls : ∀ n fuel rooms, CallsAligned (krmalloc base fuel rooms s.heap n).1
  pointers : ∀ n fuel rooms p h', (krmalloc base fuel rooms s.heap n).2 = some (some p, h') →
    p % headerAlign = 0

/-- The invariant. -/
def Level (s : Program) : Prop :=
  s.heap.brk % headerAlign = 0 ∧ ∃ S, Closed S s.heap ∧ ∀ x ∈ s.live, S x.block.addr

theorem Level.passes {s : Program} (hl : Level s) (hbase : base % headerAlign = 0) :
    Passes base s := by
  obtain ⟨hbrk, S, hc, -⟩ := hl
  refine ⟨fun n fuel rooms => (hc.innerMalloc hbase hbrk fuel rooms n).1,
    fun n fuel rooms p h' hr => ?_⟩
  obtain ⟨q, rfl, hinner⟩ := krmalloc_pointer hr
  obtain ⟨-, T, -, hT, hq⟩ := (hc.innerMalloc hbase hbrk fuel rooms n).2 _ _ hinner
  have halign := hT.aligned q (hq q rfl)
  rw [show unitSize = headerAlign * 2 from rfl, Nat.add_mul_mod_self_left]
  exact halign

theorem Step.level {s s' : Program} {e : Event} (hstep : Step base s e s')
    (hbase : base % headerAlign = 0) (hl : Level s) : Level s' := by
  obtain ⟨hbrk, S, hc, hlive⟩ := hl
  cases hstep with
  | @malloc n p fuel rooms h' hr =>
      obtain ⟨q, rfl, hinner⟩ := krmalloc_pointer hr
      obtain ⟨hbrk', T, hST, hT, hq⟩ := (hc.innerMalloc hbase hbrk fuel rooms n).2 _ _ hinner
      refine ⟨hbrk', T, hT, fun x hx => ?_⟩
      rcases List.mem_cons.mp hx with rfl | hx
      · show T (q + unitSize - unitSize)
        rw [Nat.add_sub_cancel]
        exact hq q rfl
      · exact hST _ (hlive x hx)
  | @mallocNull n fuel rooms h' hr =>
      obtain ⟨⟨r, h₁⟩, hinner, he⟩ := Option.map_eq_some_iff.mp hr
      obtain ⟨-, rfl⟩ := Prod.mk.inj he
      obtain ⟨hbrk', T, hST, hT, -⟩ := (hc.innerMalloc hbase hbrk fuel rooms n).2 _ _ hinner
      exact ⟨hbrk', T, hT, fun x hx => hST _ (hlive x hx)⟩
  | @free fuel pre post x h' hx hr =>
      have hmem : ∀ y ∈ pre ++ x :: post, S y.block.addr := fun y hy => hlive y (hx ▸ hy)
      rw [krfree] at hr
      split at hr
      · obtain ⟨⟨q, h₁⟩, hinner, rfl⟩ := Option.map_eq_some_iff.mp hr
        rw [Nat.add_sub_cancel] at hinner
        obtain ⟨hc', -, hsame⟩ := hc.innerFree
          (hmem x (List.mem_append_right _ List.mem_cons_self)) hinner
        refine ⟨by show h₁.brk % headerAlign = 0; rw [hsame]; exact hbrk, S, hc', fun y hy => ?_⟩
        rcases List.mem_append.mp hy with hy | hy
        · exact hmem y (List.mem_append_left _ hy)
        · exact hmem y (List.mem_append_right _ (List.mem_cons_of_mem _ hy))
      · cases hr
  | freeNull hr =>
      cases hr
      exact ⟨hbrk, S, hc, hlive⟩
  | @write mem hmem =>
      -- what is known is in the set, and nothing of it has changed
      have hknown : ∀ a, Known s a → S a := by
        intro a ha
        induction ha with
        | freeList ha => exact hc.freeList _ ha
        | live hx => exact hlive _ hx
        | next _ ih => exact hc.next _ ih
      refine ⟨hbrk, Known s, ⟨fun a ha => hc.aligned a (hknown a ha), fun a ha => ?_,
        fun a ha => .freeList ha⟩, fun x hx => .live hx⟩
      show Known s (mem a).next
      rw [hmem a ha]
      exact .next ha

/-- The first request is answered with the size, or one that wraps is. -/
theorem Started.not_passes {size : Nat} {s : Program} (hs : Started base size s)
    (hsize : size ≤ Vm.userEnd) (hp : Passes base s) : size % headerAlign = 0 := by
  have hfree : (started base s.heap).freeList = some base := by
    rw [started, if_pos hs.freeList]
    rfl
  have hmem : (started base s.heap).mem base = ⟨base, 0⟩ := by
    rw [started, if_pos hs.freeList]
    exact Function.update_self ..
  have hbrk : (started base s.heap).brk = size := by
    rw [started, if_pos hs.freeList]
    exact hs.brk
  -- `sbrk(0)` succeeds in every process
  have hunits : bytes2units (2 ^ 64 - 31) = some (2 ^ 60 - 1) := by decide
  have hzero : asIsize (unitSize * max (2 ^ 60 - 1 + 1) 4096) = 0 := by decide
  have hsame : newBrk size 0 = size := by
    have hend : Vm.userEnd < 2 ^ 64 := by decide
    unfold newBrk
    omega
  have hrun : (⟨0, 2 ^ 60, some size⟩ : Call) ∈
      (krmalloc base 1 [true] s.heap (2 ^ 64 - 31)).1 := by
    rw [krmalloc_started (by decide) hunits hfree, loop_eq_search, hmem, search, hmem,
      if_neg (Nat.not_le_of_lt (show 0 < 2 ^ 60 - 1 + 1 by decide)), if_pos rfl]
    dsimp only
    have hmore : (moreUnits (2 ^ 60 - 1 + 1) true (started base s.heap)).1 =
        ⟨0, 2 ^ 60, some size⟩ := by
      unfold moreUnits safeSbrk
      dsimp only
      rw [hzero, hbrk, hsame, if_pos ⟨.inr ⟨Int.le_refl 0, by rw [hsame], by rw [hsame]; exact hsize⟩,
        rfl⟩]
      rfl
    rw [ask]
    dsimp only
    generalize moreUnits (2 ^ 60 - 1 + 1) true (started base s.heap) = more at hmore
    obtain ⟨call, _ | ⟨_ | units, h₁⟩⟩ := more
    · exact List.mem_singleton.mpr hmore.symm
    · exact List.mem_singleton.mpr hmore.symm
    · dsimp only
      split
      · exact List.mem_singleton.mpr hmore.symm
      · exact List.mem_cons.mpr (.inl hmore.symm)
  exact hp.calls _ _ _ _ hrun size rfl

/-- **The assertions hold in every run** just when the size is a multiple of the
alignment. -/
theorem passes_iff_size {size : Nat} (hbase : base % headerAlign = 0) (hsize : size ≤ Vm.userEnd) :
    (∀ s, Reach (Started base size) (Step base) s → Passes base s) ↔ size % headerAlign = 0 := by
  constructor
  · intro hall
    have hs : Started base size ⟨⟨fun _ => ⟨0, 0⟩, none, [], size⟩, []⟩ := ⟨rfl, rfl, rfl⟩
    exact hs.not_passes hsize (hall _ (.init hs))
  · intro halign s hreach
    refine Level.passes (hreach.invariant (fun s hs => ?_) fun s e s' hl hstep =>
      hstep.level hbase hl) hbase
    refine ⟨by rw [hs.brk]; exact halign, fun _ => False, ⟨fun a ha => ha.elim, fun a ha => ha.elim,
      fun a ha => ?_⟩, fun x hx => ?_⟩
    · rw [hs.freeList] at ha
      cases ha
    · rw [hs.live] at hx
      cases hx

/-! ## A program that `exec` has loaded -/

/-- **The break of a loaded program** is where its segments end, and all that is asserted about
addresses holds just when that is aligned. -/
theorem passes_iff_image {A : Set Vm.Frame} {m m' : Vm.Mem} {l : List Vm.Frame}
    {kpgtbl root : Vm.Frame} {file : List (BitVec 8)} {fails : Nat → Nat → Option String}
    {env : Vm.Env} {entry size : Nat} (h : Vm.Pool A m l) (hfile : file.length < 2 ^ 64)
    (hload : Vm.loadProgram kpgtbl (Vm.fileReadi file fails) env m = .ok (root, entry, size) m')
    (hbase : base % headerAlign = 0) :
    (∀ s, Reach (Started base size) (Step base) s → Passes base s) ↔
      Vm.imageSize (Vm.fileSegments file) % headerAlign = 0 := by
  have hsize := (Vm.loadProgram_size h hfile).of_ok hload
  have heq : size = Vm.imageSize (Vm.fileSegments file) := hsize.1
  rw [passes_iff_size hbase hsize.2, heq]

/-- A small machine with the kernel's table at frame 0. -/
abbrev machine : Vm.Mem := (Vm.Sys.boot [0, 1, 2, 3, 4, 5, 6, 7, 8, 9, 10, 11]).mem

theorem machine_pool : ∃ A l, Vm.Pool A machine l := by
  obtain ⟨l, hchain, hnodup⟩ := (Vm.Sys.boot_ok
    (by decide : ([0, 1, 2, 3, 4, 5, 6, 7, 8, 9, 10, 11] : List Vm.Frame).Nodup)).free
  exact ⟨{g | g ∈ l}, l, hchain, hnodup, fun _ hg => hg⟩

/-- Four bytes of code in a segment of nine. -/
def oddElf : List (BitVec 8) := Vm.elfFile 0 [Vm.phBytes 5 120 0 4 9] [1, 2, 3, 4]

theorem oddElf_loaded : ∃ root m', Vm.loadProgram 0 (Vm.fileReadi oddElf fun _ _ => none) .willing
    machine = .ok (root, 0, 9) m' := by
  have hrun : ((Vm.loadProgram 0 (Vm.fileReadi oddElf fun _ _ => none) .willing
      machine).result?.map fun r => r.1.2) = some (0, 9) := by decide +kernel
  obtain ⟨⟨root, entry, size⟩, m', hok, heq⟩ := Outcome.ok_of_map hrun
  cases heq
  exact ⟨root, m', hok⟩

/-- A program whose last segment ends at 9. -/
theorem break_odd : ∃ root m', Vm.loadProgram 0 (Vm.fileReadi oddElf fun _ _ => none) .willing
    machine = .ok (root, 0, 9) m' ∧
    ∃ s, Reach (Started 16 9) (Step 16) s ∧ ¬Passes 16 s := by
  obtain ⟨root, m', hload⟩ := oddElf_loaded
  refine ⟨root, m', hload, ?_⟩
  by_contra hnone
  have hall : ∀ s, Reach (Started 16 9) (Step 16) s → Passes 16 s := by
    intro s hs
    by_contra hp
    exact hnone ⟨s, hs, hp⟩
  have halign := (passes_iff_size (by decide) (by decide)).mp hall
  revert halign
  decide

theorem passes_iff_image_odd : (∀ s, Reach (Started 16 9) (Step 16) s → Passes 16 s) ↔
    Vm.imageSize (Vm.fileSegments oddElf) % headerAlign = 0 := by
  obtain ⟨A, l, hpool⟩ := machine_pool
  obtain ⟨root, m', hload⟩ := oddElf_loaded
  exact passes_iff_image hpool (by decide +kernel) hload (by decide)

end Rxv64.Ulib.Malloc.Release
