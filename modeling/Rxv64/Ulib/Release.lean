import Rxv64.Ulib.Search
import Rxv64.Vm.System

/-!
# Ulib.Release — `krmalloc` as a release build computes it

In a release build the number of bytes that `more_units` asks for is taken
modulo `2^64`, and `sbrk` reads it as a signed number. The functions here are
those of `Ulib.Malloc` with that arithmetic, with the break of the process as
`adjsize` moves it and with the alignment assertion of `more_units` as a step of
its own. They also record the calls of `sbrk`.
-/

namespace Rxv64.Ulib.Malloc.Release

open Blocks Runs

/-- A call of `sbrk`: the bytes, the units in the header that is written when it
succeeds, and the address it returns. -/
structure Call where
  nbytes : Int
  nunits : Nat
  answer : Option Nat

/-- `nbytes as isize`, of a product that wraps. -/
def asIsize (nbytes : Nat) : Int := (BitVec.ofNat 64 nbytes).toInt

/-- `old_size.wrapping_add(delta as usize)`. -/
def newBrk (brk : Nat) (nbytes : Int) : Nat := ((brk + nbytes) % 2 ^ 64).toNat

/-- What `adjsize` and `alloc_user` ask of the sizes. -/
def Allowed (brk : Nat) (nbytes : Int) : Prop :=
  (nbytes < 0 ∧ newBrk brk nbytes ≤ brk) ∨
    (0 ≤ nbytes ∧ brk ≤ newBrk brk nbytes ∧ newBrk brk nbytes ≤ Vm.userEnd)

instance (brk : Nat) (nbytes : Int) : Decidable (Allowed brk nbytes) :=
  inferInstanceAs (Decidable (_ ∨ _))

/-- `safe_sbrk`. `room` says whether there are pages for the process. -/
def safeSbrk (nbytes : Int) (room : Bool) (h : Heap) : Option Nat × Heap :=
  if Allowed h.brk nbytes ∧ room then
    (some h.brk, { h with
      regions := ⟨h.brk, nbytes.toNat / unitSize⟩ :: h.regions
      brk := newBrk h.brk nbytes })
  else (none, h)

def moreUnits (nunits : Nat) (room : Bool) (h : Heap) : Call × Option (Option Nat × Heap) :=
  let nunits := max nunits 4096
  let nbytes := asIsize (unitSize * nunits)
  match safeSbrk nbytes room h with
  | (none, h) => (⟨nbytes, nunits, none⟩, some (none, h))
  | (some p, h) => (⟨nbytes, nunits, some p⟩,
      if p % headerAlign = 0 then
        some (some p, { h with mem := Function.update h.mem p ⟨p, nunits⟩ })
      else none)

/-- The loop of `inner_malloc`: its calls of `sbrk`, and what it returns. -/
def mallocLoop (nunits freep : Nat) : Nat → List Bool → Heap → Nat → Nat →
    List Call × Option (Option Nat × Heap)
  | 0, _, _, _, _ => ([], none)
  | fuel + 1, rooms, h, prevp, ptr =>
      if nunits ≤ (h.mem ptr).nunits then
        ([], some (some (carve h nunits prevp ptr).1, (carve h nunits prevp ptr).2))
      else if ptr = freep then
        match rooms with
        | [] => ([], none)
        | room :: rooms =>
            match moreUnits nunits room h with
            | (call, none) => ([call], none)
            | (call, some (none, h)) => ([call], some (none, h))
            | (call, some (some units, h)) =>
                match innerFree fuel h units with
                | none => ([call], none)
                | some (q, h) =>
                    let r := mallocLoop nunits freep fuel rooms h q (h.mem q).next
                    (call :: r.1, r.2)
      else mallocLoop nunits freep fuel rooms h ptr (h.mem ptr).next

/-- `free_list` is there after the first lines of `inner_malloc`. -/
def started (base : Nat) (h : Heap) : Heap := if h.freeList = none then initialise base h else h

def innerMalloc (base fuel : Nat) (rooms : List Bool) (h : Heap) (n : Nat) :
    List Call × Option (Option Nat × Heap) :=
  if n ≠ 0 then
    let h := started base h
    match bytes2units n, h.freeList with
    | some units, some freep =>
        mallocLoop (units + 1) freep fuel rooms h freep (h.mem freep).next
    | _, _ => ([], none)
  else ([], some (none, h))

def krmalloc (base fuel : Nat) (rooms : List Bool) (h : Heap) (n : Nat) :
    List Call × Option (Option Nat × Heap) :=
  let r := innerMalloc base fuel rooms h n
  (r.1, r.2.map fun r => (r.1.map (· + unitSize), r.2))

variable {base nunits freep fuel prevp ptr : Nat} {rooms : List Bool} {h : Heap}

/-! ## The loop -/

/-- What the loop does when it has come around. -/
def ask (nunits freep fuel : Nat) (rooms : List Bool) (h : Heap) :
    List Call × Option (Option Nat × Heap) :=
  match rooms with
  | [] => ([], none)
  | room :: rooms =>
      match moreUnits nunits room h with
      | (call, none) => ([call], none)
      | (call, some (none, h)) => ([call], some (none, h))
      | (call, some (some units, h)) =>
          match innerFree fuel h units with
          | none => ([call], none)
          | some (q, h) =>
              let r := mallocLoop nunits freep fuel rooms h q (h.mem q).next
              (call :: r.1, r.2)

/-- The loop is a search and what follows it. -/
theorem loop_eq_search : mallocLoop nunits freep fuel rooms h prevp ptr =
    match search nunits freep h.mem fuel prevp ptr with
    | none => ([], none)
    | some (.block prevp ptr, _) =>
        ([], some (some (carve h nunits prevp ptr).1, (carve h nunits prevp ptr).2))
    | some (.around, fuel) => ask nunits freep fuel rooms h := by
  induction fuel generalizing prevp ptr with
  | zero => rfl
  | succ fuel ih =>
      rw [mallocLoop.eq_def, search]
      dsimp only
      split
      · rfl
      · split
        · rfl
        · exact ih

/-- More fuel does not change how a search ends. -/
theorem search_ends {mem : Nat → Header} {r : Found} {left : Nat}
    (hs : search nunits freep mem fuel prevp ptr = some (r, left)) (fuel' : Nat) :
    search nunits freep mem fuel' prevp ptr = none ∨
      ∃ left', search nunits freep mem fuel' prevp ptr = some (r, left') := by
  induction fuel generalizing prevp ptr fuel' with
  | zero => cases hs
  | succ fuel ih =>
      cases fuel' with
      | zero => exact .inl rfl
      | succ fuel' =>
          rw [search] at hs ⊢
          split at hs
          · next hle =>
            cases hs
            exact .inr ⟨fuel', if_pos hle⟩
          · next hle =>
            rw [if_neg hle]
            split at hs
            · next heq =>
              cases hs
              exact .inr ⟨fuel', if_pos heq⟩
            · next hne =>
              rw [if_neg hne]
              exact ih hs fuel'

/-- Every call is for the same number of units. -/
def Call.For (nunits : Nat) (c : Call) : Prop :=
  c.nunits = max nunits 4096 ∧ c.nbytes = asIsize (unitSize * max nunits 4096)

theorem moreUnits_for (nunits : Nat) (room : Bool) (h : Heap) :
    (moreUnits nunits room h).1.For nunits := by
  unfold moreUnits
  dsimp only
  split
  · exact ⟨rfl, rfl⟩
  · exact ⟨rfl, rfl⟩

theorem moreUnits_refused (nunits : Nat) (h : Heap) : moreUnits nunits false h =
    (⟨asIsize (unitSize * max nunits 4096), max nunits 4096, none⟩, some (none, h)) := by
  unfold moreUnits safeSbrk
  dsimp only
  rw [if_neg (fun hh => Bool.false_ne_true hh.2)]

theorem loop_calls {c : Call} (hc : c ∈ (mallocLoop nunits freep fuel rooms h prevp ptr).1) :
    c.For nunits := by
  induction fuel generalizing rooms h prevp ptr with
  | zero => cases hc
  | succ fuel ih =>
      rw [mallocLoop.eq_def] at hc
      dsimp only at hc
      split at hc
      · cases hc
      · split at hc
        · cases rooms with
          | nil => cases hc
          | cons room rooms =>
              have hcall := moreUnits_for nunits room h
              dsimp only at hc
              generalize moreUnits nunits room h = more at hc hcall
              obtain ⟨call, _ | ⟨_ | units, h'⟩⟩ := more
              · rw [List.mem_singleton.mp hc]
                exact hcall
              · rw [List.mem_singleton.mp hc]
                exact hcall
              · dsimp only at hc
                split at hc
                · rw [List.mem_singleton.mp hc]
                  exact hcall
                · rcases List.mem_cons.mp hc with rfl | hc
                  · exact hcall
                  · exact ih hc
        · exact ih hc

/-! ## Requests of any size -/

/-- The units for a request of `n` bytes and its header. -/
def needed (n : Nat) : Nat := (n + (unitSize - 1)) / unitSize + 1

theorem needed_pos (n : Nat) : 0 < needed n := Nat.succ_pos _

/-- A block is there that is large enough. -/
def Fit (free : List Blocks.Block) (n : Nat) : Prop := ∃ c ∈ free, needed n ≤ c.units

theorem bytes2units_eq {n units : Nat} (hunits : bytes2units n = some units) :
    units + 1 = needed n ∧ n ≤ 2 ^ 64 - unitSize := by
  rw [bytes2units] at hunits
  split at hunits
  · next hlt =>
    cases hunits
    have hunit : unitSize = 16 := rfl
    exact ⟨rfl, by omega⟩
  · cases hunits

theorem bytes2units_some {n : Nat} (hn : n ≤ 2 ^ 64 - unitSize) :
    bytes2units n = some ((n + (unitSize - 1)) / unitSize) := by
  have hunit : unitSize = 16 := rfl
  rw [bytes2units, if_pos (by omega)]

/-- How the search of `krmalloc` ends, in any heap that is in order. -/
theorem search_started {s : Program} {free : List Blocks.Block} (hf : FreeBlocks base s free)
    (hpos : 0 < nunits) : ∃ freep, (started base s.heap).freeList = some freep ∧
      ∃ fuel r left, search nunits freep (started base s.heap).mem fuel freep
          ((started base s.heap).mem freep).next = some (r, left) ∧
        (r = .around ↔ ¬∃ c ∈ free, nunits ≤ c.units) := by
  rcases hf with ⟨hnone, rfl⟩ | hi
  · -- `BASE` alone
    have hst : started base s.heap = initialise base s.heap := if_pos hnone
    have hbase : (initialise base s.heap).mem base = ⟨base, 0⟩ := Function.update_self ..
    refine ⟨base, by rw [hst]; rfl, 1, .around, 0, ?_, ?_⟩
    · rw [hst, hbase, search, hbase, if_neg (Nat.not_le_of_lt hpos), if_pos rfl]
    · refine iff_of_true rfl ?_
      rintro ⟨c, hc, -⟩
      cases hc
  · obtain ⟨b, hb, hrover⟩ := hi.rover
    obtain ⟨l, m, hl⟩ := List.append_of_mem hb
    have hsome : ¬s.heap.freeList = none := by
      rw [hrover]
      exact Option.some_ne_none _
    have hst : started base s.heap = s.heap := if_neg hsome
    rw [hst]
    refine ⟨b.addr, hrover, ?_⟩
    by_cases hfit : ∃ c ∈ free, nunits ≤ c.units
    · obtain ⟨fuel, prevp, ptr, left, hfound⟩ := hi.search_finds hl hfit
      refine ⟨fuel, _, left, hfound, iff_of_false ?_ (not_not_intro hfit)⟩
      intro hr
      cases hr
    · have hround := hi.search_fails hl hpos hfit ((m ++ l).length + 1)
      rw [if_neg (by omega)] at hround
      exact ⟨_, _, _, hround, iff_of_true rfl hfit⟩

/-- `sbrk` is asked for memory, and for as much as the header will say. -/
def Call.Honest (c : Call) : Prop := 0 < c.nbytes ∧ ((unitSize * c.nunits : Nat) : Int) ≤ c.nbytes

/-- What `krmalloc` is to do with a request of `n` bytes. -/
structure Safe (base : Nat) (h : Heap) (free : List Blocks.Block) (n : Nat) : Prop where
  calls : ∀ fuel rooms, ∀ c ∈ (krmalloc base fuel rooms h n).1, c.Honest
  /-- it returns when `sbrk` fails, with null where no block is large enough; the
  list may have been made -/
  returns : ∃ fuel r h', (krmalloc base fuel [false] h n).2 = some (r, h') ∧
    (n = 0 ∨ ¬Fit free n → r = none ∧ (h' = h ∨ h' = started base h))

theorem asIsize_small {nbytes : Nat} (hlt : nbytes < 2 ^ 63) : asIsize nbytes = nbytes := by
  have h64 : (BitVec.ofNat 64 nbytes).toNat = nbytes := by
    rw [BitVec.toNat_ofNat]
    omega
  rw [asIsize, BitVec.toInt_eq_toNat_of_lt (by omega), h64]

/-- From here on the product is negative or zero. -/
theorem asIsize_large {nbytes : Nat} (hge : 2 ^ 63 ≤ nbytes) (hle : nbytes ≤ 2 ^ 64) :
    asIsize nbytes ≤ 0 := by
  rw [asIsize, BitVec.toInt_eq_toNat_cond, BitVec.toNat_ofNat]
  split <;> omega

theorem newBrk_of_small {brk nbytes : Nat} (hlt : brk + nbytes < 2 ^ 64) :
    newBrk brk nbytes = brk + nbytes := by
  unfold newBrk
  omega

/-- Below `USEREND` nothing wraps: `more_units` is that of `Ulib.Malloc` with the
break as the answer of `sbrk`. -/
theorem moreUnits_small (hroom : h.brk + unitSize * max nunits 4096 ≤ Vm.userEnd)
    (halign : h.brk % headerAlign = 0) :
    (moreUnits nunits true h).2 = Malloc.moreUnits nunits (some h.brk) h := by
  have hunit : unitSize = 16 := rfl
  have hend : Vm.userEnd < 2 ^ 63 := by decide
  have hsize : asIsize (unitSize * max nunits 4096) = (unitSize * max nunits 4096 : Nat) :=
    asIsize_small (by omega)
  have hfits : h.brk + unitSize * max nunits 4096 < 2 ^ 64 := by omega
  have hbrk := newBrk_of_small hfits
  have hallow : Allowed h.brk (unitSize * max nunits 4096 : Nat) := by
    refine .inr ⟨Int.natCast_nonneg _, ?_, ?_⟩
    · rw [hbrk]
      exact Nat.le_add_right ..
    · rw [hbrk]
      exact hroom
  rw [moreUnits_some (Nat.le_refl _) halign (by omega)]
  unfold moreUnits safeSbrk
  dsimp only
  rw [hsize, if_pos ⟨hallow, rfl⟩]
  dsimp only
  rw [if_pos halign, hbrk, Int.toNat_natCast, Nat.mul_div_cancel_left _ (by decide)]
  rfl

theorem honest_of_small {n : Nat} {c : Call} (hn : n ≤ 2 ^ 63 - 32) (hc : c.For (needed n)) :
    c.Honest := by
  have hsmall : unitSize * max (needed n) 4096 < 2 ^ 63 := by
    show 16 * max ((n + 15) / 16 + 1) 4096 < 2 ^ 63
    omega
  have hpos : 0 < unitSize * max (needed n) 4096 :=
    Nat.mul_pos (by decide) (Nat.lt_of_lt_of_le (by decide) (Nat.le_max_right (needed n) 4096))
  rw [Call.Honest, hc.1, hc.2, asIsize_small hsmall]
  exact ⟨Int.natCast_pos.mpr hpos, Int.le_refl _⟩

theorem not_honest_of_large {n : Nat} {c : Call} (hn : 2 ^ 63 - 32 < n) (hle : n ≤ 2 ^ 64 - unitSize)
    (hc : c.For (needed n)) : ¬c.Honest := by
  have hlarge : asIsize (unitSize * max (needed n) 4096) ≤ 0 := by
    have hunit : unitSize = 16 := rfl
    apply asIsize_large
    · show 2 ^ 63 ≤ 16 * max ((n + 15) / 16 + 1) 4096
      omega
    · show 16 * max ((n + 15) / 16 + 1) 4096 ≤ 2 ^ 64
      omega
  intro hh
  have hpos := hh.1
  rw [hc.2] at hpos
  omega

section Requests

variable {s : Program} {free : List Blocks.Block} {n : Nat}

/-- `krmalloc` after its first lines. -/
theorem krmalloc_started {units : Nat} (hn : n ≠ 0) (hunits : bytes2units n = some units)
    (hfree : (started base h).freeList = some freep) : krmalloc base fuel rooms h n =
      ((mallocLoop (units + 1) freep fuel rooms (started base h) freep
          ((started base h).mem freep).next).1,
        (mallocLoop (units + 1) freep fuel rooms (started base h) freep
          ((started base h).mem freep).next).2.map fun r => (r.1.map (· + unitSize), r.2)) := by
  rw [krmalloc, innerMalloc, if_pos hn]
  dsimp only
  rw [hunits, hfree]

/-- Nothing is asked for when the arithmetic of `bytes2units` fails. -/
theorem krmalloc_panics (hn : n ≠ 0) (hunits : bytes2units n = none) :
    krmalloc base fuel rooms h n = ([], none) := by
  rw [krmalloc, innerMalloc, if_pos hn]
  dsimp only
  rw [hunits]
  rfl

theorem krmalloc_calls {c : Call} (hc : c ∈ (krmalloc base fuel rooms h n).1) :
    c.For (needed n) := by
  rw [krmalloc, innerMalloc] at hc
  dsimp only at hc
  split at hc
  · split at hc
    · next units freep hunits hfree =>
      rw [← (bytes2units_eq hunits).1]
      exact loop_calls hc
    · cases hc
  · cases hc

theorem returns_of_room (hf : FreeBlocks base s free) (hn : n ≤ 2 ^ 64 - unitSize) :
    ∃ fuel r h', (krmalloc base fuel [false] s.heap n).2 = some (r, h') ∧
      (n = 0 ∨ ¬Fit free n → r = none ∧ (h' = s.heap ∨ h' = started base s.heap)) := by
  by_cases h0 : n = 0
  · subst h0
    exact ⟨0, none, s.heap, rfl, fun _ => ⟨rfl, .inl rfl⟩⟩
  · obtain ⟨freep, hfree, fuel, r, left, hs, hround⟩ :=
      search_started hf (needed_pos n)
    have hrun : krmalloc base fuel [false] s.heap n = _ :=
      krmalloc_started h0 (bytes2units_some hn) hfree
    rw [loop_eq_search, show (n + (unitSize - 1)) / unitSize + 1 = needed n from rfl, hs] at hrun
    refine ⟨fuel, ?_⟩
    rw [hrun]
    cases r with
    | block prevp ptr =>
        have hfit : Fit free n := not_not.mp fun hno => by cases hround.mpr hno
        refine ⟨_, _, rfl, ?_⟩
        rintro (hz | hno)
        · exact absurd hz h0
        · exact absurd hfit hno
    | around =>
        refine ⟨none, started base s.heap, ?_, fun _ => ⟨rfl, .inr rfl⟩⟩
        dsimp only
        rw [ask, moreUnits_refused]
        rfl

/-- No call is made where a block is large enough. -/
theorem no_calls_of_fit (hf : FreeBlocks base s free) (hfit : Fit free n) :
    (krmalloc base fuel rooms s.heap n).1 = [] := by
  by_cases h0 : n = 0
  · subst h0
    rfl
  cases hunits : bytes2units n with
  | none => rw [krmalloc_panics h0 hunits]
  | some units =>
      obtain ⟨freep, hfree, fuel', r, left, hs, hround⟩ :=
        search_started hf (needed_pos n)
      rw [krmalloc_started h0 hunits hfree, (bytes2units_eq hunits).1, loop_eq_search]
      cases r with
      | around => exact absurd hfit (hround.mp rfl)
      | block prevp ptr =>
          rcases search_ends hs fuel with hnone | ⟨left', hsome⟩
          · rw [hnone]
          · rw [hsome]

/-- A call is made where none is. -/
theorem call_of_not_fit (hf : FreeBlocks base s free) (h0 : n ≠ 0) (hn : n ≤ 2 ^ 64 - unitSize)
    (hfit : ¬Fit free n) : ∃ fuel, ∃ c, c ∈ (krmalloc base fuel [false] s.heap n).1 := by
  obtain ⟨freep, hfree, fuel, r, left, hs, hround⟩ :=
    search_started hf (needed_pos n)
  refine ⟨fuel, ⟨asIsize (unitSize * max (needed n) 4096), max (needed n) 4096, none⟩, ?_⟩
  rw [krmalloc_started h0 (bytes2units_some hn) hfree, loop_eq_search,
    show (n + (unitSize - 1)) / unitSize + 1 = needed n from rfl, hs, hround.mpr hfit]
  dsimp only
  rw [ask, moreUnits_refused]
  exact List.mem_singleton.mpr rfl

/-- **The sizes that `krmalloc` can handle**, in any heap that is in order: the
product fits `isize`, or no memory is needed. -/
theorem malloc_sizes_iff (hf : FreeBlocks base s free) :
    Safe base s.heap free n ↔
      n ≤ 2 ^ 63 - 32 ∨ (n ≤ 2 ^ 64 - unitSize ∧ Fit free n) := by
  have hunit : unitSize = 16 := rfl
  constructor
  · intro hs
    by_cases hsmall : n ≤ 2 ^ 63 - 32
    · exact .inl hsmall
    have h0 : n ≠ 0 := by omega
    obtain ⟨fuel, r, h', hr, -⟩ := hs.returns
    have hn : n ≤ 2 ^ 64 - unitSize := by
      cases hunits : bytes2units n with
      | none =>
          rw [krmalloc_panics h0 hunits] at hr
          cases hr
      | some units => exact (bytes2units_eq hunits).2
    refine .inr ⟨hn, not_not.mp fun hfit => ?_⟩
    obtain ⟨fuel, c, hc⟩ := call_of_not_fit hf h0 hn hfit
    exact not_honest_of_large (Nat.not_le.mp hsmall) hn (krmalloc_calls hc) (hs.calls _ _ c hc)
  · rintro (hsmall | ⟨hn, hfit⟩)
    · exact ⟨fun fuel rooms c hc => honest_of_small hsmall (krmalloc_calls hc),
        returns_of_room hf (by omega)⟩
    · refine ⟨fun fuel rooms c hc => ?_, returns_of_room hf hn⟩
      rw [no_calls_of_fit hf hfit] at hc
      cases hc

end Requests

/-- More than the free blocks have room for, and too much for `sbrk`. -/
theorem malloc_sizes_split : FreeBlocks 16 split [⟨4096, 4089⟩, ⟨69600, 2⟩] ∧
    Safe 16 split.heap [⟨4096, 4089⟩, ⟨69600, 2⟩] 65536 ∧
    ¬Safe 16 split.heap [⟨4096, 4089⟩, ⟨69600, 2⟩] (2 ^ 63 - 31) := by
  have hf : FreeBlocks 16 split [⟨4096, 4089⟩, ⟨69600, 2⟩] := .inr split_inv
  refine ⟨hf, (malloc_sizes_iff hf).mpr (.inl (by decide)), fun hs => ?_⟩
  obtain hsmall | ⟨-, c, hc, hle⟩ := (malloc_sizes_iff hf).mp hs
  · exact absurd hsmall (by decide)
  · revert c
    decide

/-- The first request too large asks `sbrk` to shrink the process. -/
theorem malloc_shrinks : FreeBlocks 16 ⟨unused, []⟩ [] ∧
    (∃ c ∈ (krmalloc 16 1 [true] unused (2 ^ 63 - 31)).1, c.nbytes < 0) ∧
    ¬Safe 16 unused [] (2 ^ 63 - 31) := by
  have hf : FreeBlocks 16 ⟨unused, []⟩ [] := .inl ⟨rfl, rfl⟩
  have hcall : ∃ c ∈ (krmalloc 16 1 [true] unused (2 ^ 63 - 31)).1, c.nbytes < 0 :=
    ⟨_, List.mem_singleton.mpr rfl, by decide⟩
  refine ⟨hf, hcall, fun hs => ?_⟩
  obtain ⟨c, hc, hneg⟩ := hcall
  have hpos := (hs.calls _ _ c hc).1
  omega

end Rxv64.Ulib.Malloc.Release
