import Mathlib.Algebra.Group.Nat.Defs
import Mathlib.Data.List.Pairwise
import Mathlib.Data.List.Rotate
import Rxv64.Lib.Blocks
import Rxv64.Lib.Runs

/-!
# Ulib.Malloc — the heap of user programs

`ulib/src/malloc.rs`: free blocks in a circular list ordered by address, a search
that starts where the last one ended, allocation from the tail of a block, and
joining with both neighbours on `free`. `BASE` is a block of no units at the
address `base`, below all memory that `sbrk` gives.

A function that does not return (its fuel does not reach, or an assertion or a
checked operation fails) has the value `none`.
-/

namespace Rxv64.Ulib.Malloc

open Blocks Runs

/-- `size_of::<Header>()`. -/
abbrev unitSize : Nat := 16

/-- `align_of::<Header>()`. -/
abbrev headerAlign : Nat := 8

/-- The headers in memory, by their address, and `FREE_LIST`. `regions` and `brk`
are what `sbrk` has given: the regions and the end of the last one. -/
structure Heap where
  mem : Nat → Header
  freeList : Option Nat
  regions : List Blocks.Block
  brk : Nat

def bytes2units (bytes : Nat) : Option Nat :=
  if bytes + (unitSize - 1) < 2 ^ 64 then some ((bytes + (unitSize - 1)) / unitSize) else none

/-- `safe_sbrk` for a number of units: `sbrk` fails, or it answers with an aligned
region above all the earlier ones. -/
def safeSbrk (nunits : Nat) (answer : Option Nat) (h : Heap) : Option (Option Nat × Heap) :=
  match answer with
  | none => some (none, h)
  | some p =>
      if h.brk ≤ p ∧ p % headerAlign = 0 ∧ p + unitSize * nunits < 2 ^ 64 then
        some (some p, { h with regions := ⟨p, nunits⟩ :: h.regions, brk := p + unitSize * nunits })
      else none

def moreUnits (nunits : Nat) (answer : Option Nat) (h : Heap) : Option (Option Nat × Heap) :=
  let nunits := max nunits 4096
  if unitSize * nunits < 2 ^ 64 then
    (safeSbrk nunits answer h).map fun r =>
      match r with
      | (none, h) => (none, h)
      | (some p, h) => (some p, { h with mem := Function.update h.mem p ⟨p, nunits⟩ })
  else none

/-- `tag` comes between `p` and `nextp`: the body of the loop of `inner_free`. -/
def link (h : Heap) (p tag nextp : Nat) : Heap :=
  { h with
    mem := joinNext unitSize (joinNext unitSize h.mem tag nextp) p tag
    freeList := some p }

/-- Whether the place of `tag` is behind `p`. -/
def placed (p tag nextp : Nat) : Prop :=
  (p < tag ∧ tag < nextp) ∨ (p ≥ nextp ∧ (p < tag ∨ tag < nextp))

instance (p tag nextp : Nat) : Decidable (placed p tag nextp) :=
  inferInstanceAs (Decidable (_ ∨ _))

/-- The loop of `inner_free`. -/
def freeLoop : Nat → Heap → Nat → Nat → Option (Nat × Heap)
  | 0, _, _, _ => none
  | fuel + 1, h, tag, p =>
      let nextp := (h.mem p).next
      if placed p tag nextp then some (p, link h p tag nextp) else freeLoop fuel h tag nextp

def innerFree (fuel : Nat) (h : Heap) (tag : Nat) : Option (Nat × Heap) :=
  if (h.mem tag).nunits = 0 then none
  else
    match h.freeList with
    | none => some (tag, { h with freeList := some tag })
    | some p => freeLoop fuel h tag p

/-- `krfree`. -/
def krfree (fuel : Nat) (h : Heap) (p : Option Nat) : Option Heap :=
  match p with
  | none => some h
  | some p => if p % headerAlign = 0 then (innerFree fuel h (p - unitSize)).map Prod.snd else none

/-- The block behind `prevp` is large enough: all of it, or its tail. -/
def carve (h : Heap) (nunits prevp ptr : Nat) : Nat × Heap :=
  if (h.mem ptr).nunits = nunits then
    (ptr, { h with
      mem := Function.update h.mem prevp ⟨(h.mem ptr).next, (h.mem prevp).nunits⟩
      freeList := some prevp })
  else
    let rest := (h.mem ptr).nunits - nunits
    let p := ptr + unitSize * rest
    (p, { h with
      mem := Function.update (Function.update h.mem ptr ⟨(h.mem ptr).next, rest⟩) p
        ⟨(h.mem ptr).next, nunits⟩
      freeList := some prevp })

/-- The loop of `inner_malloc`, with the answers of `sbrk` to come. -/
def mallocLoop (nunits freep : Nat) : Nat → List (Option Nat) → Heap → Nat → Nat →
    Option (Option Nat × Heap)
  | 0, _, _, _, _ => none
  | fuel + 1, answers, h, prevp, ptr =>
      if nunits ≤ (h.mem ptr).nunits then
        some (some (carve h nunits prevp ptr).1, (carve h nunits prevp ptr).2)
      else if ptr = freep then
        match answers with
        | [] => none
        | answer :: answers =>
            match moreUnits nunits answer h with
            | none => none
            | some (none, h) => some (none, h)
            | some (some units, h) =>
                match innerFree fuel h units with
                | none => none
                | some (q, h) => mallocLoop nunits freep fuel answers h q (h.mem q).next
      else mallocLoop nunits freep fuel answers h ptr (h.mem ptr).next

/-- The list with `BASE` alone. -/
def initialise (base : Nat) (h : Heap) : Heap :=
  { h with mem := Function.update h.mem base ⟨base, 0⟩, freeList := some base }

def innerMalloc (base fuel : Nat) (answers : List (Option Nat)) (h : Heap) (n : Nat) :
    Option (Option Nat × Heap) :=
  if n ≠ 0 then
    let h := if h.freeList = none then initialise base h else h
    match bytes2units n, h.freeList with
    | some units, some freep =>
        mallocLoop (units + 1) freep fuel answers h freep (h.mem freep).next
    | _, _ => none
  else some (none, h)

/-- `krmalloc`: a pointer behind the header, or null. -/
def krmalloc (base fuel : Nat) (answers : List (Option Nat)) (h : Heap) (n : Nat) :
    Option (Option Nat × Heap) :=
  (innerMalloc base fuel answers h n).map fun r => (r.1.map (· + unitSize), r.2)

/-! ## The invariant -/

/-- `BASE` as a block. -/
abbrev baseBlock (base : Nat) : Blocks.Block := ⟨base, 0⟩

/-- A block lies in memory that `sbrk` gave. -/
structure Fits (base brk : Nat) (b : Blocks.Block) : Prop where
  above : base + unitSize ≤ b.addr
  units : 0 < b.units
  aligned : b.addr % headerAlign = 0
  below : b.stop unitSize ≤ brk

theorem Fits.pos {base brk : Nat} {b : Blocks.Block} (h : Fits base brk b) : 0 < unitSize * b.units :=
  Nat.mul_pos (by decide) h.units

theorem Fits.base_lt {base brk : Nat} {b : Blocks.Block} (h : Fits base brk b) : base < b.addr :=
  Nat.lt_of_lt_of_le (Nat.lt_add_of_pos_right (by decide)) h.above

theorem stop_base (base : Nat) : (baseBlock base).stop unitSize = base := rfl

theorem Fits.merge {base brk : Nat} {x y : Blocks.Block} (hx : Fits base brk x) (hy : Fits base brk y)
    (htouch : x.stop unitSize = y.addr) : Fits base brk ⟨x.addr, x.units + y.units⟩ := by
  refine ⟨hx.above, Nat.add_pos_left hx.units _, hx.aligned, ?_⟩
  have hstop := stop_join (w := unitSize) (a := x.addr) x.units y.units
  have hxs : Blocks.Block.stop unitSize ⟨x.addr, x.units⟩ = x.stop unitSize := rfl
  have hys : y.stop unitSize = y.addr + unitSize * y.units := rfl
  have hbelow := hy.below
  omega

/-- `BASE` has no memory of its own. -/
theorem covers_base {base i : Nat} {l : List Blocks.Block} :
    Covers unitSize (baseBlock base :: l) i ↔ Covers unitSize l i := by
  rw [covers_cons]
  refine or_iff_right ?_
  intro hh
  exact absurd hh.1 (Nat.not_le_of_lt hh.2)

/-- The list from `BASE`, and the blocks in use. -/
structure Inv (base : Nat) (h : Heap) (free used : List Blocks.Block) : Prop where
  chain : Chain h.mem base (baseBlock base :: free) base
  rover : ∃ b ∈ baseBlock base :: free, h.freeList = some b.addr
  sorted : Sorted unitSize (baseBlock base :: free)
  fits : ∀ b ∈ free, Fits base h.brk b
  used_fits : ∀ x ∈ used, Fits base h.brk x
  header : ∀ x ∈ used, (h.mem x.addr).nunits = x.units
  apart : ∀ x ∈ used, ∀ b ∈ free, Apart unitSize x b
  used_apart : used.Pairwise (Apart unitSize)
  cover : ∀ i, Covers unitSize free i ∨ Covers unitSize used i ↔ Covers unitSize h.regions i
  room : base + unitSize ≤ h.brk

namespace Inv

variable {base : Nat} {h : Heap} {free used pre post : List Blocks.Block} {x b : Blocks.Block}

theorem addr_ne (hi : Inv base h free used) (hx : x ∈ used) :
    ∀ b ∈ baseBlock base :: free, b.addr ≠ x.addr := by
  intro b hb
  rcases List.mem_cons.mp hb with rfl | hb
  · exact Nat.ne_of_lt (hi.used_fits x hx).base_lt
  · exact ((hi.apart x hx b hb).addr_ne (hi.used_fits x hx).pos (hi.fits b hb).pos).symm

/-- `next` stays in the list. -/
theorem next_mem (hi : Inv base h free used) (hb : b ∈ baseBlock base :: free) :
    ∃ c ∈ baseBlock base :: free, (h.mem b.addr).next = c.addr := by
  obtain ⟨l, m, hl⟩ := List.append_of_mem hb
  have hchain := hi.chain
  rw [hl] at hchain
  obtain ⟨-, -, hm⟩ := hchain.mid
  cases m with
  | nil => exact ⟨baseBlock base, List.mem_cons_self, hm⟩
  | cons c m =>
      refine ⟨c, ?_, hm.start⟩
      rw [hl]
      exact List.mem_append_right _ (List.mem_cons_of_mem _ List.mem_cons_self)

/-- The invariant from the list as a whole. -/
theorem of_list (used : List Blocks.Block) {l : List Blocks.Block} (hbase : ∃ free, l = baseBlock base :: free)
    (hchain : Chain h.mem base l base) (hrover : ∃ b ∈ l, h.freeList = some b.addr)
    (hsorted : Sorted unitSize l)
    (hgood : ∀ b ∈ l, b = baseBlock base ∨
      Fits base h.brk b ∧ ∀ x ∈ used, Apart unitSize x b)
    (hfits : ∀ x ∈ used, Fits base h.brk x)
    (hheader : ∀ x ∈ used, (h.mem x.addr).nunits = x.units)
    (hapart : used.Pairwise (Apart unitSize))
    (hcover : ∀ i, Covers unitSize l i ∨ Covers unitSize used i ↔ Covers unitSize h.regions i)
    (hroom : base + unitSize ≤ h.brk) :
    ∃ free, Inv base h free used ∧ baseBlock base :: free = l := by
  obtain ⟨free, rfl⟩ := hbase
  have hnew : ∀ b ∈ free, Fits base h.brk b ∧ ∀ x ∈ used, Apart unitSize x b := by
    intro b hb
    refine (hgood b (List.mem_cons_of_mem _ hb)).resolve_left ?_
    rintro rfl
    exact Nat.lt_irrefl _ ((List.pairwise_cons.mp hsorted).1 _ hb)
  refine ⟨free, ⟨hchain, hrover, hsorted, fun b hb => (hnew b hb).1, hfits, hheader,
    fun x hx b hb => (hnew b hb).2 x hx, hapart, fun i => ?_, hroom⟩, rfl⟩
  rw [← hcover i, covers_base]

/-- A block has its place behind `b`: it is behind `b` and before the rest. -/
theorem order_of_placed (hi : Inv base h free used) (hx : x ∈ used) {l m : List Blocks.Block}
    (hl : baseBlock base :: free = l ++ b :: m)
    (hp : placed b.addr x.addr (h.mem b.addr).next) :
    b.stop unitSize ≤ x.addr ∧ ∀ c ∈ m, x.stop unitSize ≤ c.addr := by
  have hchain := hi.chain
  have hsorted := hi.sorted
  rw [hl] at hchain hsorted
  obtain ⟨-, -, hm⟩ := hchain.mid
  have habove := (hi.used_fits x hx).base_lt
  have hmem : ∀ c ∈ b :: m, c ∈ baseBlock base :: free := fun c hc => by
    rw [hl]
    exact List.mem_append_right _ hc
  obtain ⟨hbm, hsm⟩ := List.pairwise_cons.mp (List.pairwise_append.mp hsorted).2.1
  have hbase : base ≤ b.addr := by
    rcases List.mem_cons.mp (hmem b List.mem_cons_self) with rfl | hb
    · exact Nat.le_refl _
    · exact Nat.le_of_lt (hi.fits b hb).base_lt
  have hfree : ∀ c ∈ m, c ∈ free := by
    intro c hc
    rcases List.mem_cons.mp (hmem c (List.mem_cons_of_mem _ hc)) with rfl | hc'
    · have hlt := hbm _ hc
      unfold Blocks.Block.stop at hlt
      have hcb : (baseBlock base).addr = base := rfl
      omega
    · exact hc'
  have hbx : b.addr < x.addr := by
    rcases hp with ⟨hlt, -⟩ | ⟨hge, hlt | hlt⟩
    · exact hlt
    · exact hlt
    · -- the list wraps at `BASE`, which is below every block
      cases m with
      | nil =>
          have hend : (h.mem b.addr).next = base := hm
          omega
      | cons c m =>
          have hc : (h.mem b.addr).next = c.addr := hm.start
          have hlt' := hbm c List.mem_cons_self
          unfold Blocks.Block.stop at hlt'
          omega
  constructor
  · rcases List.mem_cons.mp (hmem b List.mem_cons_self) with rfl | hb
    · rw [stop_base]
      exact Nat.le_of_lt habove
    · have hpos := (hi.used_fits x hx).pos
      rcases hi.apart x hx b hb with ha | ha
      · unfold Blocks.Block.stop at ha
        omega
      · exact ha
  · intro c hc
    -- the first of the rest is above the block
    have hfirst : x.addr < c.addr := by
      cases m with
      | nil => cases hc
      | cons d m =>
          have hd : (h.mem b.addr).next = d.addr := hm.start
          have hbd := hbm d List.mem_cons_self
          unfold Blocks.Block.stop at hbd
          have hxd : x.addr < d.addr := by
            rcases hp with ⟨-, hlt⟩ | ⟨hge, -⟩ <;> omega
          rcases List.mem_cons.mp hc with rfl | hc
          · exact hxd
          · have hdc := (List.pairwise_cons.mp hsm).1 c hc
            unfold Blocks.Block.stop at hdc
            omega
    have hpos := (hi.fits c (hfree c hc)).pos
    rcases hi.apart x hx c (hfree c hc) with ha | ha
    · exact ha
    · unfold Blocks.Block.stop at ha
      omega

/-- **A block in use becomes free** behind `b`. -/
theorem link (hi : Inv base h free (pre ++ x :: post)) {l m : List Blocks.Block}
    (hl : baseBlock base :: free = l ++ b :: m)
    (hp : placed b.addr x.addr (h.mem b.addr).next) :
    ∃ free', Inv base (link h b.addr x.addr (h.mem b.addr).next) free' (pre ++ post) ∧
      ∃ c ∈ baseBlock base :: free', c.addr = b.addr := by
  have hx : x ∈ pre ++ x :: post := List.mem_append_right _ List.mem_cons_self
  have hsub : ∀ z ∈ pre ++ post, z ∈ pre ++ x :: post := by
    intro z hz
    rcases List.mem_append.mp hz with hz | hz
    · exact List.mem_append_left _ hz
    · exact List.mem_append_right _ (List.mem_cons_of_mem _ hz)
  have hxz : ∀ z ∈ pre ++ post, Apart unitSize z x := by
    obtain ⟨-, hpost, hpre⟩ := List.pairwise_append.mp hi.used_apart
    intro z hz
    rcases List.mem_append.mp hz with hz | hz
    · exact hpre z hz x List.mem_cons_self
    · exact ((List.pairwise_cons.mp hpost).1 z hz).symm
  obtain ⟨hbx, hxm⟩ := hi.order_of_placed hx hl hp
  have hfx := hi.used_fits x hx
  have hne := hi.addr_ne hx
  have hchain := hi.chain
  have hsorted := hi.sorted
  rw [hl] at hchain hsorted hne
  obtain ⟨hcl, hcb, hcm⟩ := hchain.mid
  obtain ⟨hsl, hsbm, hslb⟩ := List.pairwise_append.mp hsorted
  obtain ⟨hbm, hsm⟩ := List.pairwise_cons.mp hsbm
  have hbne : b.addr ≠ x.addr := hne b (List.mem_append_right _ List.mem_cons_self)
  have hble : b.addr ≤ b.stop unitSize := Nat.le_add_right _ _
  -- the new list, first as a whole
  have hjoin : ∀ d ∈ join unitSize x m, x.addr ≤ d.addr := by
    refine forall_join (Nat.le_refl _) (fun c hc => ?_) fun _ _ _ => Nat.le_refl _
    have hle := hxm c hc
    unfold Blocks.Block.stop at hle
    omega
  have hjne : ∀ d ∈ join unitSize x m, d.addr ≠ b.addr := fun d hd => by
    have hle := hjoin d hd
    omega
  have hsorted' : Sorted unitSize (l ++ join unitSize b (join unitSize x m)) := by
    refine List.pairwise_append.mpr ⟨hsl, ?_, fun c hc d hd => ?_⟩
    · refine Sorted.join (Sorted.join hsm hxm) fun d hd => ?_
      exact Nat.le_trans hbx (hjoin d hd)
    · have hcb := hslb c hc b List.mem_cons_self
      have hbd : b.addr ≤ d.addr := by
        refine forall_join (P := fun d => b.addr ≤ d.addr) (Nat.le_refl _) (fun d hd => ?_)
          (fun _ _ _ => Nat.le_refl _) d hd
        have hle := hjoin d hd
        omega
      omega
  have hchain' : Chain (Malloc.link h b.addr x.addr (h.mem b.addr).next).mem base
      (l ++ join unitSize b (join unitSize x m)) base := by
    have hxj := Chain.join (w := unitSize) (x := x) hcm (hi.header x hx)
      (fun c hc => hne c (List.mem_append_right _ (List.mem_cons_of_mem _ hc)))
      (fun _ => Nat.ne_of_gt (Nat.lt_of_lt_of_le hfx.base_lt (Nat.le_add_right _ _)))
    have hbj := Chain.join (w := unitSize) (x := b) hxj
      ((congrArg Header.nunits (joinNext_of_ne hbne)).trans hcb) hjne
      (fun hnil => absurd hnil join_ne_nil)
    refine chain_append.mpr ⟨b.addr, hcl.congr fun c hc => ?_, hbj⟩
    have hcb' : c.addr ≠ b.addr := by
      have hlt := hslb c hc b List.mem_cons_self
      unfold Blocks.Block.stop at hlt
      omega
    exact (joinNext_of_ne hcb').trans (joinNext_of_ne (hne c (List.mem_append_left _ hc)))
  have hgood : ∀ d ∈ l ++ join unitSize b (join unitSize x m),
      d = baseBlock base ∨ Fits base h.brk d ∧ ∀ z ∈ pre ++ post, Apart unitSize z d := by
    have hold : ∀ d ∈ l ++ b :: m,
        d = baseBlock base ∨ Fits base h.brk d ∧ ∀ z ∈ pre ++ post, Apart unitSize z d := by
      intro d hd
      rw [← hl] at hd
      refine (List.mem_cons.mp hd).imp_right fun hd => ⟨hi.fits d hd, fun z hz => ?_⟩
      exact hi.apart z (hsub z hz) d hd
    have hmerge : ∀ d e : Blocks.Block, Fits base h.brk d ∧ (∀ z ∈ pre ++ post, Apart unitSize z d) →
        Fits base h.brk e ∧ (∀ z ∈ pre ++ post, Apart unitSize z e) →
        d.stop unitSize = e.addr → Fits base h.brk ⟨d.addr, d.units + e.units⟩ ∧
          ∀ z ∈ pre ++ post, Apart unitSize z ⟨d.addr, d.units + e.units⟩ := by
      intro d e hd he htouch
      refine ⟨hd.1.merge he.1 htouch, fun z hz => ?_⟩
      exact (hd.2 z hz).merge (he.2 z hz) (hi.used_fits z (hsub z hz)).pos htouch
    have hm : ∀ d ∈ m, Fits base h.brk d ∧ ∀ z ∈ pre ++ post, Apart unitSize z d := by
      intro d hd
      refine (hold d (List.mem_append_right _ (List.mem_cons_of_mem _ hd))).resolve_left ?_
      rintro rfl
      have hlt := hbm _ hd
      have hxd := hxm _ hd
      have hbase := hfx.base_lt
      unfold Blocks.Block.stop at hxd
      have hcb : (baseBlock base).addr = base := rfl
      omega
    have hxm' : ∀ d ∈ join unitSize x m,
        Fits base h.brk d ∧ ∀ z ∈ pre ++ post, Apart unitSize z d :=
      forall_join ⟨hfx, hxz⟩ hm fun y hy htouch => hmerge x y ⟨hfx, hxz⟩ (hm y hy) htouch
    intro d hd
    rcases List.mem_append.mp hd with hd | hd
    · exact hold d (List.mem_append_left _ hd)
    · have hb := hold b (List.mem_append_right _ List.mem_cons_self)
      refine forall_join (P := fun d => d = baseBlock base ∨ Fits base h.brk d ∧
        ∀ z ∈ pre ++ post, Apart unitSize z d) hb (fun d hd => .inr (hxm' d hd)) ?_ d hd
      intro y hy htouch
      rcases hb with rfl | hb
      · -- nothing touches `BASE`
        rw [stop_base] at htouch
        have hle := hjoin y hy
        have hbase := hfx.base_lt
        omega
      · exact .inr (hmerge b y hb (hxm' y hy) htouch)
  have hcover : ∀ i, Covers unitSize (l ++ join unitSize b (join unitSize x m)) i ↔
      Covers unitSize free i ∨ x.Has unitSize i := by
    intro i
    rw [covers_append, covers_join, covers_join, ← covers_base (l := free), hl,
      covers_append, covers_cons]
    grind
  have hbase : ∃ free', l ++ join unitSize b (join unitSize x m) = baseBlock base :: free' := by
    cases l with
    | nil =>
        obtain ⟨rfl, rfl⟩ := List.cons.inj hl
        refine ⟨join unitSize x free, join_of_lt fun d hd => ?_⟩
        rw [stop_base]
        exact Nat.lt_of_lt_of_le hfx.base_lt (hjoin d hd)
    | cons c l =>
        obtain ⟨rfl, -⟩ := List.cons.inj hl
        exact ⟨_, rfl⟩
  obtain ⟨c, hc, hcb⟩ := exists_mem_join (w := unitSize) (x := b) (l := join unitSize x m)
  have hhead := List.mem_append_right l hc
  obtain ⟨free', hinv, hfree'⟩ := of_list (pre ++ post) hbase hchain'
    ⟨c, hhead, congrArg some hcb.symm⟩ hsorted' hgood
    (fun z hz => hi.used_fits z (hsub z hz))
    (fun z hz => by
      have hzb : z.addr ≠ b.addr :=
        (hi.addr_ne (hsub z hz) b (hl ▸ List.mem_append_right _ List.mem_cons_self)).symm
      have hzx : z.addr ≠ x.addr :=
        (hxz z hz).addr_ne (hi.used_fits z (hsub z hz)).pos hfx.pos
      refine (congrArg Header.nunits ?_).trans (hi.header z (hsub z hz))
      exact (joinNext_of_ne hzb).trans (joinNext_of_ne hzx))
    (hi.used_apart.sublist (List.Sublist.append_left (List.sublist_cons_self _ _) _))
    (fun i => by
      have hc := hi.cover i
      rw [covers_append, covers_cons] at hc
      show _ ↔ Covers unitSize h.regions i
      rw [← hc, hcover i, covers_append]
      grind)
    hi.room
  exact ⟨free', hinv, c, hfree'.symm ▸ hhead, hcb⟩

/-- The loop of `inner_free` from any block of the list. -/
theorem freeLoop (hi : Inv base h free (pre ++ x :: post)) {fuel p q : Nat} {h' : Heap}
    (hq : ∃ b ∈ baseBlock base :: free, b.addr = q)
    (hrun : freeLoop fuel h x.addr q = some (p, h')) :
    ∃ free', Inv base h' free' (pre ++ post) ∧ ∃ c ∈ baseBlock base :: free', c.addr = p := by
  induction fuel generalizing q with
  | zero => cases hrun
  | succ fuel ih =>
      obtain ⟨b, hb, rfl⟩ := hq
      rw [Malloc.freeLoop] at hrun
      by_cases hp : placed b.addr x.addr (h.mem b.addr).next
      · rw [if_pos hp] at hrun
        cases hrun
        obtain ⟨l, m, hl⟩ := List.append_of_mem hb
        exact hi.link hl hp
      · rw [if_neg hp] at hrun
        obtain ⟨c, hc, hnext⟩ := hi.next_mem hb
        exact ih ⟨c, hc, hnext.symm⟩ hrun

theorem innerFree (hi : Inv base h free (pre ++ x :: post)) {fuel p : Nat} {h' : Heap}
    (hrun : innerFree fuel h x.addr = some (p, h')) :
    ∃ free', Inv base h' free' (pre ++ post) ∧ ∃ c ∈ baseBlock base :: free', c.addr = p := by
  obtain ⟨f, hf, hrover⟩ := hi.rover
  have hx : x ∈ pre ++ x :: post := List.mem_append_right _ List.mem_cons_self
  rw [Malloc.innerFree, hi.header x hx, if_neg (Nat.ne_of_gt (hi.used_fits x hx).units),
    hrover] at hrun
  exact hi.freeLoop ⟨f, hf, rfl⟩ hrun

/-- The loop stops when it started behind `q`. -/
def Stops (h : Heap) (tag q : Nat) : Prop := ∃ fuel r, Malloc.freeLoop fuel h tag q = some r

theorem Stops.of_next {tag q : Nat} (hs : Stops h tag (h.mem q).next) : Stops h tag q := by
  obtain ⟨fuel, r, hr⟩ := hs
  by_cases hp : placed q tag (h.mem q).next
  · exact ⟨1, _, by rw [Malloc.freeLoop, if_pos hp]⟩
  · exact ⟨fuel + 1, r, by rw [Malloc.freeLoop, if_neg hp, hr]⟩

/-- From a block below, the loop meets the place before the list ends. -/
theorem stops_below {tag q : Nat} {m : List Blocks.Block} (hchain : Chain h.mem q m base)
    (hm : ∃ b l, m = b :: l) (hq : q < tag) (hbase : ∀ b ∈ m, base ≤ b.addr)
    (hne : ∀ b ∈ m, b.addr ≠ tag) : Stops h tag q := by
  induction m generalizing q with
  | nil =>
      obtain ⟨b, l, hbl⟩ := hm
      cases hbl
  | cons b m ih =>
      obtain ⟨rfl, -, hrest⟩ := hchain
      cases m with
      | nil =>
          have hend : (h.mem b.addr).next = base := hrest
          have hle := hbase b List.mem_cons_self
          have hp : placed b.addr tag (h.mem b.addr).next := .inr ⟨by omega, .inl hq⟩
          exact ⟨1, _, by rw [Malloc.freeLoop, if_pos hp]⟩
      | cons c m =>
          have hc : (h.mem b.addr).next = c.addr := hrest.start
          by_cases hlt : tag < c.addr
          · have hp : placed b.addr tag (h.mem b.addr).next := .inl ⟨hq, hc ▸ hlt⟩
            exact ⟨1, _, by rw [Malloc.freeLoop, if_pos hp]⟩
          · have hct := hne c (List.mem_cons_of_mem _ List.mem_cons_self)
            apply Stops.of_next
            refine ih hrest ⟨c, m, rfl⟩ (by omega) ?_ ?_
            · exact fun d hd => hbase d (List.mem_cons_of_mem _ hd)
            · exact fun d hd => hne d (List.mem_cons_of_mem _ hd)

/-- **`inner_free` returns**: going around it comes to `BASE`, and from there to
the place of the block. -/
theorem innerFree_returns (hi : Inv base h free used) (hx : x ∈ used) :
    ∃ fuel r, Malloc.innerFree fuel h x.addr = some r := by
  have hfx := hi.used_fits x hx
  have hstart : Stops h x.addr base := by
    refine stops_below hi.chain ⟨_, _, rfl⟩ hfx.base_lt (fun b hb => ?_) (hi.addr_ne hx)
    rcases List.mem_cons.mp hb with rfl | hb
    · exact Nat.le_refl _
    · exact Nat.le_of_lt (hi.fits b hb).base_lt
  have hall : ∀ (m : List Blocks.Block) (q : Nat), Chain h.mem q m base → Stops h x.addr q := by
    intro m
    induction m with
    | nil =>
        intro q hq
        have hq : q = base := hq
        rw [hq]
        exact hstart
    | cons b m ih =>
        intro q hq
        exact (ih _ hq.2.2).of_next
  obtain ⟨f, hf, hrover⟩ := hi.rover
  obtain ⟨l, m, hl⟩ := List.append_of_mem hf
  have hchain := hi.chain
  rw [hl] at hchain
  obtain ⟨i, -, hi'⟩ := chain_append.mp hchain
  obtain ⟨fuel, r, hr⟩ := hall (f :: m) i hi'
  refine ⟨fuel, r, ?_⟩
  rw [Malloc.innerFree, hi.header x hx, if_neg (Nat.ne_of_gt hfx.units), hrover]
  rw [hi'.start] at hr
  exact hr

/-- The list behind `b` is another one. -/
theorem cons_of_append {l m : List Blocks.Block} (hl : baseBlock base :: free = l ++ b :: m)
    (m' : List Blocks.Block) : ∃ free', l ++ b :: m' = baseBlock base :: free' := by
  cases l with
  | nil =>
      obtain ⟨rfl, -⟩ := List.cons.inj hl
      exact ⟨m', rfl⟩
  | cons c l =>
      obtain ⟨rfl, -⟩ := List.cons.inj hl
      exact ⟨l ++ b :: m', rfl⟩

/-- The block behind `b` is a free one, unless the list ends there. -/
theorem mem_free_of_append {c : Blocks.Block} {l m : List Blocks.Block}
    (hi : Inv base h free used) (hl : baseBlock base :: free = l ++ b :: c :: m) : c ∈ free := by
  cases l with
  | nil =>
      obtain ⟨-, rfl⟩ := List.cons.inj hl
      exact List.mem_cons_self
  | cons d l =>
      obtain ⟨-, rfl⟩ := List.cons.inj hl
      exact List.mem_append_right _ (List.mem_cons_of_mem _ List.mem_cons_self)

/-- What both ways to take a block leave as it is. -/
structure Moved (h h' : Heap) (prev : Nat) : Prop where
  freeList : h'.freeList = some prev
  regions : h'.regions = h.regions
  brk : h'.brk = h.brk

theorem take_all {c : Blocks.Block} {l m : List Blocks.Block} {h' : Heap} (hi : Inv base h free used)
    (hl : baseBlock base :: free = l ++ b :: c :: m) (hmoved : Moved h h' b.addr)
    (hself : h'.mem b.addr = ⟨(h.mem c.addr).next, (h.mem b.addr).nunits⟩)
    (hothers : ∀ i, i ≠ b.addr → h'.mem i = h.mem i) :
    ∃ free', Inv base h' free' (c :: used) := by
  have hc := hi.mem_free_of_append hl
  have hchain := hi.chain
  have hsorted := hi.sorted
  have hold : ∀ d ∈ l ++ b :: m, d ∈ baseBlock base :: free := by
    intro d hd
    rw [hl]
    refine List.mem_append.mpr ((List.mem_append.mp hd).imp_right fun hd => ?_)
    exact List.mem_cons.mpr ((List.mem_cons.mp hd).imp_right (List.mem_cons_of_mem _))
  rw [hl] at hchain hsorted
  obtain ⟨hcl, hcb, hstart, hcn, hcm⟩ := hchain.mid
  rw [hstart] at hcn hcm
  obtain ⟨hsl, hsbm, hslb⟩ := List.pairwise_append.mp hsorted
  obtain ⟨hbm, -⟩ := List.pairwise_cons.mp hsbm
  have hlb : ∀ d ∈ l, d.addr ≠ b.addr := fun d hd => by
    have hlt := hslb d hd b List.mem_cons_self
    unfold Blocks.Block.stop at hlt
    omega
  have hmb : ∀ d ∈ c :: m, d.addr ≠ b.addr := fun d hd => by
    have hlt := hbm d hd
    unfold Blocks.Block.stop at hlt
    omega
  rw [List.append_cons] at hsorted
  refine (of_list (h := h') (l := l ++ b :: m) (c :: used) (cons_of_append hl m)
    (Chain.of_mid (hcl.congr fun d hd => hothers _ (hlb d hd)) ?_ ?_)
    ⟨b, List.mem_append_right _ List.mem_cons_self, hmoved.freeList⟩ ?_ ?_ ?_ ?_ ?_ ?_ ?_).imp
    fun _ => And.left
  · rw [hself]
    exact hcb
  · rw [hself]
    exact hcm.congr fun d hd => hothers _ (hmb d (List.mem_cons_of_mem _ hd))
  · rw [List.append_cons]
    exact hsorted.sublist (List.Sublist.append_left (List.sublist_cons_self _ _) _)
  · intro d hd
    rw [hmoved.brk]
    refine (List.mem_cons.mp (hold d hd)).imp_right fun hdf => ⟨hi.fits d hdf, ?_⟩
    intro x hx
    rcases List.mem_cons.mp hx with rfl | hx
    · rw [List.append_cons] at hd
      exact hsorted.apart hd
    · exact hi.apart x hx d hdf
  · intro x hx
    rw [hmoved.brk]
    rcases List.mem_cons.mp hx with rfl | hx
    · exact hi.fits x hc
    · exact hi.used_fits x hx
  · intro x hx
    rcases List.mem_cons.mp hx with rfl | hx
    · rw [hothers _ (hmb x List.mem_cons_self)]
      exact hcn
    · have hxb := hi.addr_ne hx b (hold b (List.mem_append_right _ List.mem_cons_self))
      rw [hothers _ hxb.symm]
      exact hi.header x hx
  · exact List.pairwise_cons.mpr ⟨fun x hx => (hi.apart x hx c hc).symm, hi.used_apart⟩
  · intro i
    rw [hmoved.regions, ← hi.cover i, ← covers_base (l := free), hl]
    simp only [covers_append, covers_cons]
    grind
  · rw [hmoved.brk]
    exact hi.room

theorem take_tail {c : Blocks.Block} {l m : List Blocks.Block} {nunits : Nat} {h' : Heap}
    (hi : Inv base h free used) (hl : baseBlock base :: free = l ++ b :: c :: m)
    (hpos : 0 < nunits) (hlt : nunits < c.units) (hmoved : Moved h h' b.addr)
    (hfront : h'.mem c.addr = ⟨(h.mem c.addr).next, c.units - nunits⟩)
    (htail : (h'.mem (c.addr + unitSize * (c.units - nunits))).nunits = nunits)
    (hothers : ∀ i, i ≠ c.addr → i ≠ c.addr + unitSize * (c.units - nunits) →
      h'.mem i = h.mem i) :
    ∃ free', Inv base h' free' (⟨c.addr + unitSize * (c.units - nunits), nunits⟩ :: used) := by
  have hc := hi.mem_free_of_append hl
  have hfc := hi.fits c hc
  have hchain := hi.chain
  have hsorted := hi.sorted
  have hold : ∀ d ∈ l ++ b :: m, d ∈ baseBlock base :: free := by
    intro d hd
    rw [hl]
    refine List.mem_append.mpr ((List.mem_append.mp hd).imp_right fun hd => ?_)
    exact List.mem_cons.mpr ((List.mem_cons.mp hd).imp_right (List.mem_cons_of_mem _))
  rw [hl] at hchain hsorted
  rw [List.append_cons] at hsorted hchain
  obtain ⟨hcl, hcn, hcm⟩ := hchain.mid
  -- the block is cut into a front and a tail
  generalize hrest : c.units - nunits = rest at hfront htail hothers ⊢
  have hsum : unitSize * c.units = unitSize * rest + unitSize * nunits := by
    rw [← Nat.mul_add]
    congr 1
    omega
  have hrpos : 0 < unitSize * rest := Nat.mul_pos (by decide) (by omega)
  have htpos : 0 < unitSize * nunits := Nat.mul_pos (by decide) hpos
  have hcstop : c.stop unitSize = c.addr + unitSize * c.units := rfl
  have hfstop : Blocks.Block.stop unitSize ⟨c.addr, rest⟩ = c.addr + unitSize * rest := rfl
  have htstop : Blocks.Block.stop unitSize ⟨c.addr + unitSize * rest, nunits⟩ =
      c.addr + unitSize * rest + unitSize * nunits := rfl
  have hapart : ∀ d ∈ l ++ b :: m, Apart unitSize c d := by
    intro d hd
    rw [List.append_cons] at hd
    exact hsorted.apart hd
  have hne : ∀ d : Blocks.Block, Apart unitSize c d → 0 < unitSize * d.units ∨ d.addr < c.addr →
      d.addr ≠ c.addr ∧ d.addr ≠ c.addr + unitSize * rest := by
    intro d hd hdpos
    have hdstop : d.stop unitSize = d.addr + unitSize * d.units := rfl
    unfold Apart at hd
    omega
  have hlist : ∀ d ∈ l ++ b :: m, h'.mem d.addr = h.mem d.addr := by
    intro d hd
    obtain ⟨hd₁, hd₂⟩ := hne d (hapart d hd) <| by
      rcases List.mem_cons.mp (hold d hd) with rfl | hdf
      · exact .inr hfc.base_lt
      · exact .inl (hi.fits d hdf).pos
    exact hothers _ hd₁ hd₂
  have hmem : ∀ d, d ∈ l ++ b :: ⟨c.addr, rest⟩ :: m → d = ⟨c.addr, rest⟩ ∨ d ∈ l ++ b :: m := by
    intro d hd
    simp only [List.mem_append, List.mem_cons] at hd ⊢
    grind
  refine (of_list (h := h') (l := l ++ b :: ⟨c.addr, rest⟩ :: m)
    (⟨c.addr + unitSize * rest, nunits⟩ :: used) (cons_of_append hl _) ?_
    ⟨b, List.mem_append_right _ List.mem_cons_self, hmoved.freeList⟩ ?_ ?_ ?_ ?_ ?_ ?_ ?_).imp
    fun _ => And.left
  · rw [List.append_cons]
    refine Chain.of_mid (b := ⟨c.addr, rest⟩) (hcl.congr fun d hd => hlist d ?_) ?_ ?_
    · rw [List.append_cons]
      exact List.mem_append_left _ hd
    · rw [hfront]
    · rw [hfront]
      refine hcm.congr fun d hd => hlist d ?_
      exact List.mem_append_right _ (List.mem_cons_of_mem _ hd)
  · rw [List.append_cons]
    exact hsorted.shrink rfl (by omega)
  · intro d hd
    rw [hmoved.brk]
    rcases hmem d hd with rfl | hd
    · right
      refine ⟨⟨hfc.above, Nat.pos_of_mul_pos_left hrpos, hfc.aligned, ?_⟩, fun x hx => ?_⟩
      · have hbelow := hfc.below
        omega
      · rcases List.mem_cons.mp hx with rfl | hx
        · right
          exact Nat.le_of_eq hfstop
        · exact (hi.apart x hx c hc).sub (Nat.le_refl _) (by omega)
    · refine (List.mem_cons.mp (hold d hd)).imp_right fun hdf => ⟨hi.fits d hdf, ?_⟩
      intro x hx
      rcases List.mem_cons.mp hx with rfl | hx
      · refine ((hapart d hd).symm.sub ?_ ?_).symm
        · exact Nat.le_add_right _ _
        · omega
      · exact hi.apart x hx d hdf
  · intro x hx
    rw [hmoved.brk]
    rcases List.mem_cons.mp hx with rfl | hx
    · have habove := hfc.above
      have hbelow := hfc.below
      have haligned := hfc.aligned
      refine ⟨?_, hpos, ?_, by omega⟩
      · exact Nat.le_trans habove (Nat.le_add_right _ _)
      · show (c.addr + unitSize * rest) % headerAlign = 0
        have hunit : unitSize = 2 * headerAlign := rfl
        rw [hunit, Nat.mul_comm 2, Nat.mul_assoc, Nat.add_mul_mod_self_left]
        exact haligned
    · exact hi.used_fits x hx
  · intro x hx
    rcases List.mem_cons.mp hx with rfl | hx
    · exact htail
    · obtain ⟨hx₁, hx₂⟩ := hne x (hi.apart x hx c hc).symm (.inl (hi.used_fits x hx).pos)
      rw [hothers _ hx₁ hx₂]
      exact hi.header x hx
  · refine List.pairwise_cons.mpr ⟨fun x hx => ?_, hi.used_apart⟩
    refine ((hi.apart x hx c hc).sub ?_ ?_).symm
    · exact Nat.le_add_right _ _
    · omega
  · intro i
    rw [hmoved.regions, ← hi.cover i, ← covers_base (l := free), hl]
    simp only [covers_append, covers_cons]
    have hcut : c.Has unitSize i ↔ Blocks.Block.Has unitSize ⟨c.addr, rest⟩ i ∨
        Blocks.Block.Has unitSize ⟨c.addr + unitSize * rest, nunits⟩ i := by
      unfold Blocks.Block.Has
      rw [hcstop, hfstop, htstop]
      show c.addr ≤ i ∧ _ ↔ (c.addr ≤ i ∧ _) ∨ (c.addr + unitSize * rest ≤ i ∧ _)
      omega
    rw [hcut]
    grind
  · rw [hmoved.brk]
    exact hi.room

/-- **All or a part of a free block comes into use.** -/
theorem carve (hi : Inv base h free used) (hb : b ∈ baseBlock base :: free) {nunits : Nat}
    (hpos : 0 < nunits) (hle : nunits ≤ (h.mem (h.mem b.addr).next).nunits) :
    ∃ free', Inv base (carve h nunits b.addr (h.mem b.addr).next).2 free'
      (⟨(carve h nunits b.addr (h.mem b.addr).next).1, nunits⟩ :: used) := by
  obtain ⟨l, m, hl⟩ := List.append_of_mem hb
  have hchain := hi.chain
  have hsorted := hi.sorted
  rw [hl] at hchain hsorted
  obtain ⟨hcl, hcb, hcm⟩ := hchain.mid
  cases m with
  | nil =>
      -- `BASE` has no units
      have hend : (h.mem b.addr).next = base := hcm
      rw [hend, hi.chain.2.1] at hle
      exact absurd hle (Nat.not_le_of_lt hpos)
  | cons c m =>
      obtain ⟨hc, hcn, -⟩ := hcm
      rw [hc] at hle hcn ⊢
      rw [hcn] at hle
      rw [Malloc.carve, hcn]
      by_cases hall : c.units = nunits
      · rw [if_pos hall, ← hall]
        exact hi.take_all hl ⟨rfl, rfl, rfl⟩ (Function.update_self ..)
          fun i hne => Function.update_of_ne hne _ _
      · rw [if_neg hall]
        have hlt : nunits < c.units := by omega
        have hfne : c.addr ≠ c.addr + unitSize * (c.units - nunits) := by
          have hpos : 0 < unitSize * (c.units - nunits) := Nat.mul_pos (by decide) (by omega)
          omega
        refine hi.take_tail hl hpos hlt ⟨rfl, rfl, rfl⟩ ?_ ?_ fun i h₁ h₂ => ?_
        · exact (Function.update_of_ne hfne _ _).trans (Function.update_self ..)
        · dsimp only
          rw [Function.update_self]
        · exact (Function.update_of_ne h₂ _ _).trans (Function.update_of_ne h₁ _ _)

/-- Before the first call. -/
structure Fresh (base : Nat) (h : Heap) : Prop where
  freeList : h.freeList = none
  regions : h.regions = []
  room : base + unitSize ≤ h.brk

theorem initialise (hf : Fresh base h) : Inv base (initialise base h) [] [] where
  chain := by
    have hself : (Malloc.initialise base h).mem base = ⟨base, 0⟩ := Function.update_self ..
    refine ⟨rfl, ?_, ?_⟩
    · rw [hself]
    · rw [hself]
      rfl
  rover := ⟨baseBlock base, List.mem_cons_self, rfl⟩
  sorted := List.pairwise_singleton _ _
  fits := fun _ hb => nomatch hb
  used_fits := fun _ hx => nomatch hx
  header := fun _ hx => nomatch hx
  apart := fun _ hx => nomatch hx
  used_apart := List.Pairwise.nil
  cover := fun i => by
    have hreg : (Malloc.initialise base h).regions = [] := hf.regions
    rw [hreg]
    exact or_self_iff
  room := hf.room

/-- The memory that `sbrk` gives is a block in use at first. -/
theorem grow (hi : Inv base h free used) {p units : Nat} (hp : h.brk ≤ p)
    (halign : p % headerAlign = 0) (hpos : 0 < units) :
    Inv base
      { h with
        regions := ⟨p, units⟩ :: h.regions
        brk := p + unitSize * units
        mem := Function.update h.mem p ⟨p, units⟩ } free (⟨p, units⟩ :: used) := by
  have hroom := hi.room
  have hgrow : ∀ b, Fits base h.brk b → Fits base (p + unitSize * units) b := fun b hb =>
    ⟨hb.above, hb.units, hb.aligned,
      Nat.le_trans hb.below (Nat.le_trans hp (Nat.le_add_right _ _))⟩
  have hbelow : ∀ b, Fits base h.brk b → b.addr ≠ p := by
    intro b hb
    have hpos := hb.pos
    have hle := hb.below
    unfold Blocks.Block.stop at hle
    omega
  have hbrk : ∀ b, Fits base h.brk b → Apart unitSize ⟨p, units⟩ b := fun b hb =>
    .inr (Nat.le_trans hb.below hp)
  constructor
  case chain =>
    refine hi.chain.update (fun b hb => ?_) _
    rcases List.mem_cons.mp hb with rfl | hb
    · exact Nat.ne_of_lt (Nat.lt_of_lt_of_le (Nat.lt_add_of_pos_right (by decide))
        (Nat.le_trans hroom hp))
    · exact hbelow b (hi.fits b hb)
  case rover => exact hi.rover
  case sorted => exact hi.sorted
  case fits => exact fun b hb => hgrow b (hi.fits b hb)
  case used_fits =>
    intro x hx
    rcases List.mem_cons.mp hx with rfl | hx
    · exact ⟨Nat.le_trans hroom hp, hpos, halign, Nat.le_refl _⟩
    · exact hgrow x (hi.used_fits x hx)
  case header =>
    intro x hx
    rcases List.mem_cons.mp hx with rfl | hx
    · exact congrArg Header.nunits (Function.update_self p (Header.mk p units) h.mem)
    · exact (congrArg Header.nunits
        (Function.update_of_ne (hbelow x (hi.used_fits x hx)) _ _)).trans (hi.header x hx)
  case apart =>
    intro x hx b hb
    rcases List.mem_cons.mp hx with rfl | hx
    · exact hbrk b (hi.fits b hb)
    · exact hi.apart x hx b hb
  case used_apart =>
    exact List.pairwise_cons.mpr ⟨fun x hx => hbrk x (hi.used_fits x hx), hi.used_apart⟩
  case cover =>
    intro i
    have hc := hi.cover i
    rw [covers_cons, covers_cons]
    grind
  case room => exact Nat.le_trans hroom (Nat.le_trans hp (Nat.le_add_right _ _))

theorem moreUnits (hi : Inv base h free used) {nunits p : Nat} {answer : Option Nat} {h' : Heap}
    (hrun : moreUnits nunits answer h = some (some p, h')) :
    ∃ units, Inv base h' free (⟨p, units⟩ :: used) := by
  rw [Malloc.moreUnits] at hrun
  split at hrun
  · cases answer with
    | none => cases hrun
    | some a =>
        rw [safeSbrk] at hrun
        split at hrun
        · rename_i hsbrk
          cases hrun
          exact ⟨_, hi.grow hsbrk.1 hsbrk.2.1 (Nat.lt_of_lt_of_le (by decide) (Nat.le_max_right _ _))⟩
        · cases hrun
  · cases hrun

theorem moreUnits_none {nunits : Nat} {answer : Option Nat} {h' : Heap}
    (hrun : Malloc.moreUnits nunits answer h = some (none, h')) : h' = h := by
  rw [Malloc.moreUnits] at hrun
  split at hrun
  · cases answer with
    | none =>
        cases hrun
        rfl
    | some a =>
        rw [safeSbrk] at hrun
        split at hrun
        · cases hrun
        · cases hrun
  · cases hrun

/-- **The loop of `inner_malloc`** keeps the invariant, wherever `freep` points. -/
theorem mallocLoop {nunits freep fuel : Nat} {answers : List (Option Nat)} {r : Option Nat}
    {h' : Heap} (hi : Inv base h free used) (hb : b ∈ baseBlock base :: free)
    (hpos : 0 < nunits)
    (hrun : mallocLoop nunits freep fuel answers h b.addr (h.mem b.addr).next = some (r, h')) :
    ∃ free', Inv base h' free' ((r.map fun p => ⟨p, nunits⟩).toList ++ used) := by
  induction fuel generalizing answers h free b with
  | zero => cases hrun
  | succ fuel ih =>
      rw [Malloc.mallocLoop.eq_def] at hrun
      dsimp only at hrun
      by_cases hle : nunits ≤ (h.mem (h.mem b.addr).next).nunits
      · rw [if_pos hle] at hrun
        cases hrun
        exact hi.carve hb hpos hle
      · rw [if_neg hle] at hrun
        by_cases hptr : (h.mem b.addr).next = freep
        · rw [if_pos hptr] at hrun
          cases answers with
          | nil => cases hrun
          | cons answer answers =>
              cases hmore : Malloc.moreUnits nunits answer h with
              | none =>
                  simp only [hmore] at hrun
                  cases hrun
              | some r₁ =>
                  obtain ⟨_ | p, h₁⟩ := r₁
                  · simp only [hmore] at hrun
                    cases hrun
                    rw [moreUnits_none hmore]
                    exact ⟨free, hi⟩
                  · obtain ⟨units, hi₁⟩ := hi.moreUnits hmore
                    cases hfree : Malloc.innerFree fuel h₁ p with
                    | none =>
                        simp only [hmore, hfree] at hrun
                        cases hrun
                    | some r₂ =>
                        obtain ⟨q, h₂⟩ := r₂
                        simp only [hmore, hfree] at hrun
                        obtain ⟨free₂, hi₂, c, hc, rfl⟩ := @innerFree _ _ _ [] _ _ hi₁ _ _ _ hfree
                        exact ih hi₂ hc hrun
        · rw [if_neg hptr] at hrun
          obtain ⟨c, hc, hnext⟩ := hi.next_mem hb
          rw [hnext] at hrun
          exact ih hi hc hrun

/-- Only the headers matter. -/
theorem congr (hi : Inv base h free used) {mem' : Nat → Header}
    (hfree : ∀ b ∈ baseBlock base :: free, mem' b.addr = h.mem b.addr)
    (hused : ∀ x ∈ used, mem' x.addr = h.mem x.addr) :
    Inv base { h with mem := mem' } free used where
  chain := hi.chain.congr hfree
  rover := hi.rover
  sorted := hi.sorted
  fits := hi.fits
  used_fits := hi.used_fits
  header := fun x hx => (congrArg Header.nunits (hused x hx)).trans (hi.header x hx)
  apart := hi.apart
  used_apart := hi.used_apart
  cover := hi.cover
  room := hi.room

end Inv

/-! ## Runs -/

/-- A block in use, for a request of `bytes`. -/
structure Live where
  block : Blocks.Block
  bytes : Nat

/-- The bytes that the program may use. -/
def Live.Payload (x : Live) (i : Nat) : Prop :=
  x.block.addr + unitSize ≤ i ∧ i < x.block.stop unitSize

structure Program where
  heap : Heap
  live : List Live

/-- A call with the answers of `sbrk`, or writes of the program to its blocks. -/
inductive Event where
  | malloc (n : Nat) (answers : List (Option Nat))
  | free (p : Option Nat)
  | write

/-- Calls that return. -/
inductive Step (base : Nat) (s : Program) : Event → Program → Prop where
  | malloc {n p fuel : Nat} {answers : List (Option Nat)} {h : Heap} :
      krmalloc base fuel answers s.heap n = some (some p, h) →
      Step base s (.malloc n answers)
        ⟨h, ⟨⟨p - unitSize, (h.mem (p - unitSize)).nunits⟩, n⟩ :: s.live⟩
  | mallocNull {n fuel : Nat} {answers : List (Option Nat)} {h : Heap} :
      krmalloc base fuel answers s.heap n = some (none, h) →
      Step base s (.malloc n answers) ⟨h, s.live⟩
  | free {fuel : Nat} {pre post : List Live} {x : Live} {h : Heap} :
      s.live = pre ++ x :: post →
      krfree fuel s.heap (some (x.block.addr + unitSize)) = some h →
      Step base s (.free (some (x.block.addr + unitSize))) ⟨h, pre ++ post⟩
  | freeNull {fuel : Nat} {h : Heap} :
      krfree fuel s.heap none = some h → Step base s (.free none) ⟨h, s.live⟩
  /-- a header changes only when a byte of it is one of the program's -/
  | write {mem : Nat → Header} :
      (∀ i, (∀ x ∈ s.live, ∀ j, x.Payload j → ¬(i ≤ j ∧ j < i + unitSize)) →
        mem i = s.heap.mem i) →
      Step base s .write ⟨{ s.heap with mem }, s.live⟩

/-- No call has been made. -/
structure Init (base : Nat) (s : Program) : Prop where
  live : s.live = []
  fresh : Inv.Fresh base s.heap

/-- The blocks of a program. -/
def Program.used (s : Program) : List Blocks.Block := s.live.map Live.block

/-- Either nothing has happened, or the list is there. -/
structure Sound (base : Nat) (s : Program) : Prop where
  inv : Init base s ∨ ∃ free, Inv base s.heap free s.used
  bytes : ∀ x ∈ s.live, x.bytes + unitSize ≤ unitSize * x.block.units

section Preserved

variable {base : Nat} {s : Program}

theorem bytes2units_le {n units : Nat} (h : bytes2units n = some units) : n ≤ unitSize * units := by
  rw [bytes2units] at h
  split at h
  · cases h
    have hdiv := Nat.div_add_mod (n + (unitSize - 1)) unitSize
    have hmod := Nat.mod_lt (n + (unitSize - 1)) (y := unitSize) (by decide)
    have hunit : unitSize = 16 := rfl
    omega
  · cases h

/-- `inner_malloc` from the start, or from a list. -/
theorem innerMalloc_inv {n fuel : Nat} {answers : List (Option Nat)} {r : Option Nat} {h : Heap}
    (hs : Init base s ∨ ∃ free, Inv base s.heap free s.used)
    (hrun : innerMalloc base fuel answers s.heap n = some (r, h)) :
    (r = none ∧ h = s.heap) ∨ ∃ units free, n ≤ unitSize * units ∧
      Inv base h free ((r.map fun p => ⟨p, units + 1⟩).toList ++ s.used) := by
  rw [innerMalloc] at hrun
  split at hrun
  · -- the list is there from now on
    have hlist : ∃ free, Inv base (if s.heap.freeList = none then initialise base s.heap
        else s.heap) free s.used := by
      rcases hs with hinit | ⟨free, hi⟩
      · rw [if_pos hinit.fresh.freeList, Program.used, hinit.live]
        exact ⟨[], Inv.initialise hinit.fresh⟩
      · obtain ⟨b, -, hb⟩ := hi.rover
        rw [if_neg (by rw [hb]; exact Option.some_ne_none _)]
        exact ⟨free, hi⟩
    obtain ⟨free, hi⟩ := hlist
    obtain ⟨b, hb, hrover⟩ := hi.rover
    dsimp only at hrun
    rw [hrover] at hrun
    cases hunits : bytes2units n with
    | none =>
        rw [hunits] at hrun
        cases hrun
    | some units =>
        rw [hunits] at hrun
        obtain ⟨free', hi'⟩ := hi.mallocLoop hb (Nat.succ_pos units) hrun
        exact .inr ⟨units, free', bytes2units_le hunits, hi'⟩
  · cases hrun
    exact .inl ⟨rfl, rfl⟩

theorem Init.sound (h : Init base s) : Sound base s :=
  ⟨.inl h, fun x hx => by
    rw [h.live] at hx
    cases hx⟩

theorem krmalloc_some {n p fuel : Nat} {answers : List (Option Nat)} {h : Heap}
    (hs : Sound base s) (hrun : krmalloc base fuel answers s.heap n = some (some p, h)) :
    Sound base ⟨h, ⟨⟨p - unitSize, (h.mem (p - unitSize)).nunits⟩, n⟩ :: s.live⟩ := by
  obtain ⟨⟨r, h'⟩, hinner, he⟩ := Option.map_eq_some_iff.mp hrun
  obtain ⟨hr, rfl⟩ := Prod.mk.inj he
  obtain ⟨q, rfl, rfl⟩ := Option.map_eq_some_iff.mp hr
  rcases innerMalloc_inv hs.inv hinner with ⟨hnone, -⟩ | ⟨units, free, hle, hi⟩
  · cases hnone
  · have hheader : (h'.mem q).nunits = units + 1 := hi.header _ List.mem_cons_self
    rw [Nat.add_sub_cancel, hheader]
    refine ⟨.inr ⟨free, hi⟩, fun x hx => ?_⟩
    rcases List.mem_cons.mp hx with rfl | hx
    · show n + unitSize ≤ unitSize * (units + 1)
      rw [Nat.mul_add, Nat.mul_one]
      exact Nat.add_le_add_right hle _
    · exact hs.bytes x hx

theorem krmalloc_none {n fuel : Nat} {answers : List (Option Nat)} {h : Heap}
    (hs : Sound base s) (hrun : krmalloc base fuel answers s.heap n = some (none, h)) :
    Sound base ⟨h, s.live⟩ := by
  obtain ⟨⟨r, h'⟩, hinner, he⟩ := Option.map_eq_some_iff.mp hrun
  obtain ⟨hr, rfl⟩ := Prod.mk.inj he
  cases r with
  | some q => cases hr
  | none =>
      rcases innerMalloc_inv hs.inv hinner with ⟨-, rfl⟩ | ⟨units, free, -, hi⟩
      · exact hs
      · exact ⟨.inr ⟨free, hi⟩, hs.bytes⟩

theorem krfree_sound {fuel : Nat} {pre post : List Live} {x : Live} {h : Heap}
    (hs : Sound base s) (hx : s.live = pre ++ x :: post)
    (hrun : krfree fuel s.heap (some (x.block.addr + unitSize)) = some h) :
    Sound base ⟨h, pre ++ post⟩ := by
  have hmem : ∀ y ∈ pre ++ post, y ∈ s.live := by
    intro y hy
    rw [hx]
    rcases List.mem_append.mp hy with hy | hy
    · exact List.mem_append_left _ hy
    · exact List.mem_append_right _ (List.mem_cons_of_mem _ hy)
  rcases hs.inv with hinit | ⟨free, hi⟩
  · rw [hinit.live] at hx
    cases pre <;> cases hx
  · rw [krfree] at hrun
    split at hrun
    · obtain ⟨⟨q, h'⟩, hinner, rfl⟩ := Option.map_eq_some_iff.mp hrun
      rw [Nat.add_sub_cancel] at hinner
      rw [Program.used, hx, List.map_append, List.map_cons] at hi
      obtain ⟨free', hi', -⟩ := hi.innerFree hinner
      rw [← List.map_append] at hi'
      exact ⟨.inr ⟨free', hi'⟩, fun y hy => hs.bytes y (hmem y hy)⟩
    · cases hrun

/-- The program does not reach a header. -/
theorem write_sound {mem : Nat → Header} (hs : Sound base s)
    (hmem : ∀ i, (∀ x ∈ s.live, ∀ j, x.Payload j → ¬(i ≤ j ∧ j < i + unitSize)) →
      mem i = s.heap.mem i) : Sound base ⟨{ s.heap with mem }, s.live⟩ := by
  refine ⟨?_, hs.bytes⟩
  rcases hs.inv with hinit | ⟨free, hi⟩
  · exact .inl ⟨hinit.live, hinit.fresh.freeList, hinit.fresh.regions, hinit.fresh.room⟩
  · right
    -- a header that ends before a block or starts behind it
    have haway : ∀ a, (∀ x ∈ s.live, a + unitSize ≤ x.block.addr + unitSize ∨
        x.block.stop unitSize ≤ a) → mem a = s.heap.mem a := by
      intro a ha
      refine hmem a fun x hx j hj hij => ?_
      have hj₁ := hj.1
      have hj₂ := hj.2
      rcases ha x hx with hlt | hlt <;> omega
    have hblock : ∀ b, 0 < b.units → (∀ x ∈ s.live, x.block = b ∨ Apart unitSize x.block b) →
        mem b.addr = s.heap.mem b.addr := by
      intro b hpos hb
      refine haway b.addr fun x hx => ?_
      have hle : unitSize ≤ unitSize * b.units := Nat.le_mul_of_pos_right _ hpos
      rcases hb x hx with rfl | ha | ha
      · exact .inl (Nat.le_refl _)
      · exact .inr ha
      · left
        unfold Blocks.Block.stop at ha
        omega
    have hused : ∀ x ∈ s.live, x.block ∈ s.used := fun x hx => List.mem_map_of_mem hx
    refine ⟨free, hi.congr (fun b hb => ?_) fun y hy => ?_⟩
    · rcases List.mem_cons.mp hb with rfl | hb
      · refine haway base fun x hx => .inl ?_
        have habove := (hi.used_fits _ (hused x hx)).above
        omega
      · exact hblock b (hi.fits b hb).units fun x hx => .inr (hi.apart _ (hused x hx) b hb)
    · refine hblock y (hi.used_fits y hy).units fun x hx => ?_
      by_cases he : x.block = y
      · exact .inl he
      · exact .inr (hi.used_apart.forall (hused x hx) hy he)

theorem Step.sound {e : Event} {s' : Program} (hs : Sound base s) (h : Step base s e s') :
    Sound base s' := by
  cases h with
  | malloc hrun => exact krmalloc_some hs hrun
  | mallocNull hrun => exact krmalloc_none hs hrun
  | free hx hrun => exact krfree_sound hs hx hrun
  | freeNull hrun =>
      cases hrun
      exact hs
  | write hmem => exact write_sound hs hmem

end Preserved

/-- What the heap of a program is to be, with its free blocks. -/
structure Ordered (base : Nat) (s : Program) (free : List Blocks.Block) : Prop where
  /-- going around from `FREE_LIST` -/
  circular : ∃ f, s.heap.freeList = some f ∧
    (walk s.heap.mem (free.length + 1) f).1 ~r baseBlock base :: free ∧
    (walk s.heap.mem (free.length + 1) f).2 = f
  /-- by address, with a gap between two blocks -/
  sorted : Sorted unitSize (baseBlock base :: free)
  above : ∀ b ∈ free ++ s.used, base + unitSize ≤ b.addr
  live_apart : s.used.Pairwise (Apart unitSize)
  apart : ∀ x ∈ s.used, ∀ b ∈ free, Apart unitSize x b
  header : ∀ x ∈ s.live, (s.heap.mem x.block.addr).nunits = x.block.units
  usable : ∀ x ∈ s.live, x.bytes ≤ unitSize * x.block.units - unitSize
  cover : ∀ i, Covers unitSize free i ∨ Covers unitSize s.used i ↔
    Covers unitSize s.heap.regions i
  returns : ∀ x ∈ s.live, ∃ fuel h,
    krfree fuel s.heap (some (x.block.addr + unitSize)) = some h

theorem Sound.ordered {base : Nat} {s : Program} {free : List Blocks.Block} (hs : Sound base s)
    (hi : Inv base s.heap free s.used) : Ordered base s free where
  circular := by
    obtain ⟨b, hb, hrover⟩ := hi.rover
    obtain ⟨l, m, hl⟩ := List.append_of_mem hb
    have hchain := hi.chain
    rw [hl] at hchain
    obtain ⟨i, hcl, hcm⟩ := chain_append.mp hchain
    have hround : Chain s.heap.mem b.addr (b :: m ++ l) b.addr := by
      rw [hcm.start] at hcl hcm
      exact chain_append.mpr ⟨base, hcm, hcl⟩
    have hlen : (b :: m ++ l).length = free.length + 1 := by
      rw [← List.length_cons (a := baseBlock base), hl, List.length_append, List.length_append,
        Nat.add_comm]
    have hwalk := hround.walk_eq
    rw [hlen] at hwalk
    refine ⟨b.addr, hrover, ?_, ?_⟩
    · rw [hwalk, hl]
      exact List.isRotated_append
    · rw [hwalk]
  sorted := hi.sorted
  above := by
    intro b hb
    rcases List.mem_append.mp hb with hb | hb
    · exact (hi.fits b hb).above
    · exact (hi.used_fits b hb).above
  live_apart := hi.used_apart
  apart := hi.apart
  header := fun x hx => hi.header _ (List.mem_map_of_mem hx)
  usable := fun x hx => Nat.le_sub_of_add_le (hs.bytes x hx)
  cover := hi.cover
  returns := by
    intro x hx
    have hused : x.block ∈ s.used := List.mem_map_of_mem hx
    obtain ⟨fuel, r, hr⟩ := hi.innerFree_returns hused
    refine ⟨fuel, r.2, ?_⟩
    have halign : (x.block.addr + unitSize) % headerAlign = 0 := by
      have haligned := (hi.used_fits _ hused).aligned
      have hunit : unitSize = headerAlign * 2 := rfl
      rw [hunit, Nat.add_mul_mod_self_left]
      exact haligned
    rw [krfree, if_pos halign, Nat.add_sub_cancel, hr]
    rfl

/-- **The heap stays in order** whatever a program allocates, frees and writes to
its blocks, and `krfree` of a live pointer returns. -/
theorem heap_in_order {base : Nat} {s : Program} (h : Reach (Init base) (Step base) s) :
    (s.heap.freeList = none → s.live = [] ∧ s.heap.regions = []) ∧
    (s.heap.freeList ≠ none → ∃ free, Ordered base s free) := by
  have hs : Sound base s :=
    h.invariant (fun _ => Init.sound) fun _ _ _ hs hstep => hstep.sound hs
  rcases hs.inv with hinit | ⟨free, hi⟩
  · exact ⟨fun _ => ⟨hinit.live, hinit.fresh.regions⟩,
      fun hne => absurd hinit.fresh.freeList hne⟩
  · refine ⟨fun hnone => ?_, fun _ => ⟨free, hs.ordered hi⟩⟩
    obtain ⟨b, -, hb⟩ := hi.rover
    rw [hnone] at hb
    cases hb

/-- A heap nobody has used, with `BASE` at 16. -/
def unused : Heap := ⟨fun _ => ⟨0, 0⟩, none, [], 4096⟩

/-- `krmalloc(20)` takes three units from the end of the first region. -/
def afterFirst : Heap := ((krmalloc 16 2 [some 4096] unused 20).getD (none, unused)).2

theorem heap_in_order_first :
    Reach (Init 16) (Step 16) ⟨afterFirst, [⟨⟨69584, 3⟩, 20⟩]⟩ ∧
    ∃ free, Ordered 16 ⟨afterFirst, [⟨⟨69584, 3⟩, 20⟩]⟩ free := by
  have hinit : Init 16 ⟨unused, []⟩ := ⟨rfl, rfl, rfl, by decide⟩
  have hrun : krmalloc 16 2 [some 4096] unused 20 = some (some 69600, afterFirst) := rfl
  have hstep := Step.malloc (s := ⟨unused, []⟩) hrun
  have hreach : Reach (Init 16) (Step 16) ⟨afterFirst, [⟨⟨69584, 3⟩, 20⟩]⟩ :=
    Reach.step (.init hinit) hstep
  exact ⟨hreach, (heap_in_order hreach).2 (Option.some_ne_none 16)⟩

end Rxv64.Ulib.Malloc
