import Rxv64.Ulib.Malloc

/-!
# Ulib.Search — how often `krmalloc` asks for memory

The loop of `inner_malloc` goes around the list from `FREE_LIST`. When it comes
back without a block it asks `sbrk`, gives the new memory to `inner_free` and
goes on behind the block that `inner_free` returns. The new memory is above
everything else, so that is the last block of the list: the new memory follows
it, or is part of it.
-/

namespace Rxv64.Ulib.Malloc

open Blocks Runs

variable {base : Nat} {h h' : Heap} {free used : List Blocks.Block} {b : Blocks.Block} {nunits freep : Nat}
  {mem mem' : Nat → Header} {prevp ptr e fuel : Nat} {xs : List Blocks.Block}

/-! ## Going around -/

/-- How the search ends. -/
inductive Found where
  | block (prevp ptr : Nat)
  | around

/-- The loop up to a block that is large enough or to the start, and the fuel
that is left. -/
def search (nunits freep : Nat) (mem : Nat → Header) : Nat → Nat → Nat → Option (Found × Nat)
  | 0, _, _ => none
  | fuel + 1, prevp, ptr =>
      if nunits ≤ (mem ptr).nunits then some (.block prevp ptr, fuel)
      else if ptr = freep then some (.around, fuel)
      else search nunits freep mem fuel ptr (mem ptr).next

/-- What the loop does when it has come around. -/
def ask (nunits freep fuel : Nat) (answers : List (Option Nat)) (h : Heap) :
    Option (Option Nat × Heap) :=
  match answers with
  | [] => none
  | answer :: answers =>
      match moreUnits nunits answer h with
      | none => none
      | some (none, h) => some (none, h)
      | some (some units, h) =>
          match innerFree fuel h units with
          | none => none
          | some (q, h) => mallocLoop nunits freep fuel answers h q (h.mem q).next

/-- The loop is a search and what follows it. -/
theorem mallocLoop_eq (answers : List (Option Nat)) :
    mallocLoop nunits freep fuel answers h prevp ptr =
      (search nunits freep h.mem fuel prevp ptr).bind fun r => match r with
        | (.block prevp ptr, _) =>
            some (some (carve h nunits prevp ptr).1, (carve h nunits prevp ptr).2)
        | (.around, fuel) => ask nunits freep fuel answers h := by
  induction fuel generalizing prevp ptr with
  | zero => rfl
  | succ fuel ih =>
      rw [mallocLoop.eq_def, search]
      dsimp only
      split
      · rfl
      · split
        · rfl
        · exact ih

/-- The block before the end of a segment. -/
def behind (prevp : Nat) : List Blocks.Block → Nat
  | [] => prevp
  | b :: xs => behind b.addr xs

/-- Blocks that are too small, the start not among them. -/
def Skipped (nunits freep : Nat) (xs : List Blocks.Block) : Prop :=
  ∀ b ∈ xs, b.units < nunits ∧ b.addr ≠ freep

theorem search_skip (hchain : Chain mem ptr xs e) (hxs : Skipped nunits freep xs) :
    search nunits freep mem fuel prevp ptr =
      if fuel < xs.length then none
      else search nunits freep mem (fuel - xs.length) (behind prevp xs) e := by
  induction xs generalizing fuel prevp ptr with
  | nil =>
      have hptr : ptr = e := hchain
      rw [hptr, List.length_nil, if_neg (Nat.not_lt_zero _)]
      rfl
  | cons b xs ih =>
      obtain ⟨rfl, hunits, hrest⟩ := hchain
      obtain ⟨hsmall, hne⟩ := hxs b List.mem_cons_self
      cases fuel with
      | zero =>
          rw [List.length_cons, if_pos (Nat.succ_pos _)]
          rfl
      | succ fuel =>
          rw [search, if_neg (by omega), if_neg hne,
            ih hrest fun c hc => hxs c (List.mem_cons_of_mem _ hc)]
          simp only [List.length_cons, Nat.add_lt_add_iff_right, Nat.add_sub_add_right, behind]

/-- A segment ends at a block that is large enough. -/
theorem search_block (hchain : Chain mem ptr xs e) (hxs : Skipped nunits freep xs)
    (hfits : nunits ≤ (mem e).nunits) (hfuel : xs.length < fuel) :
    search nunits freep mem fuel prevp ptr =
      some (.block (behind prevp xs) e, fuel - xs.length - 1) := by
  rw [search_skip hchain hxs, if_neg (by omega)]
  cases hk : fuel - xs.length with
  | zero => omega
  | succ k =>
      rw [search, if_pos hfits]
      rfl

/-- A segment ends at the start. -/
theorem search_around (hchain : Chain mem ptr xs freep) (hxs : Skipped nunits freep xs)
    (hsmall : (mem freep).nunits < nunits) :
    search nunits freep mem fuel prevp ptr =
      if fuel ≤ xs.length then none else some (.around, fuel - xs.length - 1) := by
  rw [search_skip hchain hxs]
  by_cases hlt : fuel < xs.length
  · rw [if_pos hlt, if_pos (Nat.le_of_lt hlt)]
  · rw [if_neg hlt]
    cases hk : fuel - xs.length with
    | zero =>
        rw [if_pos (by omega)]
        rfl
    | succ k =>
        rw [if_neg (by omega), search, if_neg (by omega), if_pos rfl]
        rfl

/-- The first block that is large enough. -/
theorem exists_first {xs : List Blocks.Block} (h : ∃ b ∈ xs, nunits ≤ b.units) :
    ∃ l c m, xs = l ++ c :: m ∧ nunits ≤ c.units ∧ ∀ b ∈ l, b.units < nunits := by
  induction xs with
  | nil =>
      obtain ⟨b, hb, -⟩ := h
      cases hb
  | cons a xs ih =>
      by_cases ha : nunits ≤ a.units
      · exact ⟨[], a, xs, rfl, ha, fun b hb => by cases hb⟩
      · obtain ⟨b, hb, hle⟩ := h
        have hb : b ∈ xs := by
          rcases List.mem_cons.mp hb with rfl | hb
          · exact absurd hle ha
          · exact hb
        obtain ⟨l, c, m, rfl, hc, hl⟩ := ih ⟨b, hb, hle⟩
        refine ⟨a :: l, c, m, rfl, hc, fun d hd => ?_⟩
        rcases List.mem_cons.mp hd with rfl | hd
        · exact Nat.not_le.mp ha
        · exact hl d hd

/-! ## New memory above everything -/

/-- `inner_free` of a block above all others goes to the last block `c`. -/
theorem freeLoop_top {tag q : Nat} {m : List Blocks.Block} {c : Blocks.Block}
    (hchain : Chain h.mem q (m ++ [c]) base) (hsorted : Sorted unitSize (m ++ [c]))
    (hbase : base ≤ c.addr) (htop : ∀ b ∈ m ++ [c], b.addr < tag) :
    freeLoop fuel h tag q =
      if fuel ≤ m.length then none else some (c.addr, link h c.addr tag base) := by
  induction m generalizing q fuel with
  | nil =>
      obtain ⟨rfl, -, hend⟩ := hchain
      have hnext : (h.mem c.addr).next = base := hend
      have hc := htop c (List.mem_singleton.mpr rfl)
      cases fuel with
      | zero => rfl
      | succ fuel =>
          have hp : placed c.addr tag base := .inr ⟨hbase, .inl hc⟩
          rw [freeLoop, hnext, if_pos hp, List.length_nil, if_neg (by omega)]
  | cons b m ih =>
      obtain ⟨rfl, -, hrest⟩ := hchain
      obtain ⟨hb, hsorted⟩ := List.pairwise_cons.mp hsorted
      obtain ⟨d, hd, hnext⟩ : ∃ d ∈ m ++ [c], (h.mem b.addr).next = d.addr := by
        cases m with
        | nil => exact ⟨c, List.mem_singleton.mpr rfl, hrest.start⟩
        | cons d m => exact ⟨d, List.mem_cons_self, hrest.start⟩
      have hbd := hb d hd
      have hdt := htop d (List.mem_cons_of_mem _ hd)
      unfold Blocks.Block.stop at hbd
      cases fuel with
      | zero =>
          rw [if_pos (Nat.zero_le _)]
          rfl
      | succ fuel =>
          have hp : ¬placed b.addr tag (h.mem b.addr).next := by
            rw [hnext]
            rintro (⟨-, hlt⟩ | ⟨hge, -⟩) <;> omega
          rw [freeLoop, if_neg hp, ih hrest hsorted fun x hx => htop x (List.mem_cons_of_mem _ hx)]
          simp only [List.length_cons, Nat.add_le_add_iff_right]

/-- The heap after `sbrk` has given `units` units at `p`. -/
def granted (h : Heap) (p units : Nat) : Heap :=
  { h with
    regions := ⟨p, units⟩ :: h.regions
    brk := p + unitSize * units
    mem := Function.update h.mem p ⟨p, units⟩ }

theorem moreUnits_some {p : Nat} (hp : h.brk ≤ p) (halign : p % headerAlign = 0)
    (hroom : p + unitSize * max nunits 4096 < 2 ^ 64) :
    moreUnits nunits (some p) h = some (some p, granted h p (max nunits 4096)) := by
  rw [moreUnits, if_pos (by omega), safeSbrk, if_pos ⟨hp, halign, hroom⟩]
  rfl

/-- What `inner_free` does with it: behind the last block `c`, or joined to it. -/
theorem link_top (units : Nat) {p : Nat} {c : Blocks.Block} (hc : (h.mem c.addr).nunits = c.units)
    (hcp : c.addr < p) (hbase : base < p) :
    (link (granted h p units) c.addr p base).mem c.addr =
        (if c.stop unitSize = p then ⟨base, c.units + units⟩ else ⟨p, c.units⟩) ∧
      (link (granted h p units) c.addr p base).mem p = ⟨base, units⟩ ∧
      ∀ a, a ≠ c.addr → a ≠ p → (link (granted h p units) c.addr p base).mem a = h.mem a := by
  have hne : p ≠ c.addr := Nat.ne_of_gt hcp
  have hgp : (granted h p units).mem p = ⟨p, units⟩ := Function.update_self ..
  have hgc : (granted h p units).mem c.addr = h.mem c.addr := Function.update_of_ne hne.symm _ _
  have hfar : p + unitSize * units ≠ base := by omega
  have hp : joinNext unitSize (granted h p units).mem p base p = ⟨base, units⟩ := by
    rw [joinNext, Function.update_self, hgp, if_neg hfar]
  refine ⟨?_, ?_, fun a hac hap => ?_⟩
  · show joinNext unitSize (joinNext unitSize (granted h p units).mem p base) c.addr p c.addr = _
    rw [joinNext, Function.update_self, hp, joinNext_of_ne hne.symm, hgc, hc]
    rfl
  · show joinNext unitSize (joinNext unitSize (granted h p units).mem p base) c.addr p p = _
    rw [joinNext_of_ne hne, hp]
  · show joinNext unitSize (joinNext unitSize (granted h p units).mem p base) c.addr p a = _
    rw [joinNext_of_ne hac, joinNext_of_ne hap]
    exact Function.update_of_ne hap _ _

/-! ## The whole search -/

/-- No block is large enough, `BASE` included. -/
theorem Inv.small (_ : Inv base h free used) (hpos : 0 < nunits)
    (hfit : ¬∃ c ∈ free, nunits ≤ c.units) : ∀ x ∈ baseBlock base :: free, x.units < nunits := by
  intro x hx
  rcases List.mem_cons.mp hx with rfl | hx
  · exact hpos
  · exact Nat.not_le.mp fun hle => hfit ⟨x, hx, hle⟩

section Around

variable {l m : List Blocks.Block} (hi : Inv base h free used)
  (hl : baseBlock base :: free = l ++ b :: m)

include hi hl

/-- From behind the start back to it. -/
theorem Inv.chain_around : Chain h.mem (h.mem b.addr).next (m ++ l) b.addr := by
  have hchain := hi.chain
  rw [hl] at hchain
  obtain ⟨hcl, -, hcm⟩ := hchain.mid
  exact chain_append.mpr ⟨base, hcm, hcl⟩

theorem Inv.around_ne {x : Blocks.Block} (hx : x ∈ m ++ l) : x.addr ≠ b.addr := by
  have hsorted := hi.sorted
  rw [hl] at hsorted
  obtain ⟨-, hbm, hlb⟩ := List.pairwise_append.mp hsorted
  rcases List.mem_append.mp hx with hx | hx
  · have hlt := (List.pairwise_cons.mp hbm).1 x hx
    unfold Blocks.Block.stop at hlt
    omega
  · have hlt := hlb x hx b List.mem_cons_self
    unfold Blocks.Block.stop at hlt
    omega

omit hi in
theorem around_mem {x : Blocks.Block} (hx : x ∈ m ++ l ∨ x = b) : x ∈ baseBlock base :: free := by
  rw [hl]
  rcases hx with hx | rfl
  · rcases List.mem_append.mp hx with hx | hx
    · exact List.mem_append_right _ (List.mem_cons_of_mem _ hx)
    · exact List.mem_append_left _ hx
  · exact List.mem_append_right _ List.mem_cons_self

/-- A block that is large enough is found. -/
theorem Inv.search_finds (hfit : ∃ c ∈ free, nunits ≤ c.units) :
    ∃ fuel prevp ptr left, search nunits b.addr h.mem fuel b.addr (h.mem b.addr).next =
      some (.block prevp ptr, left) := by
  obtain ⟨c, hc, hle⟩ := hfit
  have hc' : c ∈ (m ++ l) ++ [b] := by
    have hmem : c ∈ l ++ b :: m := by
      rw [← hl]
      exact List.mem_cons_of_mem _ hc
    simp only [List.mem_append, List.mem_cons, List.not_mem_nil, or_false] at hmem ⊢
    tauto
  obtain ⟨pre, d, post, hsplit, hd, hpre⟩ := exists_first ⟨c, hc', hle⟩
  have hbefore : ∀ x ∈ pre, x ∈ m ++ l := by
    intro x hx
    have hdrop := congrArg List.dropLast hsplit
    rw [List.dropLast_concat, List.dropLast_append_of_ne_nil (List.cons_ne_nil d post)] at hdrop
    rw [hdrop]
    exact List.mem_append_left _ hx
  have hchain : Chain h.mem (h.mem b.addr).next ((m ++ l) ++ [b]) (h.mem b.addr).next := by
    have hb := hi.chain
    rw [hl] at hb
    exact Chain.of_mid (hi.chain_around hl) hb.mid.2.1 rfl
  rw [hsplit] at hchain
  obtain ⟨hcpre, hunits, -⟩ := hchain.mid
  refine ⟨_, _, _, _, search_block hcpre
    (fun x hx => ⟨hpre x hx, hi.around_ne hl (hbefore x hx)⟩) ?_ (Nat.lt_succ_self _)⟩
  rw [hunits]
  exact hd

/-- No block is large enough. -/
theorem Inv.search_fails (hpos : 0 < nunits) (hfit : ¬∃ c ∈ free, nunits ≤ c.units) (fuel : Nat) :
    search nunits b.addr h.mem fuel b.addr (h.mem b.addr).next =
      if fuel ≤ (m ++ l).length then none else some (.around, fuel - (m ++ l).length - 1) := by
  have hsmall := hi.small hpos hfit
  refine search_around (hi.chain_around hl) (fun x hx => ⟨?_, hi.around_ne hl hx⟩) ?_
  · exact hsmall x (around_mem hl (.inl hx))
  · have hb := hi.chain
    rw [hl] at hb
    rw [hb.mid.2.1]
    exact hsmall b (around_mem hl (.inr rfl))

end Around

/-- `inner_malloc` makes at most one call of `sbrk`, and finds memory if there is
some: the answers end after the first one. -/
def OneCall (base : Nat) (h : Heap) (free : List Blocks.Block) (n nunits : Nat) (answer : Option Nat) :
    Prop :=
  ∃ fuel r h', krmalloc base fuel [answer] h n = some (r, h') ∧
    ((∃ c ∈ free, nunits ≤ c.units) ∨ answer ≠ none → r ≠ none)

/-- The last block of the list ends where the new memory begins, and the search
did not start there. -/
def Passed (h : Heap) (free : List Blocks.Block) : Prop :=
  ∃ c, free.getLast? = some c ∧ c.stop unitSize = h.brk ∧ h.freeList ≠ some c.addr

/-- The list as one that ends in its last block. -/
theorem last_block {l m : List Blocks.Block} (hl : baseBlock base :: free = l ++ b :: m) :
    ∃ pre c, b :: m = pre ++ [c] ∧ baseBlock base :: free = (l ++ pre) ++ [c] := by
  obtain ⟨pre, c, hc⟩ : ∃ pre c, b :: m = pre ++ [c] :=
    ⟨(b :: m).dropLast, (b :: m).getLast (List.cons_ne_nil b m),
      (List.dropLast_append_getLast _).symm⟩
  exact ⟨pre, c, hc, by rw [hl, hc, List.append_assoc]⟩

/-- The heap when `inner_free` has put the new memory behind the last block. -/
def supplied (base : Nat) (h : Heap) (c : Blocks.Block) (units : Nat) : Heap :=
  link (granted h h.brk units) c.addr h.brk base

section Asked

variable {l pre m : List Blocks.Block} {c : Blocks.Block} (hi : Inv base h free used)
  (hlast : b :: m = pre ++ [c]) (hl : baseBlock base :: free = (l ++ pre) ++ [c])

include hi hl

/-- All blocks are below the break. -/
theorem Inv.below_brk {x : Blocks.Block} (hx : x ∈ (l ++ pre) ++ [c]) :
    base ≤ x.addr ∧ x.addr < h.brk := by
  have hroom := hi.room
  rw [← hl] at hx
  rcases List.mem_cons.mp hx with rfl | hx
  · exact ⟨Nat.le_refl _, Nat.lt_of_lt_of_le (Nat.lt_add_of_pos_right (by decide)) hroom⟩
  · have hfits := hi.fits x hx
    have hpos := hfits.pos
    have hbelow := hfits.below
    have hlow := hfits.base_lt
    unfold Blocks.Block.stop at hbelow
    omega

/-- What is known about the memory after the new region was given to `inner_free`. -/
theorem Inv.after_ask (units : Nat) :
    (supplied base h c units).mem c.addr =
        (if c.stop unitSize = h.brk then ⟨base, c.units + units⟩ else ⟨h.brk, c.units⟩) ∧
      ((supplied base h c units).mem h.brk).nunits = units ∧
      Chain (supplied base h c units).mem base (l ++ pre) c.addr := by
  have hroom := hi.room
  have hchain := hi.chain
  rw [hl] at hchain
  obtain ⟨hcl, hunits, -⟩ := hchain.mid
  have hc := hi.below_brk hl (List.mem_append_right _ (List.mem_singleton.mpr rfl))
  obtain ⟨h₁, h₂, h₃⟩ := link_top units hunits hc.2
    (Nat.lt_of_lt_of_le (Nat.lt_add_of_pos_right (by decide)) hroom)
  have hsorted := hi.sorted
  rw [hl] at hsorted
  refine ⟨h₁, congrArg Header.nunits h₂, hcl.congr fun x hx => h₃ _ ?_ ?_⟩
  · have hlt := (List.pairwise_append.mp hsorted).2.2 x hx c (List.mem_singleton.mpr rfl)
    unfold Blocks.Block.stop at hlt
    omega
  · exact Nat.ne_of_lt (hi.below_brk hl (List.mem_append_left _ hx)).2

include hlast in
/-- The new memory goes to the last block. -/
theorem Inv.ask_some {nunits : Nat} (hrover : h.freeList = some b.addr) (halign : h.brk % headerAlign = 0)
    (hroom : h.brk + unitSize * max nunits 4096 < 2 ^ 64) (fuel : Nat) :
    ask nunits b.addr fuel [some h.brk] h =
      if fuel ≤ pre.length then none
      else Malloc.mallocLoop nunits b.addr fuel []
        (supplied base h c (max nunits 4096)) c.addr
        ((supplied base h c (max nunits 4096)).mem c.addr).next := by
  have hbelow := fun x hx => hi.below_brk hl (x := x) hx
  have hinner : Malloc.innerFree fuel (granted h h.brk (max nunits 4096)) h.brk =
      if fuel ≤ pre.length then none
      else some (c.addr, supplied base h c (max nunits 4096)) := by
    have hunits : ((granted h h.brk (max nunits 4096)).mem h.brk).nunits = max nunits 4096 := by
      show (Function.update h.mem h.brk _ h.brk).nunits = _
      rw [Function.update_self]
    rw [Malloc.innerFree, hunits, if_neg (by omega)]
    have hfree : (granted h h.brk (max nunits 4096)).freeList = some b.addr := hrover
    rw [hfree]
    dsimp only
    have hmem : ∀ x ∈ pre ++ [c], x ∈ (l ++ pre) ++ [c] := fun x hx => by
      rw [List.append_assoc]
      exact List.mem_append_right _ hx
    have hchain := hi.chain
    have hsorted := hi.sorted
    rw [hl, List.append_assoc] at hchain hsorted
    obtain ⟨i, -, hcp⟩ := chain_append.mp hchain
    have hstart : i = b.addr := by
      rw [← hlast] at hcp
      exact hcp.start
    rw [hstart] at hcp
    refine freeLoop_top (hcp.congr fun x hx => ?_) (List.pairwise_append.mp hsorted).2.1 ?_ ?_
    · exact Function.update_of_ne (Nat.ne_of_lt (hbelow x (hmem x hx)).2) _ _
    · exact (hbelow c (hmem c (List.mem_append_right _ (List.mem_singleton.mpr rfl)))).1
    · exact fun x hx => (hbelow x (hmem x hx)).2
  rw [ask, moreUnits_some (Nat.le_refl _) halign hroom]
  dsimp only
  rw [hinner]
  by_cases hle : fuel ≤ pre.length
  · rw [if_pos hle, if_pos hle]
  · rw [if_neg hle, if_neg hle]

/-- The search goes on behind the last block, and comes to the new memory. -/
theorem Inv.supplied_found (hpos : 0 < nunits) (hfit : ¬∃ c ∈ free, nunits ≤ c.units)
    (hgood : c.stop unitSize = h.brk → b.addr = c.addr) :
    ∃ k, ∀ fuel, k ≤ fuel → ∃ p h', Malloc.mallocLoop nunits b.addr fuel []
      (supplied base h c (max nunits 4096)) c.addr
      ((supplied base h c (max nunits 4096)).mem c.addr).next = some (some p, h') := by
  obtain ⟨hc, hnew, hchain⟩ := hi.after_ask hl (max nunits 4096)
  by_cases htouch : c.stop unitSize = h.brk
  · -- joined: once around from `BASE`, and the last block was the start
    rw [if_pos htouch] at hc
    have hsmall := hi.small hpos hfit
    have hsorted := hi.sorted
    rw [hl] at hsorted
    have hskip : Skipped nunits b.addr (l ++ pre) := by
      intro x hx
      refine ⟨hsmall x (by rw [hl]; exact List.mem_append_left _ hx), ?_⟩
      have hlt := (List.pairwise_append.mp hsorted).2.2 x hx c (List.mem_singleton.mpr rfl)
      rw [hgood htouch]
      unfold Blocks.Block.stop at hlt
      omega
    have hfits : nunits ≤ ((supplied base h c (max nunits 4096)).mem c.addr).nunits := by
      rw [hc]
      show nunits ≤ c.units + max nunits 4096
      omega
    refine ⟨(l ++ pre).length + 1, fun fuel hfuel => ?_⟩
    rw [mallocLoop_eq, search_block (by rw [hc]; exact hchain) hskip hfits (by omega)]
    exact ⟨_, _, rfl⟩
  · -- the new block is the next one
    rw [if_neg htouch] at hc
    have hfits : nunits ≤ ((supplied base h c (max nunits 4096)).mem h.brk).nunits := by
      rw [hnew]
      exact Nat.le_max_left ..
    have hnext : Chain (supplied base h c (max nunits 4096)).mem
        ((supplied base h c (max nunits 4096)).mem c.addr).next [] h.brk := by
      rw [hc]
      rfl
    refine ⟨1, fun fuel hfuel => ?_⟩
    rw [mallocLoop_eq, search_block hnext (fun x hx => by cases hx) hfits hfuel]
    exact ⟨_, _, rfl⟩

include hlast in
/-- The search comes to its start once more. -/
theorem Inv.supplied_again (hpos : 0 < nunits) (hfit : ¬∃ c ∈ free, nunits ≤ c.units)
    (htouch : c.stop unitSize = h.brk) (hne : b.addr ≠ c.addr) (fuel : Nat) :
    Malloc.mallocLoop nunits b.addr fuel [] (supplied base h c (max nunits 4096)) c.addr
      ((supplied base h c (max nunits 4096)).mem c.addr).next = none := by
  obtain ⟨hc, -, hchain⟩ := hi.after_ask hl (max nunits 4096)
  rw [if_pos htouch] at hc
  have hsmall := hi.small hpos hfit
  -- the start is before the last block
  obtain ⟨pre', rfl⟩ : ∃ pre', pre = b :: pre' := by
    cases pre with
    | nil =>
        obtain ⟨rfl, -⟩ := List.cons.inj hlast
        exact absurd rfl hne
    | cons d pre' =>
        obtain ⟨rfl, -⟩ := List.cons.inj hlast
        exact ⟨pre', rfl⟩
  obtain ⟨hcl, hunits, -⟩ := hchain.mid
  have hb : b ∈ baseBlock base :: free := by
    rw [hl]
    exact List.mem_append_left _ (List.mem_append_right _ List.mem_cons_self)
  have hsorted := hi.sorted
  rw [hl, List.append_assoc] at hsorted
  have hskip : Skipped nunits b.addr l := by
    intro x hx
    refine ⟨hsmall x (by rw [hl, List.append_assoc]; exact List.mem_append_left _ hx), ?_⟩
    have hlt := (List.pairwise_append.mp hsorted).2.2 x hx b List.mem_cons_self
    unfold Blocks.Block.stop at hlt
    omega
  rw [mallocLoop_eq, search_around (by rw [hc]; exact hcl) hskip (by rw [hunits]; exact hsmall b hb)]
  split
  · rfl
  · rfl

end Asked

/-- `krmalloc` on a list that is there. -/
theorem krmalloc_eq {n units : Nat} (answers : List (Option Nat)) (hn : n ≠ 0)
    (hunits : bytes2units n = some units) (hrover : h.freeList = some freep) :
    krmalloc base fuel answers h n =
      (mallocLoop (units + 1) freep fuel answers h freep (h.mem freep).next).map fun r =>
        (r.1.map (· + unitSize), r.2) := by
  have hsome : ¬h.freeList = none := by
    rw [hrover]
    exact Option.some_ne_none _
  rw [krmalloc, innerMalloc, if_pos hn, if_neg hsome, hunits]
  dsimp only
  rw [hrover]

theorem krmalloc_initialise (answers : List (Option Nat)) {n : Nat} (hnone : h.freeList = none) :
    krmalloc base fuel answers h n = krmalloc base fuel answers (initialise base h) n ∨ n = 0 := by
  by_cases hn : n = 0
  · exact .inr hn
  · left
    have hsome : ¬(initialise base h).freeList = none := Option.some_ne_none _
    rw [krmalloc, krmalloc, innerMalloc, innerMalloc, if_pos hn, if_pos hn, if_pos hnone,
      if_neg hsome]

/-- What `sbrk` answers: it fails, or the new memory begins at the break. -/
def Answers (h : Heap) (nunits : Nat) (answer : Option Nat) : Prop :=
  ∀ p, answer = some p → p = h.brk ∧ p % headerAlign = 0 ∧ p + unitSize * max nunits 4096 < 2 ^ 64

/-- `BASE` does not end at the break. -/
theorem Inv.passed_iff (hi : Inv base h free used) {pre : List Blocks.Block} {c : Blocks.Block}
    (hl : baseBlock base :: free = pre ++ [c]) (hrover : h.freeList = some b.addr) :
    Passed h free ↔ c.stop unitSize = h.brk ∧ b.addr ≠ c.addr := by
  have hroom := hi.room
  have hlast : (baseBlock base :: free).getLast? = some c := by
    rw [hl]
    exact List.getLast?_concat ..
  cases free with
  | nil =>
      have hc : baseBlock base = c := Option.some.inj hlast
      refine iff_of_false (fun ⟨d, hd, _⟩ => by cases hd) fun ⟨hstop, _⟩ => ?_
      rw [← hc, stop_base] at hstop
      have hunit : unitSize = 16 := rfl
      omega
  | cons d free =>
      rw [List.getLast?_cons_cons] at hlast
      unfold Passed
      rw [hlast, hrover]
      constructor
      · rintro ⟨c', hc', hstop, hne⟩
        cases hc'
        exact ⟨hstop, fun heq => hne (by rw [heq])⟩
      · rintro ⟨hstop, hne⟩
        exact ⟨c, rfl, hstop, fun heq => hne (Option.some.inj heq)⟩

theorem Inv.one_call_iff (hi : Inv base h free used) {n units : Nat} {answer : Option Nat}
    (hn : n ≠ 0) (hunits : bytes2units n = some units)
    (hover : unitSize * max (units + 1) 4096 < 2 ^ 64) (hans : Answers h (units + 1) answer) :
    OneCall base h free n (units + 1) answer ↔
      (∃ c ∈ free, units + 1 ≤ c.units) ∨ answer = none ∨ ¬Passed h free := by
  obtain ⟨b, hb, hrover⟩ := hi.rover
  obtain ⟨l, m, hl⟩ := List.append_of_mem hb
  have hpos : 0 < units + 1 := Nat.succ_pos units
  by_cases hfit : ∃ c ∈ free, units + 1 ≤ c.units
  · refine iff_of_true ?_ (.inl hfit)
    obtain ⟨fuel, prevp, ptr, left, hfound⟩ := hi.search_finds hl hfit
    have hrun : krmalloc base fuel [answer] h n = some (some ((Malloc.carve h (units + 1) prevp
        ptr).1 + unitSize), (Malloc.carve h (units + 1) prevp ptr).2) := by
      rw [krmalloc_eq [answer] hn hunits hrover, mallocLoop_eq, hfound]
      rfl
    exact ⟨fuel, _, _, hrun, fun _ => Option.some_ne_none _⟩
  · obtain ⟨pre, c, hlast, hl'⟩ := last_block hl
    -- around, and then `sbrk`
    have hrun : ∀ fuel, krmalloc base fuel [answer] h n =
        if fuel ≤ (m ++ l).length then none
        else (ask (units + 1) b.addr (fuel - (m ++ l).length - 1) [answer] h).map fun r =>
          (r.1.map (· + unitSize), r.2) := by
      intro fuel
      rw [krmalloc_eq [answer] hn hunits hrover, mallocLoop_eq, hi.search_fails hl hpos hfit]
      split <;> rfl
    have hpassed : Passed h free ↔ c.stop unitSize = h.brk ∧ b.addr ≠ c.addr := hi.passed_iff hl' hrover
    cases answer with
    | none =>
        have hmore : Malloc.moreUnits (units + 1) none h = some (none, h) := by
          rw [Malloc.moreUnits, if_pos hover]
          rfl
        refine iff_of_true ⟨(m ++ l).length + 1, none, h, ?_, ?_⟩ (.inr (.inl rfl))
        · rw [hrun, if_neg (by omega), ask, hmore]
          rfl
        · rintro (hc | hc)
          · exact absurd hc hfit
          · exact absurd rfl hc
    | some p =>
        obtain ⟨rfl, halign, hroom⟩ := hans p rfl
        have hask := fun fuel => hi.ask_some hlast hl' hrover halign hroom fuel
        by_cases hgood : c.stop unitSize = h.brk → b.addr = c.addr
        · refine iff_of_true ?_ (.inr (.inr fun hp => ?_))
          · obtain ⟨k, hk⟩ := hi.supplied_found hl' hpos hfit hgood
            obtain ⟨q, h', hq⟩ := hk (k + pre.length + 1) (by omega)
            refine ⟨k + pre.length + 1 + (m ++ l).length + 1, some (q + unitSize), h', ?_,
              fun _ => Option.some_ne_none _⟩
            rw [hrun, if_neg (by omega), show k + pre.length + 1 + (m ++ l).length + 1 -
              (m ++ l).length - 1 = k + pre.length + 1 by omega, hask, if_neg (by omega), hq]
            rfl
          · obtain ⟨htouch, hne⟩ := hpassed.mp hp
            exact hne (hgood htouch)
        · obtain ⟨htouch, hne⟩ : c.stop unitSize = h.brk ∧ b.addr ≠ c.addr := by
            by_contra hno
            exact hgood fun ht => by_contra fun hne => hno ⟨ht, hne⟩
          refine iff_of_false ?_ ?_
          · rintro ⟨fuel, r, h', hr, -⟩
            rw [hrun, hask, hi.supplied_again hlast hl' hpos hfit htouch hne, ite_self] at hr
            split at hr <;> cases hr
          · rintro (hc | hc | hc)
            · exact hfit hc
            · cases hc
            · exact hc (hpassed.mpr ⟨htouch, hne⟩)

/-- The free blocks of a program: none before the first call. -/
def FreeBlocks (base : Nat) (s : Program) (free : List Blocks.Block) : Prop :=
  (s.heap.freeList = none ∧ free = []) ∨ Inv base s.heap free s.used

/-- **`krmalloc` asks once**, if a block is large enough or `sbrk` fails; else
just when the last free block does not end at the break, or the search started
with it. -/
theorem malloc_one_call_iff {base n units : Nat} {s : Program} {answer : Option Nat}
    (hreach : Reach (Init base) (Step base) s) (hn : n ≠ 0) (hunits : bytes2units n = some units)
    (hover : unitSize * max (units + 1) 4096 < 2 ^ 64)
    (hans : Answers s.heap (units + 1) answer) :
    ∃ free, FreeBlocks base s free ∧
      (OneCall base s.heap free n (units + 1) answer ↔
        (∃ c ∈ free, units + 1 ≤ c.units) ∨ answer = none ∨ ¬Passed s.heap free) := by
  have hs : Sound base s :=
    hreach.invariant (fun _ => Init.sound) fun _ _ _ hs hstep => hstep.sound hs
  rcases hs.inv with hinit | ⟨free, hi⟩
  · -- the first call puts `BASE` into the list
    refine ⟨[], .inl ⟨hinit.fresh.freeList, rfl⟩, iff_of_true ?_ (.inr (.inr ?_))⟩
    · have hans' : Answers (initialise base s.heap) (units + 1) answer := hans
      obtain ⟨fuel, r, h', hr, hsome⟩ := ((Inv.initialise hinit.fresh).one_call_iff hn hunits hover
        hans').mpr (.inr (.inr fun ⟨c, hc, _⟩ => by cases hc))
      refine ⟨fuel, r, h', ?_, hsome⟩
      rw [(krmalloc_initialise [answer] hinit.fresh.freeList).resolve_right hn]
      exact hr
    · rintro ⟨c, hc, -⟩
      cases hc
  · exact ⟨free, .inr hi, hi.one_call_iff hn hunits hover hans⟩

/-- Two blocks, the first one given back; then a block that is too large for
what was given back. -/
def split₁ : Heap := ((krmalloc 16 9 [some 4096] unused 16).getD (none, unused)).2

def split₂ : Heap := ((krmalloc 16 9 [] split₁ 16).getD (none, unused)).2

def split₃ : Heap := (krfree 9 split₂ (some 69616)).getD unused

def split₄ : Heap := ((krmalloc 16 9 [] split₃ 32).getD (none, unused)).2

/-- Two blocks are in use, and there are two free blocks. -/
def split : Program := ⟨split₄, [⟨⟨69520, 3⟩, 32⟩, ⟨⟨69568, 2⟩, 16⟩]⟩

theorem split_reach : Reach (Init 16) (Step 16) split := by
  have h₀ : Reach (Init 16) (Step 16) ⟨unused, []⟩ := .init ⟨rfl, rfl, rfl, by decide⟩
  have r₁ : krmalloc 16 9 [some 4096] unused 16 = some (some 69616, split₁) := rfl
  have h₁ : Reach (Init 16) (Step 16) ⟨split₁, [⟨⟨69600, 2⟩, 16⟩]⟩ :=
    h₀.step (Step.malloc (s := ⟨unused, []⟩) r₁)
  have r₂ : krmalloc 16 9 [] split₁ 16 = some (some 69584, split₂) := rfl
  have h₂ : Reach (Init 16) (Step 16) ⟨split₂, [⟨⟨69568, 2⟩, 16⟩, ⟨⟨69600, 2⟩, 16⟩]⟩ :=
    h₁.step (Step.malloc (s := ⟨split₁, [⟨⟨69600, 2⟩, 16⟩]⟩) r₂)
  have r₃ : krfree 9 split₂ (some 69616) = some split₃ := rfl
  have hlive : (⟨split₂, [⟨⟨69568, 2⟩, 16⟩, ⟨⟨69600, 2⟩, 16⟩]⟩ : Program).live =
      [⟨⟨69568, 2⟩, 16⟩] ++ ⟨⟨69600, 2⟩, 16⟩ :: [] := rfl
  have h₃ : Reach (Init 16) (Step 16) ⟨split₃, [⟨⟨69568, 2⟩, 16⟩]⟩ := h₂.step (Step.free hlive r₃)
  have r₄ : krmalloc 16 9 [] split₃ 32 = some (some 69536, split₄) := rfl
  exact h₃.step (Step.malloc (s := ⟨split₃, [⟨⟨69568, 2⟩, 16⟩]⟩) r₄)

/-- The free blocks are the rest of the region and the block given back. -/
theorem split_free {free used : List Blocks.Block} (hi : Inv 16 split₄ free used) :
    free = [⟨4096, 4089⟩, ⟨69600, 2⟩] := by
  have hsorted := (List.pairwise_cons.mp hi.sorted).1
  obtain ⟨-, -, hchain⟩ := hi.chain
  have hnext : (split₄.mem 16).next = 4096 := rfl
  have hnext₁ : split₄.mem 4096 = ⟨69600, 4089⟩ := rfl
  have hnext₂ : split₄.mem 69600 = ⟨16, 2⟩ := rfl
  rw [hnext] at hchain
  cases free with
  | nil => cases hchain
  | cons b₁ free =>
      obtain ⟨ha₁, hu₁, hchain⟩ := hchain
      rw [hnext₁] at hu₁ hchain
      cases free with
      | nil => cases hchain
      | cons b₂ free =>
          obtain ⟨ha₂, hu₂, hchain⟩ := hchain
          dsimp only at hu₂ hchain
          rw [hnext₂] at hu₂ hchain
          cases free with
          | nil =>
              rw [Blocks.Block.ext (x := b₁) (y := ⟨4096, 4089⟩) ha₁.symm hu₁.symm,
                Blocks.Block.ext (x := b₂) (y := ⟨69600, 2⟩) ha₂.symm hu₂.symm]
          | cons b₃ free =>
              have hlt := hsorted b₃ (by simp)
              have ha₃ : 16 = b₃.addr := hchain.start
              rw [← ha₃, stop_base] at hlt
              exact absurd hlt (Nat.lt_irrefl _)

theorem split_inv : Inv 16 split.heap [⟨4096, 4089⟩, ⟨69600, 2⟩] split.used := by
  have hs := split_reach.invariant (fun _ => Init.sound) fun _ _ _ hs hstep => Step.sound hs hstep
  rcases hs.inv with hinit | ⟨free, hi⟩
  · cases hinit.live
  · exact split_free hi ▸ hi

/-- One call for what a free block has room for, and one for more than that
when `sbrk` fails. -/
theorem malloc_one_call_split :
    OneCall 16 split.heap [⟨4096, 4089⟩, ⟨69600, 2⟩] 20 3 (some 69632) ∧
    OneCall 16 split.heap [⟨4096, 4089⟩, ⟨69600, 2⟩] 65536 4097 none := by
  have hfree : ∀ {free}, FreeBlocks 16 split free → free = [⟨4096, 4089⟩, ⟨69600, 2⟩] := by
    rintro free (⟨hnone, -⟩ | hi)
    · cases hnone
    · exact split_free hi
  have hans : Answers split.heap 3 (some 69632) := by
    rintro p hp
    cases hp
    decide
  have hrefused : Answers split.heap 4097 none := by
    rintro p hp
    cases hp
  obtain ⟨free, hf, hfits⟩ := malloc_one_call_iff (n := 20) split_reach (by decide) rfl
    (by decide) hans
  obtain ⟨free', hf', hfails⟩ := malloc_one_call_iff (n := 65536) split_reach (by decide) rfl
    (by decide) hrefused
  rw [hfree hf] at hfits
  rw [hfree hf'] at hfails
  exact ⟨hfits.mpr (.inl ⟨⟨4096, 4089⟩, by decide, by decide⟩), hfails.mpr (.inr (.inl rfl))⟩

/-- `sbrk` succeeds, and is called again. -/
theorem malloc_asks_again : ∃ s free, Reach (Init 16) (Step 16) s ∧ FreeBlocks 16 s free ∧
    Answers s.heap 4097 (some 69632) ∧ ¬OneCall 16 s.heap free 65536 4097 (some 69632) := by
  have hans : Answers split.heap 4097 (some 69632) := by
    rintro p hp
    cases hp
    decide
  refine ⟨split, _, split_reach, .inr split_inv, hans, ?_⟩
  have hunits : bytes2units 65536 = some 4096 := rfl
  rw [split_inv.one_call_iff (n := 65536) (by decide) hunits (by decide) hans]
  rintro (⟨c, hc, hle⟩ | hnone | hno)
  · revert c
    decide
  · cases hnone
  · exact hno ⟨⟨69600, 2⟩, rfl, rfl, by decide⟩

end Rxv64.Ulib.Malloc
