import Rxv64.Vm.Boot
import Rxv64.Vm.Translate

/-!
# Vm.KernelMap — physical memory in the kernel's address space

`map_phys_range` of `kernel/src/vm.rs` and `init`, which maps the memory map and a
list of special ranges with it. The range of `map_phys_range` is closed, so each call
also maps the page behind its range; what a page is mapped as in the end is decided
by the last closed range that reaches it.
-/

namespace Rxv64.Vm

open Prog

/-! ## The code -/

def PageFlags.empty : PageFlags := ⟨0, by decide⟩

def PageFlags.wrthru : PageFlags := ⟨1 <<< 3, by decide⟩

def PageFlags.nocache : PageFlags := ⟨1 <<< 4, by decide⟩

def PageFlags.hasNocache (a : PageFlags) : Bool := a.bits.getLsbD 4

/-- `(start..=end).step_by(PAGE_SIZE)`. -/
def pagesTo (start stop : Nat) : List Nat :=
  if start ≤ stop then List.range' start ((stop - start) / pageSize + 1) pageSize else []

/-- `PageTable::map_phys_range`. -/
def mapPhysRange (root : Frame) (start stop : Nat) (flags : PageFlags) : VmM Unit :=
  each (fun pa => do mapTo root (BitVec.ofNat 64 pa) (← physToPtr pa) flags) (pagesTo start stop)

def devFlags : PageFlags := ((PageFlags.write.union .wrthru).union .nocache).union .nx

/-- Where the kernel's text, its read-only data and the kernel itself end in memory. -/
structure KernelEnds where
  etext : Nat
  erodata : Nat
  stop : Nat

/-- The flags for a piece of the memory map. -/
def initFlags : MemType → Option PageFlags
  | .memory => some (PageFlags.write.union .nx)
  | .system => some devFlags
  | _ => none

/-- The loop over the memory map. -/
def mapEntries (k : KernelEnds) (root : Frame) : List MemMapEntry → VmM Unit
  | [] => pure ()
  | e :: entries =>
      match initFlags e.typ with
      | none => mapEntries k root entries
      | some flags =>
          if e.stop < k.stop then mapEntries k root entries
          else do
            (mapPhysRange root (max e.start k.stop) e.stop flags).expect "init map failed"
            mapEntries k root entries

/-- A range and its flags. -/
structure PhysRange where
  start : Nat
  stop : Nat
  flags : PageFlags

def customMap (k : KernelEnds) : List PhysRange :=
  [⟨0x1000, 0x7000, PageFlags.write.union .nx⟩,
    ⟨0x7000, 0x8000, PageFlags.write.union .nx⟩,
    ⟨0x8000, 0x80000, PageFlags.write.union .nx⟩,
    ⟨0x80000, 0xA0000, .nx⟩,
    ⟨0xA0000, 0xC0000, devFlags⟩,
    ⟨0xC0000, 0x100000, .nx⟩,
    ⟨textAddr - kernBaseAddr, k.etext, .empty⟩,
    ⟨k.etext, k.erodata, .nx⟩,
    ⟨k.erodata, k.stop, PageFlags.write.union .nx⟩,
    ⟨k.stop, 64 * 1024 * 1024, PageFlags.write.union .nx⟩,
    ⟨0xFE000000, 0x100000000, devFlags⟩]

/-- `init`. -/
def initTable (k : KernelEnds) (entries : List MemMapEntry) : VmM Frame := do
  match ← alloc with
  | none => abort "alloc kernel page table root"
  | some root => do
      modify fun m => m.setPage root Page.zero
      mapEntries k root entries
      each (fun r => (mapPhysRange root r.start r.stop r.flags).expect "init mapping failed")
        (customMap k)
      pure root

/-! ## Entries -/

variable {A : Set Frame} {m m' : Mem} {root : Frame} {l l' : List Frame} {env : Env}
  {start stop va v p f : Nat} {flags : PageFlags} {pa : BitVec 64}

/-- What page `f` of the memory is mapped as. -/
def pageEntry (f : Nat) (flags : PageFlags) : Entry :=
  (Entry.new (BitVec.ofNat 64 (f * pageSize)) flags).enable

/-- Only the page of an address goes into an entry. -/
theorem new_page (p : Nat) (flags : PageFlags) :
    (Entry.new (BitVec.ofNat 64 p) flags).enable = pageEntry (p / pageSize) flags := by
  have hmask : BitVec.ofNat 64 p &&& Entry.physPageMask =
      BitVec.ofNat 64 (p / pageSize * pageSize) &&& Entry.physPageMask := by
    refine BitVec.eq_of_getLsbD_eq fun i hi => ?_
    rw [BitVec.getLsbD_and, BitVec.getLsbD_and, Entry.getLsbD_mask]
    by_cases h12 : 12 ≤ i
    · have hbit : (p / pageSize * pageSize).testBit i = p.testBit i := by
        rw [show pageSize = 2 ^ 12 from rfl, Nat.testBit_mul_two_pow, Nat.testBit_div_two_pow]
        simp [h12]
      simp only [BitVec.getLsbD_ofNat, hbit]
    · simp [h12]
  rw [pageEntry, Entry.new, Entry.new, hmask]

theorem flags_pageEntry (f : Nat) (flags : PageFlags) :
    (pageEntry f flags).flags = flags.union .present := Entry.flags_new

theorem hasNocache_present (flags : PageFlags) :
    (flags.union .present).hasNocache = flags.hasNocache := by
  rw [PageFlags.hasNocache, PageFlags.union, BitVec.getLsbD_or]
  simp [PageFlags.present, PageFlags.hasNocache]

/-! ## Writes to a table -/

/-- The entry of `v` after writes at these addresses. -/
def overlay (ws : List (Nat × Entry)) (v : Nat) (old : Option Entry) : Option Entry :=
  ws.foldl (fun acc w => if v / pageSize = w.1 / pageSize then some w.2 else acc) old

theorem overlay_miss {ws : List (Nat × Entry)} (h : ∀ w ∈ ws, v / pageSize ≠ w.1 / pageSize)
    (old : Option Entry) : overlay ws v old = old := by
  induction ws generalizing old with
  | nil => rfl
  | cons w ws ih =>
      rw [overlay, List.foldl_cons, if_neg (h w List.mem_cons_self)]
      exact ih (fun w hw => h w (List.mem_cons_of_mem _ hw)) old

/-- Writes to one page that agree. -/
theorem overlay_hit {ws : List (Nat × Entry)} {e : Entry} {old : Option Entry}
    (hall : ∀ w ∈ ws, v / pageSize = w.1 / pageSize → w.2 = e)
    (h : old = some e ∨ ∃ w ∈ ws, v / pageSize = w.1 / pageSize) : overlay ws v old = some e := by
  induction ws generalizing old with
  | nil =>
      rcases h with h | ⟨w, hw, -⟩
      · exact h
      · cases hw
  | cons w ws ih =>
      rw [overlay, List.foldl_cons]
      refine ih (fun w hw => hall w (List.mem_cons_of_mem _ hw)) ?_
      by_cases hpage : v / pageSize = w.1 / pageSize
      · rw [if_pos hpage, hall w List.mem_cons_self hpage]
        exact .inl rfl
      · rw [if_neg hpage]
        obtain h | ⟨w', hw', hp⟩ := h
        · exact .inl h
        · rcases List.mem_cons.mp hw' with rfl | hw'
          · exact absurd hp hpage
          · exact .inr ⟨w', hw', hp⟩

/-- From `m` to `m'` these entries were written. -/
def Overlaid (A : Set Frame) (m m' : Mem) (root : Frame) (ws : List (Nat × Entry)) : Prop :=
  (∃ l', Own A m' 3 Any root l') ∧
    ∀ v, Canonical v → m'.entryFor root v = overlay ws v (m.entryFor root v)

theorem canonical_kern (h : p < 2 ^ 47) : Canonical (p + kernBaseAddr) :=
  .inr (by unfold kernBaseAddr; omega)

/-- `map_to` is one write. -/
theorem mapTo_overlaid (h : Own A m 3 Any root l) (hva : Canonical va) :
    Sat (mapTo root pa va flags env m)
      (fun _ m' => Overlaid A m m' root [(va, (Entry.new pa flags).enable)])
      (fun _ _ => True) (fun _ => True) := by
  refine (mapTo_tables h True.intro).imp ?_ (fun _ _ _ => True.intro) (fun _ hx => hx)
  rintro - m' ⟨l', hmap⟩
  refine ⟨⟨l', hmap.own⟩, fun v hv => ?_⟩
  rw [entryFor_eq_view, entryFor_eq_view, hmap.view v fun _ _ => True.intro]
  by_cases hpage : v / pageSize = va / pageSize
  · rw [if_pos ⟨rfl, digits_congr hpage 4⟩, overlay_hit (e := (Entry.new pa flags).enable)]
    · intro w hw _
      rw [List.mem_singleton.mp hw]
    · exact .inr ⟨_, List.mem_singleton_self _, hpage⟩
  · rw [if_neg fun hn => digits_ne hva hv hpage hn.2, overlay_miss]
    intro w hw
    rw [List.mem_singleton.mp hw]
    exact hpage

theorem physToPtr_spec {E : String → Mem → Prop} : Sat (physToPtr p env m)
    (fun q m' => q = p + kernBaseAddr ∧ p < 2 ^ 47 ∧ m' = m) E (fun _ => True) :=
  Sat.ite (fun hlt => Sat.pure ⟨rfl, by unfold kernBaseAddr at hlt; omega, rfl⟩) fun _ =>
    Sat.abort True.intro

/-- Each page in turn is mapped to itself. -/
theorem mapPages_overlaid (ps : List Nat) (h : Own A m 3 Any root l) :
    Sat (each (fun pa => do mapTo root (BitVec.ofNat 64 pa) (← physToPtr pa) flags) ps env m)
      (fun _ m' => (∀ p ∈ ps, p < 2 ^ 47) ∧
        Overlaid A m m' root (ps.map fun p => (p + kernBaseAddr, pageEntry (p / pageSize) flags)))
      (fun _ _ => True) (fun _ => True) := by
  induction ps generalizing m l with
  | nil => exact ⟨fun p hp => (by cases hp), ⟨l, h⟩, fun v _ => rfl⟩
  | cons p ps ih =>
      refine Sat.seq (Sat.seq physToPtr_spec fun q m₁ hq => ?_)
        (Q := fun _ m₁ => p < 2 ^ 47 ∧
          Overlaid A m m₁ root [(p + kernBaseAddr, pageEntry (p / pageSize) flags)]) ?_
      · obtain ⟨rfl, hp, rfl⟩ := hq
        rw [← new_page]
        exact (mapTo_overlaid h (canonical_kern hp)).imp (fun _ _ hw => ⟨hp, hw⟩)
          (fun _ _ he => he) (fun _ hx => hx)
      · intro _ m₁ hm₁
        obtain ⟨hp, ⟨l₁, hown⟩, hfirst⟩ := hm₁
        refine (ih hown).imp ?_ (fun _ _ he => he) (fun _ hx => hx)
        rintro - m₂ ⟨hlow, hl₂, hrest⟩
        refine ⟨fun q hq => ?_, hl₂, fun v hv => ?_⟩
        · rcases List.mem_cons.mp hq with rfl | hq
          · exact hp
          · exact hlow q hq
        · rw [hrest v hv, hfirst v hv]
          rfl

/-! ## One range -/

/-- Page `f` is one of those that `map_phys_range` maps. -/
def Reaches (start stop f : Nat) : Prop :=
  start ≤ stop ∧ start / pageSize ≤ f ∧ f ≤ start / pageSize + (stop - start) / pageSize

instance (start stop f : Nat) : Decidable (Reaches start stop f) :=
  inferInstanceAs (Decidable (_ ∧ _ ∧ _))

theorem mem_pagesTo : p ∈ pagesTo start stop ↔
    start ≤ stop ∧ ∃ i ≤ (stop - start) / pageSize, p = start + pageSize * i := by
  unfold pagesTo
  split
  · next hle =>
      rw [List.mem_range']
      constructor
      · intro ⟨i, hi, hp⟩
        exact ⟨hle, i, by omega, hp⟩
      · intro ⟨_, i, hi, hp⟩
        exact ⟨i, by omega, hp⟩
  · next hlt => exact ⟨fun hp => (by cases hp), fun hp => absurd hp.1 hlt⟩

theorem reaches_iff : Reaches start stop f ↔ ∃ p ∈ pagesTo start stop, p / pageSize = f := by
  unfold Reaches
  constructor
  · intro ⟨hle, hlo, hhi⟩
    refine ⟨start + pageSize * (f - start / pageSize),
      mem_pagesTo.mpr ⟨hle, f - start / pageSize, by omega, rfl⟩, ?_⟩
    rw [Nat.add_mul_div_left _ _ (by decide)]
    omega
  · intro ⟨p, hp, hf⟩
    obtain ⟨hle, i, hi, rfl⟩ := mem_pagesTo.mp hp
    rw [Nat.add_mul_div_left _ _ (by decide)] at hf
    omega

/-- The number of the page behind an address of the kernel's half. -/
def pageOf (v : Nat) : Nat := (v - kernBaseAddr) / pageSize

/-- What a range does to the entry of page `f`. -/
def PhysRange.over (r : PhysRange) (f : Nat) (old : Option Entry) : Option Entry :=
  if Reaches r.start r.stop f then some (pageEntry f r.flags) else old

/-- From `m` to `m'` these ranges were mapped. -/
def Charted (A : Set Frame) (m m' : Mem) (root : Frame) (rs : List PhysRange) : Prop :=
  (∃ l', Own A m' 3 Any root l') ∧ ∀ v, kernBaseAddr ≤ v → v < 2 ^ 64 →
    m'.entryFor root v = rs.foldl (fun acc r => r.over (pageOf v) acc) (m.entryFor root v)

theorem mapPhysRange_charted (h : Own A m 3 Any root l) :
    Sat (mapPhysRange root start stop flags env m)
      (fun _ m' => (∀ p ∈ pagesTo start stop, p < 2 ^ 47) ∧
        Charted A m m' root [⟨start, stop, flags⟩])
      (fun _ _ => True) (fun _ => True) := by
  refine (mapPages_overlaid _ h).imp ?_ (fun _ _ he => he) (fun _ hx => hx)
  rintro - m' ⟨hlow, hown, hwrote⟩
  refine ⟨hlow, hown, fun v hlo hhi => ?_⟩
  have hsame : ∀ p, p < 2 ^ 47 →
      (v / pageSize = (p + kernBaseAddr) / pageSize ↔ p / pageSize = pageOf v) := by
    intro p hp
    unfold pageOf pageSize kernBaseAddr at *
    omega
  rw [hwrote v (.inr ⟨hlo, hhi⟩), List.foldl_cons, List.foldl_nil, PhysRange.over]
  by_cases hreach : Reaches start stop (pageOf v)
  · obtain ⟨p, hp, hpage⟩ := reaches_iff.mp hreach
    rw [if_pos hreach, overlay_hit]
    · intro w hw hv
      obtain ⟨q, hq, rfl⟩ := List.mem_map.mp hw
      rw [(hsame q (hlow q hq)).mp hv]
    · exact .inr ⟨_, List.mem_map.mpr ⟨p, hp, rfl⟩, (hsame p (hlow p hp)).mpr hpage⟩
  · rw [if_neg hreach, overlay_miss]
    intro w hw hv
    obtain ⟨q, hq, rfl⟩ := List.mem_map.mp hw
    exact hreach (reaches_iff.mpr ⟨q, hq, (hsame q (hlow q hq)).mp hv⟩)

/-- An entry depends on the page of the address only. -/
theorem entryFor_samePage (h : v / pageSize = va / pageSize) :
    m.entryFor root v = m.entryFor root va := by
  rw [entryFor_eq_view, entryFor_eq_view, Mem.view, Mem.view, digits_congr h]

/-- The pages of a range are mapped to themselves, and nothing else changes. -/
def HalfOpen (m m' : Mem) (root : Frame) (start stop : Nat) (flags : PageFlags) : Prop :=
  ∀ v, kernBaseAddr ≤ v → v < 2 ^ 64 → m'.entryFor root v =
    if start ≤ v - kernBaseAddr ∧ v - kernBaseAddr < stop then some (pageEntry (pageOf v) flags)
    else m.entryFor root v

/-- The page behind a range is mapped with it. -/
theorem mapPhysRange_iff (h : Own A m 3 Any root l) (hstart : start % pageSize = 0)
    (hstop : stop % pageSize = 0) (hle : start ≤ stop)
    (hok : mapPhysRange root start stop flags env m = .ok () m') :
    HalfOpen m m' root start stop flags ↔
      m.entryFor root (stop + kernBaseAddr) = some (pageEntry (stop / pageSize) flags) := by
  obtain ⟨hlow, -, hentry⟩ := (mapPhysRange_charted h).of_ok hok
  have hlast : stop < 2 ^ 47 := by
    refine hlow stop (mem_pagesTo.mpr ⟨hle, (stop - start) / pageSize, Nat.le_refl _, ?_⟩)
    unfold pageSize at *
    omega
  have hstop' : pageOf (stop + kernBaseAddr) = stop / pageSize := by
    rw [pageOf, Nat.add_sub_cancel]
  have hreach : Reaches start stop (stop / pageSize) := by
    refine ⟨hle, ?_, ?_⟩
    · exact Nat.div_le_div_right hle
    · unfold pageSize at *
      omega
  have hdec : ∀ v, kernBaseAddr ≤ v → (Reaches start stop (pageOf v) ↔
      (start ≤ v - kernBaseAddr ∧ v - kernBaseAddr < stop) ∨ pageOf v = stop / pageSize) := by
    intro v hlo
    unfold Reaches pageOf pageSize at *
    omega
  constructor
  · intro hall
    have hnew := hall (stop + kernBaseAddr) (by omega) (by unfold kernBaseAddr; omega)
    rw [hentry _ (by omega) (by unfold kernBaseAddr; omega), List.foldl_cons, List.foldl_nil,
      PhysRange.over, hstop', if_pos hreach, if_neg (by omega)] at hnew
    exact hnew.symm
  · intro hold v hlo hhi
    rw [hentry v hlo hhi, List.foldl_cons, List.foldl_nil, PhysRange.over]
    by_cases hin : start ≤ v - kernBaseAddr ∧ v - kernBaseAddr < stop
    · rw [if_pos hin, if_pos ((hdec v hlo).mpr (.inl hin))]
    · rw [if_neg hin]
      by_cases hpage : pageOf v = stop / pageSize
      · have hv : v / pageSize = (stop + kernBaseAddr) / pageSize := by
          unfold pageOf pageSize kernBaseAddr at *
          omega
        rw [if_pos ((hdec v hlo).mpr (.inr hpage)), entryFor_samePage hv, hold, hpage]
      · rw [if_neg fun hr => ((hdec v hlo).mp hr).elim hin hpage]

/-! ## The whole map -/

variable {k : KernelEnds} {entries : List MemMapEntry} {rs : List PhysRange}

theorem Charted.trans {m₁ m₂ : Mem} {rs' : List PhysRange} (h : Charted A m m₁ root rs)
    (h' : Charted A m₁ m₂ root rs') : Charted A m m₂ root (rs ++ rs') :=
  ⟨h'.1, fun v hlo hhi => by rw [h'.2 v hlo hhi, h.2 v hlo hhi, List.foldl_append]⟩

theorem Charted.refl (h : Own A m 3 Any root l) : Charted A m m root [] :=
  ⟨⟨l, h⟩, fun _ _ _ => rfl⟩

/-- The range of an entry of the memory map. -/
def entryRange (k : KernelEnds) (e : MemMapEntry) : Option PhysRange :=
  match initFlags e.typ with
  | none => none
  | some flags => if e.stop < k.stop then none else some ⟨max e.start k.stop, e.stop, flags⟩

/-- The ranges in the order in which `init` maps them. -/
def initRanges (k : KernelEnds) (entries : List MemMapEntry) : List PhysRange :=
  entries.filterMap (entryRange k) ++ customMap k

/-- The loop over the memory map goes through these ranges. -/
theorem mapEntries_eq (k : KernelEnds) (root : Frame) (entries : List MemMapEntry) :
    mapEntries k root entries =
      each (fun r => (mapPhysRange root r.start r.stop r.flags).expect "init map failed")
        (entries.filterMap (entryRange k)) := by
  induction entries with
  | nil => rfl
  | cons e entries ih =>
      unfold mapEntries
      cases hflags : initFlags e.typ with
      | none =>
          have hskip : entryRange k e = none := by rw [entryRange, hflags]
          rw [List.filterMap_cons_none hskip]
          exact ih
      | some flags =>
          by_cases hlt : e.stop < k.stop
          · have hskip : entryRange k e = none := by
              rw [entryRange, hflags]
              exact if_pos hlt
            rw [List.filterMap_cons_none hskip]
            exact (if_pos hlt).trans ih
          · have hrange : entryRange k e = some ⟨max e.start k.stop, e.stop, flags⟩ := by
              rw [entryRange, hflags]
              exact if_neg hlt
            rw [List.filterMap_cons_some hrange]
            refine (if_neg hlt).trans ?_
            rw [ih]
            rfl

theorem mapRange_charted {msg : String} (r : PhysRange) (h : Own A m 3 Any root l) :
    Sat ((mapPhysRange root r.start r.stop r.flags).expect msg env m)
      (fun _ m' => Charted A m m' root [r]) (fun _ _ => False) (fun _ => True) :=
  ((mapPhysRange_charted h).imp (fun _ _ hq => hq.2) (fun _ _ he => he) (fun _ hx => hx)).expect
    fun _ _ _ => True.intro

theorem mapRanges_charted {msg : String} (rs : List PhysRange) (h : Own A m 3 Any root l) :
    Sat (each (fun r => (mapPhysRange root r.start r.stop r.flags).expect msg) rs env m)
      (fun _ m' => Charted A m m' root rs) (fun _ _ => False) (fun _ => True) := by
  induction rs generalizing m l with
  | nil => exact ⟨.refl h⟩
  | cons r rs ih =>
      refine Sat.seq (mapRange_charted r h) fun _ m₁ hm₁ => ?_
      obtain ⟨l₁, hown⟩ := hm₁.1
      exact (ih hown).imp (fun _ _ hm₂ => hm₁.trans hm₂) (fun _ _ he => he) (fun _ hx => hx)

/-- The flags of the last range that reaches a page. -/
def lastFlags (rs : List PhysRange) (f : Nat) : Option PageFlags :=
  rs.foldl (fun acc r => if Reaches r.start r.stop f then some r.flags else acc) none

theorem foldl_over (rs : List PhysRange) (f : Nat) (acc : Option PageFlags) :
    rs.foldl (fun acc r => r.over f acc) (acc.map (pageEntry f)) =
      (rs.foldl (fun acc r => if Reaches r.start r.stop f then some r.flags else acc) acc).map
        (pageEntry f) := by
  induction rs generalizing acc with
  | nil => rfl
  | cons r rs ih =>
      rw [List.foldl_cons, List.foldl_cons, ← ih, PhysRange.over, apply_ite (Option.map (pageEntry f))]
      rfl

/-- The first page of the list becomes an empty table. -/
theorem Pool.first (h : Pool A m (root :: l)) (h' : Pool A m' l) :
    Own A (m'.setPage root Page.zero) 3 Any root l := by
  have hempty := heap_zero (m := m'.setPage root Page.zero) (t := root) (Function.update_self ..)
  have hfoot := foot_single (n := 3) (K := Any) (.inr fun k _ => hempty k)
  have hnot : root ∉ l := (List.nodup_cons.mp h.nodup).1
  refine ⟨h'.frame rfl fun g hg => setPage_pages ?_, tree_single (.inr fun k _ => hempty k),
    fun g hg => ?_, fun g hg => ?_⟩
  · rintro rfl
    exact hnot hg
  · rw [hfoot] at hg
    rw [hg]
    exact h.mem root List.mem_cons_self
  · rw [hfoot] at hg
    rw [hg]
    exact hnot

/-- The kernel's map of the memory: the last range decides. -/
theorem initTable_spec (h : Pool A m l) :
    Sat (initTable k entries env m)
      (fun root m' => ∀ v, kernBaseAddr ≤ v → v < 2 ^ 64 → m'.entryFor root v =
        (lastFlags (initRanges k entries) (pageOf v)).map (pageEntry (pageOf v)))
      (fun _ _ => False) (fun _ => True) := by
  unfold initTable
  refine Sat.seq h.alloc fun r m₁ hr => ?_
  cases r with
  | none => exact Sat.abort True.intro
  | some root =>
      obtain ⟨l', rfl, hpool, -⟩ := hr
      have hown := h.first hpool
      refine Sat.modify ?_
      rw [mapEntries_eq]
      refine Sat.seq (mapRanges_charted _ hown) fun _ m₂ hm₂ => ?_
      obtain ⟨l₂, hown₂⟩ := hm₂.1
      refine Sat.seq (mapRanges_charted (customMap k) hown₂) fun _ m₃ hm₃ => Sat.pure ?_
      intro v hlo hhi
      have hnone : (m₁.setPage root Page.zero).entryFor root v = none := by
        rw [entryFor_eq_view]
        exact view_empty (heap_zero (Function.update_self ..)) v
      rw [(hm₂.trans hm₃).2 v hlo hhi, hnone]
      exact foldl_over (initRanges k entries) (pageOf v) none

/-- The device memory that `init` knows. -/
def deviceRanges : List (Nat × Nat) := [(0xA0000, 0xC0000), (0xFE000000, 0x100000000)]

/-- Page `f` is in the memory of the memory map, and not in system or device space. -/
def PlainRam (entries : List MemMapEntry) (f : Nat) : Prop :=
  f < 2 ^ 35 ∧
  (∃ e ∈ entries, e.typ = .memory ∧ e.start ≤ f * pageSize ∧ (f + 1) * pageSize ≤ e.stop) ∧
  (∀ e ∈ entries, e.typ = .system → e.stop ≤ f * pageSize ∨ (f + 1) * pageSize ≤ e.start) ∧
  ∀ d ∈ deviceRanges, d.2 ≤ f * pageSize ∨ (f + 1) * pageSize ≤ d.1

/-- No plain memory is mapped uncached. -/
def CachedRam (m : Mem) (root : Frame) (entries : List MemMapEntry) : Prop :=
  ∀ f, PlainRam entries f → ∀ e, m.entryFor root (f * pageSize + kernBaseAddr) = some e →
    e.flags.hasNocache = false

theorem cachedRam_iff
    (h : ∀ v, kernBaseAddr ≤ v → v < 2 ^ 64 → m.entryFor root v =
      (lastFlags (initRanges k entries) (pageOf v)).map (pageEntry (pageOf v))) :
    CachedRam m root entries ↔ ∀ f, PlainRam entries f →
      ∀ flags, lastFlags (initRanges k entries) f = some flags → flags.hasNocache = false := by
  refine forall_congr' fun f => imp_congr_right fun hram => ?_
  have hlow := hram.1
  have hpage : pageOf (f * pageSize + kernBaseAddr) = f := by
    rw [pageOf, Nat.add_sub_cancel]
    exact Nat.mul_div_cancel f (by decide)
  rw [h _ (by omega) (by unfold pageSize kernBaseAddr; omega), hpage]
  cases lastFlags (initRanges k entries) f with
  | none => exact ⟨fun _ _ hf => (by cases hf), fun _ _ he => (by cases he)⟩
  | some flags =>
      simp only [Option.map_some, Option.some.injEq, forall_eq', flags_pageEntry,
        hasNocache_present]

theorem lastFlags_concat {r : PhysRange} (h : Reaches r.start r.stop f) :
    lastFlags (rs ++ [r]) f = some r.flags := by
  rw [lastFlags, List.foldl_append, List.foldl_cons, List.foldl_nil, if_pos h]

/-- The first page behind 4 GiB is mapped as a device, whatever the memory map says. -/
theorem lastFlags_four_gib : lastFlags (initRanges k entries) (0x100000000 / pageSize) =
    some devFlags := by
  obtain ⟨rs, hrs⟩ : ∃ rs, initRanges k entries = rs ++ [⟨0xFE000000, 0x100000000, devFlags⟩] :=
    ⟨entries.filterMap (entryRange k) ++ (customMap k).dropLast, by
      rw [List.append_assoc]
      rfl⟩
  have hreach : Reaches 0xFE000000 0x100000000 (0x100000000 / pageSize) :=
    ⟨by omega, Nat.div_le_div_right (by omega), by unfold pageSize; omega⟩
  rw [hrs]
  exact lastFlags_concat hreach

theorem awake_mapPhysRange (root : Frame) (start stop : Nat) (flags : PageFlags) :
    Awake (mapPhysRange root start stop flags) :=
  .each fun _ => Awake.bind (.ite .pure .abort) fun _ => awake_mapTo _ _ _ _

theorem awake_initTable (k : KernelEnds) (entries : List MemMapEntry) :
    Awake (initTable k entries) := by
  unfold initTable
  simp only [mapEntries_eq]
  refine awake_alloc.bind fun r => ?_
  cases r with
  | none => exact .abort
  | some root =>
      have hranges : ∀ msg rs, Awake (each (fun r : PhysRange =>
          (mapPhysRange root r.start r.stop r.flags).expect msg) rs) := fun msg rs =>
        .each fun r => (awake_mapPhysRange _ _ _ _).expect
      exact Awake.modify.bind fun _ => (hranges _ _).bind fun _ => (hranges _ _).bind fun _ => .pure

/-- **A range is mapped half-open** exactly if the page behind it was mapped that way before,
and `init` maps no memory uncached exactly if the last range that reaches a page allows it. -/
theorem mapPhysRange_half_open_iff (A : Set Frame) (l : List Frame) (m : Mem) (env : Env) :
    (∀ m' root start stop flags, Own A m 3 Any root l → start % pageSize = 0 →
      stop % pageSize = 0 → start ≤ stop → mapPhysRange root start stop flags env m = .ok () m' →
        (HalfOpen m m' root start stop flags ↔
          m.entryFor root (stop + kernBaseAddr) = some (pageEntry (stop / pageSize) flags))) ∧
    ∀ k entries, Pool A m l →
      (∃ msg, initTable k entries env m = .panic msg) ∨
      ∃ root m', initTable k entries env m = .ok root m' ∧
        (CachedRam m' root entries ↔ ∀ f, PlainRam entries f →
          ∀ flags, lastFlags (initRanges k entries) f = some flags → flags.hasNocache = false) := by
  refine ⟨fun m' root start stop flags h hstart hstop hle hok =>
    mapPhysRange_iff h hstart hstop hle hok, fun k entries h => ?_⟩
  have hsat : Sat (initTable k entries env m) _ _ _ := initTable_spec h
  cases hrun : initTable k entries env m with
  | ok root m' => exact .inr ⟨root, m', rfl, cachedRam_iff (hsat.of_ok hrun)⟩
  | err e m' => exact (hsat.of_err hrun).elim
  | panic msg => exact .inl ⟨msg, rfl⟩
  | blocked => exact absurd hrun (awake_initTable k entries env m)

/-! ## With enough pages -/

/-- How many pages are mapped for these ranges. -/
def turns (rs : List PhysRange) : Nat := (rs.map fun r => (pagesTo r.start r.stop).length).sum

theorem length_pagesTo (start stop : Nat) : (pagesTo start stop).length =
    if start ≤ stop then (stop - start) / pageSize + 1 else 0 := by
  unfold pagesTo
  split
  · exact List.length_range' ..
  · rfl

theorem mapPages_supplied {E : String → Mem → Prop} {X : String → Prop}
    (hdeny : ∀ i, env.deny i = false) {ps : List Nat} (hlow : ∀ p ∈ ps, p < 2 ^ 47)
    (h : Own A m 3 Any root l) (hl : 3 * ps.length ≤ l.length) :
    Sat (each (fun pa => do mapTo root (BitVec.ofNat 64 pa) (← physToPtr pa) flags) ps env m)
      (fun _ m' => ∃ l', Own A m' 3 Any root l' ∧ l.length ≤ l'.length + 3 * ps.length) E X := by
  induction ps generalizing m l with
  | nil => exact Sat.pure ⟨l, h, Nat.le_refl _⟩
  | cons p ps ih =>
      rw [List.length_cons] at hl ⊢
      have hfirst : physToPtr p env m = .ok (p + kernBaseAddr) m :=
        physToPtr_eq (hlow p List.mem_cons_self)
      have hpage : Sat ((do mapTo root (BitVec.ofNat 64 p) (← physToPtr p) flags : VmM Unit) env m)
          (fun _ m₁ => ∃ l₁, Own A m₁ 3 Any root l₁ ∧ l.length ≤ l₁.length + 3) E X := by
        rw [bind_ok hfirst]
        exact (mapTo_supplied hdeny h True.intro (by omega)).imp (fun _ _ hq => hq)
          (fun _ _ hf => hf.elim) (fun _ hx => hx)
      refine Sat.seq hpage ?_
      rintro - m₁ ⟨l₁, hown, hcount⟩
      refine (ih (fun q hq => hlow q (List.mem_cons_of_mem p hq)) hown (by omega)).imp ?_
        (fun _ _ he => he) (fun _ hx => hx)
      rintro - m₂ ⟨l₂, hown₂, hcount₂⟩
      exact ⟨l₂, hown₂, by omega⟩

theorem mapRanges_supplied {msg : String} {X : String → Prop} (hdeny : ∀ i, env.deny i = false)
    {rs : List PhysRange} (hlow : ∀ r ∈ rs, r.stop < 2 ^ 47) (h : Own A m 3 Any root l)
    (hl : 3 * turns rs ≤ l.length) :
    Sat (each (fun r => (mapPhysRange root r.start r.stop r.flags).expect msg) rs env m)
      (fun _ m' => ∃ l', Own A m' 3 Any root l' ∧ l.length ≤ l'.length + 3 * turns rs)
      (fun _ _ => False) X := by
  induction rs generalizing m l with
  | nil => exact Sat.pure ⟨l, h, Nat.le_refl _⟩
  | cons r rs ih =>
      have hturns : turns (r :: rs) = (pagesTo r.start r.stop).length + turns rs := rfl
      rw [hturns] at hl ⊢
      have hpages : ∀ p ∈ pagesTo r.start r.stop, p < 2 ^ 47 := by
        intro p hp
        obtain ⟨hle, i, hi, rfl⟩ := mem_pagesTo.mp hp
        have hstop := hlow r List.mem_cons_self
        have hmul := Nat.mul_div_le (r.stop - r.start) pageSize
        have := Nat.mul_le_mul_left pageSize hi
        omega
      refine Sat.seq ((mapPages_supplied (E := fun _ _ => False) hdeny hpages h (by omega)).expect
        fun _ _ hf => hf.elim) ?_
      rintro - m₁ ⟨l₁, hown, hcount⟩
      refine (ih (fun r' hr' => hlow r' (List.mem_cons_of_mem r hr')) hown (by omega)).imp ?_
        (fun _ _ he => he) (fun _ hx => hx)
      rintro - m₂ ⟨l₂, hown₂, hcount₂⟩
      exact ⟨l₂, hown₂, by omega⟩

/-- `init` returns if no allocation is refused, all that it maps is within reach, and
there are pages for all tables. -/
theorem initTable_supplied (hdeny : ∀ i, env.deny i = false) (h : Pool A m l)
    (hlow : ∀ r ∈ initRanges k entries, r.stop < 2 ^ 47)
    (hl : 3 * turns (initRanges k entries) < l.length) :
    ∃ root m', initTable k entries env m = .ok root m' := by
  have hturns : turns (initRanges k entries) =
      turns (entries.filterMap (entryRange k)) + turns (customMap k) := by
    rw [initRanges, turns, List.map_append, List.sum_append]
    rfl
  have hsat : Sat (initTable k entries env m) (fun _ _ => True) (fun _ _ => False)
      (fun _ => False) := by
    unfold initTable
    refine Sat.seq (h.alloc.also (h.alloc_supplied hdeny (by omega))) fun r m₁ hr => ?_
    obtain ⟨hr, hsome⟩ := hr
    cases r with
    | none => cases hsome
    | some root =>
        obtain ⟨l', rfl, hpool, -⟩ := hr
        rw [List.length_cons] at hl
        refine Sat.modify ?_
        rw [mapEntries_eq]
        refine Sat.seq (mapRanges_supplied hdeny (fun r hr => hlow r (List.mem_append_left _ hr))
          (h.first hpool) (by omega)) ?_
        rintro - m₂ ⟨l₂, hown₂, hcount₂⟩
        exact Sat.seq (mapRanges_supplied hdeny (fun r hr => hlow r (List.mem_append_right _ hr))
          hown₂ (by omega)) fun _ _ _ => Sat.pure True.intro
  obtain ⟨root, m', hok, -⟩ := hsat.returns (awake_initTable k entries env m)
  exact ⟨root, m', hok⟩

/-- Three pages in the free list beside an empty table. -/
abbrev bare : Mem := ((Mem.put ⟨fun _ => Page.zero, none, 0⟩ 3).put 2).put 1

theorem bare_tables : Own Set.univ bare 3 Any 0 [1, 2, 3] := by
  have hempty : ∀ k, bare.heap 0 k = none := heap_zero rfl
  have hfoot := foot_single (n := 3) (K := Any) (.inr fun k _ => hempty k)
  have hpool : Pool Set.univ ⟨fun _ => Page.zero, none, 0⟩ [] :=
    ⟨rfl, List.nodup_nil, fun _ hg => (by cases hg)⟩
  refine ⟨((hpool.put trivial (by decide)).put trivial (by decide)).put trivial (by decide),
    tree_single (.inr fun k _ => hempty k), fun _ _ => trivial, fun g hg => ?_⟩
  rw [hfoot] at hg
  rw [hg]
  decide

theorem bare_run : ∃ m', mapPhysRange 0 0x1000 0x2000 .write .willing bare = .ok () m' := by
  have hrun : (mapPhysRange 0 0x1000 0x2000 .write .willing bare).result?.isSome = true := by
    decide +kernel
  obtain ⟨⟨⟩, m', hok⟩ := Outcome.ok_of_isSome hrun
  exact ⟨m', hok⟩

/-- A range of one page maps two. -/
theorem mapPhysRange_page_behind : Own Set.univ bare 3 Any 0 [1, 2, 3] ∧
    ∃ m', mapPhysRange 0 0x1000 0x2000 .write .willing bare = .ok () m' ∧
      ¬HalfOpen bare m' 0 0x1000 0x2000 .write := by
  obtain ⟨m', hok⟩ := bare_run
  refine ⟨bare_tables, m', hok, fun hall => ?_⟩
  have hold := (mapPhysRange_iff bare_tables rfl rfl (by decide) hok).mp hall
  rw [entryFor_eq_view, view_empty (heap_zero rfl)] at hold
  cases hold

/-- Pages from the second frame on. -/
def pagesFrom (n : Nat) : List Frame := (List.range' 1 n).map (BitVec.ofNat 35)

theorem nodup_pagesFrom {n : Nat} (hn : n < 2 ^ 35) : (pagesFrom n).Nodup := by
  refine List.Nodup.map_on (fun i hi j hj hij => ?_) (List.nodup_range' _ (by decide))
  rw [List.mem_range'_1] at hi hj
  have hval := congrArg BitVec.toNat hij
  rw [BitVec.toNat_ofNat, BitVec.toNat_ofNat, Nat.mod_eq_of_lt (by omega),
    Nat.mod_eq_of_lt (by omega)] at hval
  exact hval

theorem pool_pagesFrom {n : Nat} (hn : n < 2 ^ 35) :
    ∃ l, Pool Set.univ (Sys.boot (pagesFrom n)).mem l ∧ l.length = n := by
  have hnodup : ((pagesFrom n).reverse ++ []).Nodup := by
    rw [List.append_nil, List.nodup_reverse]
    exact nodup_pagesFrom hn
  refine ⟨_, ⟨chain_freePages (l := []) rfl hnodup, hnodup, fun _ _ => trivial⟩, ?_⟩
  rw [List.append_nil, List.length_reverse, pagesFrom, List.length_map, List.length_range']

/-- Where the kernel of a small machine ends. -/
abbrev smallKernel : KernelEnds := ⟨0x200000, 0x300000, 0x400000⟩

/-- Two megabytes of memory behind 4 GiB. -/
abbrev highRam : List MemMapEntry := [⟨0x100000000, 0x100200000, .memory⟩]

theorem initTable_highRam : ∃ root m', initTable smallKernel highRam .willing
    (Sys.boot (pagesFrom 0x20000)).mem = .ok root m' := by
  obtain ⟨l, hpool, hlen⟩ := pool_pagesFrom (n := 0x20000) (by decide)
  refine initTable_supplied (fun _ => rfl) hpool (by decide) ?_
  have hturns : turns (initRanges smallKernel highRam) = 25099 := by
    simp only [turns, length_pagesTo]
    decide
  rw [hlen, hturns]
  decide

/-- A range of one page, and a machine with memory behind 4 GiB, whose first page is uncached. -/
theorem mapPhysRange_half_open_high :
    (∃ m', mapPhysRange 0 0x1000 0x2000 .write .willing bare = .ok () m' ∧
      (HalfOpen bare m' 0 0x1000 0x2000 .write ↔
        bare.entryFor 0 (0x2000 + kernBaseAddr) = some (pageEntry (0x2000 / pageSize) .write))) ∧
    ∃ root m', initTable smallKernel highRam .willing (Sys.boot (pagesFrom 0x20000)).mem =
      .ok root m' ∧ ¬CachedRam m' root highRam := by
  obtain ⟨m', hok⟩ := bare_run
  obtain ⟨root, m₁, hinit⟩ := initTable_highRam
  obtain ⟨l, hpool, -⟩ := pool_pagesFrom (n := 0x20000) (by decide)
  have hrange := (mapPhysRange_half_open_iff Set.univ [1, 2, 3] bare .willing).1
  refine ⟨⟨m', hok, hrange _ _ _ _ _ bare_tables rfl rfl (by decide) hok⟩, root, m₁, hinit,
    fun hcached => ?_⟩
  have hwhole := (mapPhysRange_half_open_iff Set.univ l (Sys.boot (pagesFrom 0x20000)).mem
    .willing).2 smallKernel highRam hpool
  rw [hinit] at hwhole
  rcases hwhole with ⟨msg, hpanic⟩ | ⟨root', m₂, heq, hiff⟩
  · cases hpanic
  · cases heq
    have hram : PlainRam highRam (0x100000000 / pageSize) :=
      ⟨by decide, ⟨_, List.mem_cons_self, rfl, by decide, by decide⟩, by decide, by decide⟩
    have hflags := hiff.mp hcached _ hram devFlags lastFlags_four_gib
    revert hflags
    decide

end Rxv64.Vm
