import Rxv64.Vm.Owned

/-!
# Vm.Boot — the memory that is freed at boot

`page_slice_mut`, `early_pages` and `init` of `kernel/src/kmem.rs`. Addresses are 64-bit values
in a build with overflow checks. `kalloc::early_init` frees what `early_pages` gives, the memory
behind the kernel; `init` frees the rest, once the memory map is known.
-/

namespace Rxv64.Vm

open Prog

/-- `kmem::EARLY_FREE_END`. -/
abbrev earlyFreeEnd : Nat := 128 * 1024 * 1024

/-- `param::KERNBASE` as an address. -/
abbrev kernBaseAddr : Nat := 0xFFFF800000000000

/-- `kmem::text_addr`: the kernel starts here, and `end_addr` lies behind it. -/
abbrev textAddr : Nat := 0xFFFF800000100000

/-- `kmem::MemType`. -/
inductive MemType where
  | nothing
  | memory
  | system
  | reserved
  deriving DecidableEq

/-- `kmem::MemMapEntry`; `stop` is its `end`. -/
structure MemMapEntry where
  start : Nat
  stop : Nat
  typ : MemType

/-- `phys_to_ptr_mut`. -/
def physToPtr (p : Nat) : VmM Nat :=
  if p + kernBaseAddr < 2 ^ 64 then pure (p + kernBaseAddr)
  else abort "attempt to add with overflow"

/-- The frame of a page at a kernel address. -/
def frameAt (addr : Nat) : Frame := BitVec.ofNat 35 (addr / pageSize)

/-- `page_slice_mut`: the frames of the pages in the slice. -/
def pageSliceMut (ustart uend : Nat) : VmM (List Frame) := do
  assert (ustart % pageSize = 0) "page_slice_mut: unaligned start page"
  assert (uend % pageSize = 0) "page_slice_mut: unaligned end page"
  assert (ustart < uend) "page_slice_mut: bad range"
  pure ((List.range ((uend - ustart) / pageSize)).map fun i => frameAt (ustart + i * pageSize))

/-- `early_pages`; `endAddr` is `end_addr()`. -/
def earlyPages (endAddr : Nat) : VmM (List Frame) := do
  pageSliceMut endAddr (← physToPtr earlyFreeEnd)

/-- `free_pages(phys_to_page_slice_mut(start..stop))`. -/
def freeRange (start stop : Nat) : VmM Unit := do
  let ustart ← physToPtr start
  let uend ← physToPtr stop
  let pages ← pageSliceMut ustart uend
  modify fun m => m.freePages pages

/-- The loop of `init`. -/
def freeEntries : List MemMapEntry → VmM Unit
  | [] => pure ()
  | e :: entries =>
      if e.typ ≠ .memory ∨ e.stop < earlyFreeEnd then freeEntries entries
      else do
        freeRange (max e.start earlyFreeEnd) e.stop
        freeEntries entries

/-- `init`; the last two are the conventional memory. -/
def init (entries : List MemMapEntry) : VmM Unit := do
  freeEntries entries
  freeRange 0x1000 0x7000
  freeRange 0x8000 0x80000

/-! ## One range -/

variable {start stop p ustart uend : Nat} {env : Env} {m m' : Mem} {f : Frame}
  {entries : List MemMapEntry} {e : MemMapEntry}

/-- The frames from `start` to `stop`. -/
def framesOf (start stop : Nat) : List Frame :=
  (List.range ((stop - start) / pageSize)).map fun i => frameAt (start + i * pageSize)

theorem frameAt_toNat (h : p < 2 ^ 47) : (frameAt p).toNat = p / 4096 := by
  show (BitVec.ofNat 35 (p / 4096)).toNat = p / 4096
  rw [BitVec.toNat_ofNat, Nat.mod_eq_of_lt (by omega)]

/-- The kernel maps the frame at its physical address plus `KERNBASE`. -/
theorem frameAt_kern (p : Nat) : frameAt (p + kernBaseAddr) = frameAt p := by
  have hbase : (p + 0xFFFF800000000000) / 4096 = p / 4096 + 131071 * 2 ^ 35 := by omega
  apply BitVec.eq_of_toNat_eq
  show (BitVec.ofNat 35 ((p + 0xFFFF800000000000) / 4096)).toNat = (BitVec.ofNat 35 (p / 4096)).toNat
  rw [BitVec.toNat_ofNat, BitVec.toNat_ofNat, hbase, Nat.add_mul_mod_self_right]

theorem mem_framesOf (hstart : start % pageSize = 0) (hstop : stop % pageSize = 0)
    (hlow : stop ≤ 2 ^ 47) :
    f ∈ framesOf start stop ↔ start ≤ f.toNat * pageSize ∧ f.toNat * pageSize < stop := by
  unfold framesOf pageSize at *
  rw [List.mem_map]
  constructor
  · intro ⟨i, hi, hf⟩
    rw [List.mem_range] at hi
    have hval := congrArg BitVec.toNat hf
    rw [frameAt_toNat (by omega)] at hval
    omega
  · intro ⟨hle, hlt⟩
    refine ⟨f.toNat - start / 4096, List.mem_range.mpr (by omega), ?_⟩
    apply BitVec.eq_of_toNat_eq
    rw [frameAt_toNat (by omega)]
    omega

theorem nodup_framesOf (hlow : stop ≤ 2 ^ 47) : (framesOf start stop).Nodup := by
  unfold framesOf pageSize
  refine List.Nodup.map_on (fun i hi j hj hij => ?_) List.nodup_range
  rw [List.mem_range] at hi hj
  have hval := congrArg BitVec.toNat hij
  rw [frameAt_toNat (by omega), frameAt_toNat (by omega)] at hval
  omega

theorem physToPtr_eq (h : p < 2 ^ 47) : physToPtr p env m = .ok (p + kernBaseAddr) m := by
  rw [physToPtr, if_pos (by unfold kernBaseAddr; omega)]
  rfl

theorem freeRange_eq (hstart : start % pageSize = 0) (hstop : stop % pageSize = 0)
    (hlt : start < stop) (hlow : stop < 2 ^ 47) :
    freeRange start stop env m = .ok () (m.freePages (framesOf start stop)) := by
  have hframes : ((List.range ((stop - start) / pageSize)).map fun i =>
      frameAt (start + kernBaseAddr + i * pageSize)) = framesOf start stop :=
    List.map_congr_left fun i _ => by rw [Nat.add_right_comm, frameAt_kern]
  have hpages : pageSliceMut (start + kernBaseAddr) (stop + kernBaseAddr) env m =
      .ok (framesOf start stop) m := by
    unfold pageSliceMut
    rw [bind_ok (assert_ok (by unfold pageSize kernBaseAddr at *; omega)),
      bind_ok (assert_ok (by unfold pageSize kernBaseAddr at *; omega)),
      bind_ok (assert_ok (by omega)), Nat.add_sub_add_right, hframes]
    rfl
  unfold freeRange
  rw [bind_ok (physToPtr_eq (by omega)), bind_ok (physToPtr_eq hlow), bind_ok hpages]
  rfl

/-- A range that is freed is not empty and lies where the kernel can reach it. -/
theorem freeRange_ok (h : freeRange start stop env m = .ok () m') :
    start < stop ∧ stop < 2 ^ 47 := by
  have hptr : ∀ {p : Nat} {m : Mem}, Sat (physToPtr p env m)
      (fun a _ => a = p + kernBaseAddr ∧ p < 2 ^ 47) (fun _ _ => False) (fun _ => True) := by
    intro p m
    refine Sat.ite (fun hp => Sat.pure ⟨rfl, ?_⟩) fun _ => Sat.abort True.intro
    unfold kernBaseAddr at hp
    omega
  have hsat : Sat (freeRange start stop env m) (fun _ _ => start < stop ∧ stop < 2 ^ 47)
      (fun _ _ => False) (fun _ => True) := by
    refine Sat.seq hptr fun ustart s₁ hstart => Sat.seq hptr fun uend s₂ hstop => ?_
    refine Sat.seq (Q := fun _ _ => ustart < uend) ?_ fun pages s₃ hlt => ?_
    · exact Sat.assert (fun _ => True.intro) fun _ => Sat.assert (fun _ => True.intro) fun _ =>
        Sat.assert (fun _ => True.intro) fun hlt => Sat.pure hlt
    · refine Sat.last_modify ⟨?_, hstop.2⟩
      rw [hstart.1, hstop.1] at hlt
      omega
  exact hsat.of_ok h

/-! ## The memory map -/

/-- A memory map as the firmware gives it: page-aligned pieces of memory that do not overlap. -/
structure MapOk (entries : List MemMapEntry) : Prop where
  aligned : ∀ e ∈ entries, e.typ = .memory →
    e.start % pageSize = 0 ∧ e.stop % pageSize = 0 ∧ e.start < e.stop
  disjoint : entries.Pairwise fun e e' =>
    e.typ = .memory → e'.typ = .memory → e.stop ≤ e'.start ∨ e'.stop ≤ e.start

/-- Memory that `init` gets past: it does not end where early memory ends, and the kernel
can reach it. -/
def Freeable (e : MemMapEntry) : Prop :=
  e.typ = .memory → e.stop ≠ earlyFreeEnd ∧ e.stop < 2 ^ 47

/-- What `init` frees of an entry. -/
def taken (e : MemMapEntry) : List Frame :=
  if e.typ ≠ .memory ∨ e.stop < earlyFreeEnd then []
  else framesOf (max e.start earlyFreeEnd) e.stop

/-- Everything `init` frees. -/
def freed (entries : List MemMapEntry) : List Frame :=
  entries.flatMap taken ++ framesOf 0x1000 0x7000 ++ framesOf 0x8000 0x80000

theorem freePages_append (m : Mem) (l l' : List Frame) :
    m.freePages (l ++ l') = (m.freePages l).freePages l' := List.foldl_append

theorem freeEntries_eq (hmap : MapOk entries) (hfree : ∀ e ∈ entries, Freeable e) :
    freeEntries entries env m = .ok () (m.freePages (entries.flatMap taken)) := by
  induction entries generalizing m with
  | nil => rfl
  | cons e entries ih =>
      have hrest : MapOk entries :=
        ⟨fun e' he => hmap.aligned e' (List.mem_cons_of_mem e he),
          (List.pairwise_cons.mp hmap.disjoint).2⟩
      have ih' : ∀ {m : Mem}, _ := fun {m} =>
        ih (m := m) hrest fun e' he => hfree e' (List.mem_cons_of_mem e he)
      rw [freeEntries, List.flatMap_cons, freePages_append]
      by_cases hskip : e.typ ≠ .memory ∨ e.stop < earlyFreeEnd
      · rw [if_pos hskip, ih', taken, if_pos hskip]
        rfl
      · have hmem : e.typ = .memory := by
          by_contra hno
          exact hskip (.inl hno)
        have hge : ¬e.stop < earlyFreeEnd := fun hlt => hskip (.inr hlt)
        obtain ⟨hstart, hstop, hlt⟩ := hmap.aligned e List.mem_cons_self hmem
        obtain ⟨hne, hlow⟩ := hfree e List.mem_cons_self hmem
        have hmax : max e.start earlyFreeEnd % pageSize = 0 := by
          rcases Nat.le_total e.start earlyFreeEnd with hle | hle
          · rw [Nat.max_eq_right hle]
            rfl
          · rw [Nat.max_eq_left hle, hstart]
        have hrun : freeRange (max e.start earlyFreeEnd) e.stop env m = .ok () _ :=
          freeRange_eq hmax hstop (by omega) hlow
        rw [if_neg hskip, bind_ok hrun, ih', taken, if_neg hskip]

/-- When the loop gets to its end, it got past every entry. -/
theorem freeEntries_ok (h : freeEntries entries env m = .ok () m') :
    ∀ e ∈ entries, Freeable e := by
  induction entries generalizing m with
  | nil => simp
  | cons e entries ih =>
      rw [freeEntries] at h
      rw [List.forall_mem_cons]
      by_cases hskip : e.typ ≠ .memory ∨ e.stop < earlyFreeEnd
      · rw [if_pos hskip] at h
        refine ⟨fun hmem => ?_, ih h⟩
        have hlt := hskip.resolve_left fun hno => hno hmem
        unfold earlyFreeEnd at hlt ⊢
        omega
      · rw [if_neg hskip] at h
        obtain ⟨_, m₁, hrun, hrest⟩ := of_bind_ok h
        obtain ⟨hlt, hlow⟩ := freeRange_ok hrun
        exact ⟨fun _ => ⟨by omega, hlow⟩, ih hrest⟩

/-! ## Once and for all -/

/-- The part of an entry that `init` frees is what lies behind early memory. -/
theorem mem_taken (hmap : MapOk entries) (he : e ∈ entries) (hfree : Freeable e) :
    f ∈ taken e ↔ e.typ = .memory ∧ earlyFreeEnd ≤ f.toNat * pageSize ∧
      e.start ≤ f.toNat * pageSize ∧ f.toNat * pageSize < e.stop := by
  unfold taken
  by_cases hskip : e.typ ≠ .memory ∨ e.stop < earlyFreeEnd
  · rw [if_pos hskip]
    refine iff_of_false List.not_mem_nil fun ⟨hmem, hge, _, hlt⟩ => ?_
    have := hskip.resolve_left fun hno => hno hmem
    omega
  · have hmem : e.typ = .memory := by
      by_contra hno
      exact hskip (.inl hno)
    obtain ⟨hstart, hstop, -⟩ := hmap.aligned e he hmem
    have hmax : max e.start earlyFreeEnd % pageSize = 0 := by
      rcases Nat.le_total e.start earlyFreeEnd with hle | hle
      · rw [Nat.max_eq_right hle]
        rfl
      · rw [Nat.max_eq_left hle, hstart]
    rw [if_neg hskip, mem_framesOf hmax hstop (Nat.le_of_lt (hfree hmem).2), Nat.max_le]
    exact ⟨fun ⟨⟨hs, hge⟩, hlt⟩ => ⟨hmem, hge, hs, hlt⟩, fun ⟨_, hge, hs, hlt⟩ => ⟨⟨hs, hge⟩, hlt⟩⟩

theorem nodup_taken (hfree : Freeable e) : (taken e).Nodup := by
  unfold taken
  by_cases hskip : e.typ ≠ .memory ∨ e.stop < earlyFreeEnd
  · rw [if_pos hskip]
    exact List.nodup_nil
  · rw [if_neg hskip]
    refine nodup_framesOf (Nat.le_of_lt (hfree ?_).2)
    by_contra hno
    exact hskip (.inl hno)

/-- Entries that do not overlap have no frame in common. -/
theorem nodup_flatMap_taken (hmap : MapOk entries) (hfree : ∀ e ∈ entries, Freeable e) :
    (entries.flatMap taken).Nodup := by
  refine List.nodup_flatMap.mpr ⟨fun e he => nodup_taken (hfree e he), ?_⟩
  refine List.Pairwise.imp_of_mem (fun {e e'} he he' hdis => ?_) hmap.disjoint
  intro f hf hf'
  obtain ⟨hmem, -, hs, hlt⟩ := (mem_taken hmap he (hfree e he)).mp hf
  obtain ⟨hmem', -, hs', hlt'⟩ := (mem_taken hmap he' (hfree e' he')).mp hf'
  have := hdis hmem hmem'
  omega

theorem mem_flatMap_taken (hmap : MapOk entries) (hfree : ∀ e ∈ entries, Freeable e) :
    f ∈ entries.flatMap taken ↔ earlyFreeEnd ≤ f.toNat * pageSize ∧
      ∃ e ∈ entries, e.typ = .memory ∧ e.start ≤ f.toNat * pageSize ∧
        f.toNat * pageSize < e.stop := by
  rw [List.mem_flatMap]
  constructor
  · intro ⟨e, he, hf⟩
    obtain ⟨hmem, hge, hs, hlt⟩ := (mem_taken hmap he (hfree e he)).mp hf
    exact ⟨hge, e, he, hmem, hs, hlt⟩
  · intro ⟨hge, e, he, hmem, hs, hlt⟩
    exact ⟨e, he, (mem_taken hmap he (hfree e he)).mpr ⟨hmem, hge, hs, hlt⟩⟩

/-- The conventional memory. -/
theorem mem_low :
    f ∈ framesOf 0x1000 0x7000 ++ framesOf 0x8000 0x80000 ↔
      (0x1000 ≤ f.toNat * pageSize ∧ f.toNat * pageSize < 0x7000) ∨
        (0x8000 ≤ f.toNat * pageSize ∧ f.toNat * pageSize < 0x80000) := by
  rw [List.mem_append, mem_framesOf rfl rfl (by decide), mem_framesOf rfl rfl (by decide)]

theorem nodup_freed (hmap : MapOk entries) (hfree : ∀ e ∈ entries, Freeable e) :
    (freed entries).Nodup := by
  rw [freed, List.append_assoc]
  refine List.nodup_append.mpr ⟨nodup_flatMap_taken hmap hfree, ?_, fun f hf g hg hfg => ?_⟩
  · refine List.nodup_append.mpr ⟨nodup_framesOf (by decide), nodup_framesOf (by decide), ?_⟩
    intro f hf g hg hfg
    rw [mem_framesOf rfl rfl (by decide)] at hf hg
    rw [hfg] at hf
    omega
  · have hge := ((mem_flatMap_taken hmap hfree).mp hf).1
    rw [hfg] at hge
    have hlow := mem_low.mp hg
    unfold earlyFreeEnd at hge
    omega

theorem mem_freed (hmap : MapOk entries) (hfree : ∀ e ∈ entries, Freeable e)
    (hge : earlyFreeEnd ≤ f.toNat * pageSize) :
    f ∈ freed entries ↔ ∃ e ∈ entries, e.typ = .memory ∧ e.start ≤ f.toNat * pageSize ∧
      f.toNat * pageSize < e.stop := by
  rw [freed, List.append_assoc, List.mem_append, mem_flatMap_taken hmap hfree]
  refine ⟨fun h => h.elim And.right fun hlow => ?_, fun h => .inl ⟨hge, h⟩⟩
  have hlow := mem_low.mp hlow
  unfold earlyFreeEnd at hge
  omega

/-- What `kalloc::early_init` frees lies between the kernel and the end of early memory. -/
theorem earlyPages_between {endAddr : Nat} {pages : List Frame} (htext : textAddr ≤ endAddr)
    (h : earlyPages endAddr env m = .ok pages m') :
    ∀ f ∈ pages, 0x100000 ≤ f.toNat * pageSize ∧ f.toNat * pageSize < earlyFreeEnd := by
  have hptr : physToPtr earlyFreeEnd env m = .ok (earlyFreeEnd + kernBaseAddr) m :=
    physToPtr_eq (by decide)
  unfold earlyPages at h
  rw [bind_ok hptr] at h
  have hsat : Sat (pageSliceMut endAddr (earlyFreeEnd + kernBaseAddr) env m)
      (fun pages _ => ∀ f ∈ pages, 0x100000 ≤ f.toNat * pageSize ∧
        f.toNat * pageSize < earlyFreeEnd) (fun _ _ => False) (fun _ => True) := by
    refine Sat.assert (fun _ => True.intro) fun halign => Sat.assert (fun _ => True.intro) fun _ =>
      Sat.assert (fun _ => True.intro) fun hlt => Sat.pure fun f hf => ?_
    obtain ⟨i, hi, hf⟩ := List.mem_map.mp hf
    rw [List.mem_range] at hi
    unfold pageSize earlyFreeEnd kernBaseAddr textAddr at *
    obtain ⟨p, hp⟩ : ∃ p, endAddr + i * 4096 = p + 0xFFFF800000000000 :=
      ⟨endAddr + i * 4096 - 0xFFFF800000000000, by omega⟩
    have hframe : f = frameAt p := by
      rw [← hf, hp]
      exact frameAt_kern p
    rw [hframe, frameAt_toNat (by omega)]
    omega
  exact hsat.of_ok h

/-- Putting new frames puts them in front of the free list. -/
theorem chain_freePages {l pages : List Frame} (hl : Chain m.pages m.freeList l)
    (hnodup : (pages.reverse ++ l).Nodup) :
    Chain (m.freePages pages).pages (m.freePages pages).freeList (pages.reverse ++ l) := by
  induction pages generalizing m l with
  | nil => exact hl
  | cons page pages ih =>
      rw [List.reverse_cons, List.append_assoc] at hnodup ⊢
      have hmid := (List.nodup_append.mp hnodup).2.1
      have hpool : Pool Set.univ m l := ⟨hl, (List.nodup_cons.mp hmid).2, fun _ _ => trivial⟩
      exact ih (hpool.put trivial (List.nodup_cons.mp hmid).1).chain hnodup

/-- `init` ends, frees every frame of the memory behind early memory once and none besides
the conventional memory, and no frame that was freed early. -/
structure FreesOnce (entries : List MemMapEntry) (frames : List Frame) : Prop where
  ends : ∀ env m, init entries env m = .ok () (m.freePages frames)
  once : frames.Nodup
  memory : ∀ f, earlyFreeEnd ≤ f.toNat * pageSize → (f ∈ frames ↔
    ∃ e ∈ entries, e.typ = .memory ∧ e.start ≤ f.toNat * pageSize ∧ f.toNat * pageSize < e.stop)
  early : ∀ endAddr, textAddr ≤ endAddr → ∀ env m pages m',
    earlyPages endAddr env m = .ok pages m' → ∀ f ∈ pages, f ∉ frames
  listed : ∀ (m : Mem) (l : List Frame), Chain m.pages m.freeList l → l.Nodup → (∀ f ∈ l, f ∉ frames) →
    Chain (m.freePages frames).pages (m.freePages frames).freeList (frames.reverse ++ l)

/-- **All usable memory is freed exactly once**, unless a piece of memory ends where early
memory ends or beyond what the kernel can reach: then `init` panics. -/
theorem init_frees_once_iff (hmap : MapOk entries) :
    (∃ frames, FreesOnce entries frames) ↔
      ∀ e ∈ entries, e.typ = .memory → e.stop ≠ earlyFreeEnd ∧ e.stop < 2 ^ 47 := by
  constructor
  · intro ⟨frames, h⟩
    have hrun := h.ends ⟨fun _ => false⟩ ⟨fun _ => Page.zero, none, 0⟩
    obtain ⟨_, m₁, hloop, -⟩ := of_bind_ok hrun
    exact freeEntries_ok hloop
  · intro hfree
    refine ⟨freed entries, fun env m => ?_, nodup_freed hmap hfree, fun f => mem_freed hmap hfree,
      fun endAddr htext env m pages m' hpages f hf hfreed => ?_, fun m l hl hnodup hdis => ?_⟩
    · have hloop : freeEntries entries env m = .ok () _ := freeEntries_eq hmap hfree
      unfold init
      rw [bind_ok hloop, bind_ok (freeRange_eq rfl rfl (by decide) (by decide)),
        freeRange_eq rfl rfl (by decide) (by decide), freed, freePages_append, freePages_append]
    · obtain ⟨hge, hlt⟩ := earlyPages_between htext hpages f hf
      rw [freed, List.append_assoc, List.mem_append, mem_flatMap_taken hmap hfree, mem_low] at hfreed
      omega
    · refine chain_freePages hl (List.nodup_append.mpr
        ⟨List.nodup_reverse.mpr (nodup_freed hmap hfree), hnodup, fun f hf g hg hfg => ?_⟩)
      rw [hfg] at hf
      exact hdis g hg (List.mem_reverse.mp hf)

theorem mapOk_single {e : MemMapEntry} (h : e.start % pageSize = 0 ∧ e.stop % pageSize = 0 ∧
    e.start < e.stop) : MapOk [e] :=
  ⟨fun _ he _ => List.mem_singleton.mp he ▸ h, List.pairwise_singleton _ _⟩

/-- Memory that ends at 128 MiB is not skipped, and nothing of it is left to free. -/
theorem init_bad_range : MapOk [⟨0x100000, earlyFreeEnd, .memory⟩] ∧
    (∀ a, 0x100000 ≤ a → a < earlyFreeEnd → ∃ e ∈ [(⟨0x100000, earlyFreeEnd, .memory⟩ : MemMapEntry)],
      e.typ = .memory ∧ e.start ≤ a ∧ a < e.stop) ∧
    ∀ env m, init [⟨0x100000, earlyFreeEnd, .memory⟩] env m =
      .panic "page_slice_mut: bad range" :=
  ⟨mapOk_single (by decide), fun _ hge hlt => ⟨_, List.mem_singleton_self _, rfl, hge, hlt⟩,
    fun _ _ => rfl⟩

/-- 256 MiB. -/
theorem init_frees_once_large : ∃ frames, FreesOnce [⟨0x100000, 0x10000000, .memory⟩] frames := by
  refine (init_frees_once_iff (mapOk_single (by decide))).mpr fun e he _ => ?_
  rw [List.mem_singleton.mp he]
  decide

end Rxv64.Vm
