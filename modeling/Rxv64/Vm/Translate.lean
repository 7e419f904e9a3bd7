import Rxv64.Vm.Launch
import Rxv64.Vm.Sweep
import Rxv64.Vm.Tables

/-!
# Vm.Translate — one page of the whole address space

`map_to` on a table of all 512 slots, whatever its last level points to. An
address has 48 bits of which 36 select an entry, so canonical addresses on
different pages have different indices at some level.
-/

namespace Rxv64.Vm

open Radix

variable {m m' : Mem} {root : Frame} {A : Set Frame} {l : List Frame} {pa : BitVec 64}
  {va v n : Nat} {flags : PageFlags} {env : Env}

/-- `PageTable::translate`. It walks the tables as `entry_for` does. -/
def Mem.translate (m : Mem) (root : Frame) (va : Nat) : Option (BitVec 64) :=
  (m.entryFor root va).map fun e => e.physPageAddr + BitVec.ofNat 64 (va % pageSize)

/-- Bit 47 is repeated up to bit 63. -/
def Canonical (va : Nat) : Prop :=
  va < 0x800000000000 ∨ (0xFFFF800000000000 ≤ va ∧ va < 0x10000000000000000)

instance (va : Nat) : Decidable (Canonical va) := inferInstanceAs (Decidable (_ ∨ _ ∧ _))

/-! ## Entries -/

namespace Entry

/-- The mask keeps the address of a page. -/
theorem and_mask (hpage : pa.toNat % pageSize = 0) (hlow : pa.toNat < 0x800000000000) :
    pa &&& physPageMask = pa := by
  refine BitVec.eq_of_getLsbD_eq fun i hi => ?_
  rw [BitVec.getLsbD_and, getLsbD_mask]
  cases hbit : pa.getLsbD i with
  | false => rfl
  | true =>
      have hge : ¬i < 12 := by
        intro h12
        have hmod : (pa.toNat % 2 ^ 12).testBit i = true := by
          rw [Nat.testBit_mod_two_pow, decide_eq_true h12, Bool.true_and]
          exact hbit
        rw [show 2 ^ 12 = pageSize from rfl, hpage, Nat.zero_testBit] at hmod
        cases hmod
      have hlt : i < 47 := by
        by_contra h47
        have hpow : 2 ^ 47 ≤ 2 ^ i := Nat.pow_le_pow_right (by decide) (by omega)
        have hsmall : pa.toNat.testBit i = false := Nat.testBit_lt_two_pow (by omega)
        rw [BitVec.getLsbD, hsmall] at hbit
        cases hbit
      simp [hlt]
      omega

/-- Flags are outside the mask. -/
theorem mask_and_flags (flags : PageFlags) : flags.bits &&& physPageMask = 0#64 := by
  have hzero : flagBits &&& physPageMask = 0#64 := by decide
  rw [← flags.known, BitVec.and_assoc, hzero, BitVec.and_zero]

/-- The address of an entry for a page. -/
theorem physPageAddr_new (hpage : pa.toNat % pageSize = 0) (hlow : pa.toNat < 0x800000000000) :
    (new pa flags).enable.physPageAddr = pa := by
  rw [physPageAddr, enable, new, BitVec.and_or_distrib_right, BitVec.and_or_distrib_right,
    mask_and_flags, mask_and_flags, BitVec.or_zero, BitVec.or_zero, BitVec.and_assoc,
    BitVec.and_self, and_mask hpage hlow]

theorem flags_new : (new pa flags).enable.flags = flags.union .present := by
  have hzero : physPageMask &&& flagBits = 0#64 := by decide
  have hbits : (new pa flags).enable &&& flagBits = flags.bits ||| PageFlags.present.bits := by
    rw [enable, new, BitVec.and_or_distrib_right, BitVec.and_or_distrib_right, BitVec.and_assoc,
      hzero, BitVec.and_zero, BitVec.zero_or, flags.known, PageFlags.present.known]
  simp only [Entry.flags, PageFlags.union, hbits]

end Entry

/-! ## Pages and indices -/

theorem index_eq (lvl va : Nat) : (index lvl va).val = va / pageSize / 512 ^ lvl % 512 := by
  simp only [index, span, Nat.div_div_eq_div_mul]

/-- The indices of an address are those of its page. -/
theorem digits_congr (h : v / pageSize = va / pageSize) (n : Nat) : digits n v = digits n va := by
  induction n with
  | zero => rfl
  | succ n ih =>
      have hidx : index n v = index n va := Fin.ext (by rw [index_eq, index_eq, h])
      rw [digits, digits, hidx, ih]

/-- `n` levels tell `512 ^ n` pages apart. -/
theorem page_of_digits (h : digits n v = digits n va) :
    v / pageSize % 512 ^ n = va / pageSize % 512 ^ n := by
  induction n with
  | zero => rw [Nat.pow_zero, Nat.mod_one, Nat.mod_one]
  | succ n ih =>
      rw [digits, digits, List.cons.injEq] at h
      have hidx : v / pageSize / 512 ^ n % 512 = va / pageSize / 512 ^ n % 512 := by
        rw [← index_eq, ← index_eq, h.1]
      rw [Nat.mod_pow_succ, Nat.mod_pow_succ, ih h.2, hidx]

theorem digits_ne (hva : Canonical va) (hv : Canonical v) (hne : v / pageSize ≠ va / pageSize) :
    digits 4 v ≠ digits 4 va := by
  intro h
  have hpage := page_of_digits h
  unfold Canonical at hva hv
  simp only [pageSize] at hne hpage
  omega

/-! ## The page of an address -/

theorem stair_tables : Own Set.univ stair 3 Any 0 [] :=
  ⟨⟨rfl, List.nodup_nil, fun g hg => (by cases hg)⟩, stair_tree, fun _ _ => True.intro,
    fun g _ hg => (by cases hg)⟩

/-- **`map_to` changes one page only**, whether an allocation is refused or not. -/
theorem mapTo_one_page (h : Own A m 3 Any root l) (hva : Canonical va)
    (hpage : pa.toNat % pageSize = 0) (hlow : pa.toNat < 0x800000000000) :
    ∃ m' l', Own A m' 3 Any root l' ∧
      (∀ v, Canonical v → v / pageSize ≠ va / pageSize →
        m'.entryFor root v = m.entryFor root v) ∧
      ((∃ e, mapTo root pa va flags env m = .err e m') ∨
        (mapTo root pa va flags env m = .ok () m' ∧
          (∃ e, m'.entryFor root va = some e ∧ e.physPageAddr = pa ∧
            e.flags = flags.union .present) ∧
          ∀ k < pageSize, m'.translate root (pageRoundDown va + k) =
            some (pa + BitVec.ofNat 64 k))) := by
  have hsat : Sat (mapTo root pa va flags env m) _ _ (fun _ => False) := mapTo_tables h True.intro
  have hother : ∀ {m' l' ok}, Remapped A m m' 3 Any root l l' (Entry.new pa flags).enable va ok →
      ∀ v, Canonical v → v / pageSize ≠ va / pageSize →
        m'.entryFor root v = m.entryFor root v := by
    intro m' l' ok hmap v hv hne
    rw [entryFor_eq_view, entryFor_eq_view, hmap.view v fun _ _ => True.intro,
      if_neg fun hn => digits_ne hva hv hne hn.2]
  rcases hsat.ends (awake_mapTo root pa va flags env m) with
    ⟨⟨⟩, m', heq, l', hmap⟩ | ⟨e, m', heq, l', hmap⟩
  · refine ⟨m', l', hmap.own, hother hmap, .inr ⟨heq, ⟨_, ?_, Entry.physPageAddr_new hpage hlow,
      Entry.flags_new⟩, fun k hk => ?_⟩⟩
    · rw [entryFor_eq_view, hmap.view va fun _ _ => True.intro, if_pos ⟨rfl, rfl⟩]
    · have hin : (pageRoundDown va + k) / pageSize = va / pageSize := by
        simp only [pageRoundDown, pageSize] at hk ⊢
        omega
      have hoff : (pageRoundDown va + k) % pageSize = k := by
        simp only [pageRoundDown, pageSize] at hk ⊢
        omega
      rw [Mem.translate, entryFor_eq_view, hmap.view _ fun _ _ => True.intro,
        if_pos ⟨rfl, digits_congr hin 4⟩, Option.map_some, Entry.physPageAddr_new hpage hlow, hoff]
  · exact ⟨m', l', hmap.own, hother hmap, .inl ⟨e, heq⟩⟩

/-- The second byte of a page goes to the second byte of the frame. -/
theorem mapTo_offset : Own Set.univ stair 3 Any 0 [] ∧ Canonical 1 ∧
    ∃ m', mapTo 0 0x5000 1 .write ⟨fun _ => false⟩ stair = .ok () m' ∧
      m'.translate 0 (1 + 0) ≠ some (0x5000 + BitVec.ofNat 64 0) := by
  have hrun : ((mapTo 0 0x5000 1 .write ⟨fun _ => false⟩ stair).result?.map fun r =>
      r.2.translate 0 (1 + 0)) = some (some 0x5001) := by decide +kernel
  obtain ⟨⟨⟩, m', hok, htr⟩ := Outcome.ok_of_map hrun
  refine ⟨stair_tables, by decide, m', hok, ?_⟩
  rw [htr]
  decide

theorem mapTo_one_page_stair : ∃ m' l', Own Set.univ m' 3 Any 0 l' ∧
    (∀ v, Canonical v → v / pageSize ≠ 0 / pageSize → m'.entryFor 0 v = stair.entryFor 0 v) ∧
    ((∃ e, mapTo 0 0x5000 0 .write ⟨fun _ => false⟩ stair = .err e m') ∨
      (mapTo 0 0x5000 0 .write ⟨fun _ => false⟩ stair = .ok () m' ∧
        (∃ e, m'.entryFor 0 0 = some e ∧ e.physPageAddr = 0x5000 ∧
          e.flags = PageFlags.write.union .present) ∧
        ∀ k < pageSize, m'.translate 0 (pageRoundDown 0 + k) =
          some (0x5000 + BitVec.ofNat 64 k))) :=
  mapTo_one_page stair_tables (by decide) (by decide) (by decide)

end Rxv64.Vm
