import Rxv64.Vm.Map

/-!
# Vm.Free — tearing down a range of user pages

The four `free_user_pages` are one loop over the entries of a table, with the
one of the next level inside. Each turn clears what lies between two addresses
behind one entry; the loop clears the range. No assertion in it fails, and the
frames that leave the tree go to the free list.
-/

namespace Rxv64.Vm

open Radix

variable {A B : Set Frame} {m m' m'' : Mem} {n : Nat} {K : Fin 512 → Prop} {t : Frame}
  {l l' l'' : List Frame} {k : Fin 512} {x : Entry} {va v b : Nat} {env : Env}
  {E : String → Mem → Prop} {X : String → Prop}

/-! ## Addresses and indices -/

theorem span_pos (n : Nat) : 0 < span n := Nat.mul_pos (by decide) (Nat.pow_pos (by decide))

theorem span_succ (n : Nat) : span (n + 1) = span n * 512 := by
  rw [span, span, Nat.pow_succ, Nat.mul_assoc]

theorem div_span_succ (n va : Nat) : va / span (n + 1) = va / span n / 512 := by
  rw [span_succ, Nat.div_div_eq_div_mul]

/-- Within the block of one table the index tells the entry. -/
theorem index_eq_iff (h : va / span (n + 1) = v / span (n + 1)) :
    index n va = index n v ↔ va / span n = v / span n := by
  rw [div_span_succ, div_span_succ] at h
  rw [index, index, Fin.mk.injEq]
  constructor
  · intro hmod
    rw [← Nat.div_add_mod (va / span n) 512, ← Nat.div_add_mod (v / span n) 512, h, hmod]
  · intro heq
    rw [heq]

theorem span_mod (n : Nat) : span n % pageSize = 0 := Nat.mul_mod_right ..

theorem mod_pageSize (h : v % span n = 0) : v % pageSize = 0 := by
  have hdvd : pageSize ∣ span n := ⟨512 ^ n, rfl⟩
  exact Nat.mod_eq_zero_of_dvd (Nat.dvd_trans hdvd (Nat.dvd_of_mod_eq_zero h))

/-- The blocks of `s` bytes that a range touches. -/
theorem mem_stepBy {start stop s : Nat} (hs : 0 < s) :
    v ∈ stepBy (start / s * s) stop s ↔ v % s = 0 ∧ start / s ≤ v / s ∧ v < stop := by
  rw [stepBy, List.mem_range']
  constructor
  · rintro ⟨i, hi, rfl⟩
    have hmul := (Nat.le_div_iff_mul_le hs).mp hi
    rw [Nat.succ_mul] at hmul
    refine ⟨?_, ?_, ?_⟩
    · rw [Nat.mul_comm s i, ← Nat.add_mul, Nat.mul_mod_left]
    · rw [Nat.mul_comm s i, ← Nat.add_mul, Nat.mul_div_cancel _ hs]
      exact Nat.le_add_right ..
    · rw [Nat.mul_comm s i]
      omega
  · rintro ⟨hmod, hle, hlt⟩
    obtain ⟨q, rfl⟩ := Nat.dvd_of_mod_eq_zero hmod
    rw [Nat.mul_div_cancel_left q hs] at hle
    refine ⟨q - start / s, (Nat.le_div_iff_mul_le hs).mpr ?_, ?_⟩
    · rw [Nat.succ_mul, Nat.sub_mul, Nat.mul_comm q s]
      have : start / s * s ≤ s * q := by
        rw [Nat.mul_comm s q]
        exact Nat.mul_le_mul_right s hle
      omega
    · rw [Nat.mul_sub, Nat.mul_comm s (start / s)]
      have : start / s * s ≤ s * q := by
        rw [Nat.mul_comm s q]
        exact Nat.mul_le_mul_right s hle
      omega

/-! ## One loop -/

/-- The addresses of `P` in block `b` are unmapped, the others as before. -/
structure Freed (A : Set Frame) (m m' : Mem) (n : Nat) (K : Fin 512 → Prop) (t : Frame)
    (l' : List Frame) (b : Nat) (P : Nat → Prop) : Prop where
  own : Own A m' n K t l'
  same : Same A m m'
  gone : ∀ va, va / span n = b → (∀ k ∈ (digits n va).head?, K k) → P va → m'.view n t va = none
  kept : ∀ va, va / span n = b → (∀ k ∈ (digits n va).head?, K k) → ¬P va →
    m'.view n t va = m.view n t va

theorem Freed.refl (h : Own A m n K t l) {P : Nat → Prop} (hP : ∀ va, va / span n = b →
    (∀ k ∈ (digits n va).head?, K k) → P va → m.view n t va = none) : Freed A m m n K t l b P :=
  ⟨h, Same.refl, hP, fun _ _ _ _ => rfl⟩

theorem Freed.trans {P Q : Nat → Prop} (h : Freed A m m' n K t l' b P)
    (h' : Freed A m' m'' n K t l'' b Q) : Freed A m m'' n K t l'' b fun va => P va ∨ Q va := by
  refine ⟨h'.own, h.same.trans h'.same, fun va hb hK hPQ => ?_, fun va hb hK hPQ => ?_⟩
  · by_cases hQ : Q va
    · exact h'.gone va hb hK hQ
    · rw [h'.kept va hb hK hQ]
      exact h.gone va hb hK (hPQ.resolve_right hQ)
  · rw [h'.kept va hb hK fun hQ => hPQ (.inr hQ), h.kept va hb hK fun hP => hPQ (.inl hP)]

theorem Freed.imp {P Q : Nat → Prop} (h : Freed A m m' n K t l' b P)
    (hPQ : ∀ va, va / span n = b → (P va ↔ Q va)) : Freed A m m' n K t l' b Q :=
  ⟨h.own, h.same, fun va hb hK hQ => h.gone va hb hK ((hPQ va hb).mpr hQ),
    fun va hb hK hQ => h.kept va hb hK fun hP => hQ ((hPQ va hb).mp hP)⟩

/-- The loop over the entries `vs`. -/
theorem each_freed {body : Nat → VmM Unit} {vs : List Nat} {R : Nat → Prop}
    (hbody : ∀ v ∈ vs, ∀ {m l}, Own A m (n + 1) K t l → Sat (body v env m)
      (fun _ m' => ∃ l', Freed A m m' (n + 1) K t l' b fun va =>
        va / span n = v / span n ∧ R va) E X) (h : Own A m (n + 1) K t l) :
    Sat (Prog.each body vs env m)
      (fun _ m' => ∃ l', Freed A m m' (n + 1) K t l' b fun va =>
        (∃ v ∈ vs, va / span n = v / span n) ∧ R va) E X := by
  induction vs generalizing m l with
  | nil => exact Sat.pure ⟨l, .refl h fun _ _ _ ⟨⟨_, hv, _⟩, _⟩ => by cases hv⟩
  | cons v vs ih =>
      refine Sat.seq (hbody v List.mem_cons_self h) fun _ m₁ ⟨l₁, h₁⟩ => ?_
      refine (ih (fun w hw => hbody w (List.mem_cons_of_mem v hw)) h₁.own).imp ?_
        (fun _ _ he => he) (fun _ hx => hx)
      rintro - m₂ ⟨l₂, h₂⟩
      refine ⟨l₂, (h₁.trans h₂).imp fun va _ => ?_⟩
      simp only [List.mem_cons, exists_eq_or_imp]
      exact or_and_right.symm

/-- Code that frees the pages of a range in tables of `n` levels. -/
def Frees (n : Nat) (inner : Frame → Nat → Nat → VmM Unit) : Prop :=
  ∀ ⦃A : Set Frame⦄ ⦃m : Mem⦄ ⦃t : Frame⦄ ⦃l : List Frame⦄ ⦃env : Env⦄ ⦃start stop b : Nat⦄,
    Own A m n Any t l → start % pageSize = 0 → stop % pageSize = 0 → b * span n ≤ start →
    stop ≤ (b + 1) * span n →
    Sat (inner t start stop env m)
      (fun _ m' => ∃ l', Freed A m m' n Any t l' b fun va => start ≤ va ∧ va < stop)
      (fun _ _ => False) (fun _ => False)

/-- What hangs behind the entry of `v` goes, and the entry is cleared. -/
theorem Own.freed_prune (h : Own A m (n + 1) K t l) (hK : K (index n v))
    (hb : v / span (n + 1) = b) (hx : m.heap t (index n v) = some x) {P : Nat → Prop}
    (hP : ∀ va, va / span n = v / span n → ¬P va → m.view (n + 1) t va = none)
    (hout : ∀ va, va / span (n + 1) = b → P va → va / span n = v / span n) :
    ∃ l', Freed A m ((m.put x.frame).setEntry t (index n v) 0) (n + 1) K t l' b P := by
  obtain ⟨hown, he, hnone⟩ := h.prune hK hx
  have hin : x.frame ∈ A := h.sub _ (foot_child hK hx mem_foot_self)
  refine ⟨_, hown, fun g hg => ?_, fun va hva _ hPva => ?_, fun va hva hKva hPva => ?_⟩
  · have hgt : g ≠ t := by
      rintro rfl
      exact hg (h.sub g mem_foot_self)
    have hgx : g ≠ x.frame := by
      rintro rfl
      exact hg hin
    exact (setEntry_pages hgt).trans (put_pages hgx)
  · refine view_none ?_
    rw [(index_eq_iff (hva.trans hb.symm)).mpr (hout va hva hPva)]
    exact hnone
  · by_cases hidx : index n va = index n v
    · rw [hP va ((index_eq_iff (hva.trans hb.symm)).mp hidx) hPva]
      exact view_none (by rw [hidx]; exact hnone)
    · exact view_side h.tree he (hKva _ rfl) hidx

/-- A turn of the loop in the tables of the last level. -/
theorem freePage_spec {R : Nat → Prop} (h : Own A m 1 K t l) (hK : K (index 0 v))
    (hb : v / span 1 = b) (hR : ∀ va, va / span 0 = v / span 0 → R va) :
    Sat (freePage t v env m) (fun _ m' => ∃ l', Freed A m m' 1 K t l' b fun va =>
      va / span 0 = v / span 0 ∧ R va) E X := by
  unfold freePage
  refine Sat.gets (Sat.ite (fun hpres => ?_) fun hpres => Sat.pure ⟨l, .refl h ?_⟩)
  · refine Sat.modify (Sat.last_modify ?_)
    have hx : m.heap t (index 0 v) = some (m.pages t (index 0 v)) := by simp [Mem.heap, hpres]
    exact h.freed_prune hK hb hx (fun va hva hn => absurd ⟨hva, hR va hva⟩ hn) fun va _ hP => hP.1
  · rintro va hva - ⟨hvv, -⟩
    rw [view_one, (index_eq_iff (hva.trans hb.symm)).mpr hvv]
    simp [Mem.heap, hpres]

theorem max_mod {a c d : Nat} (ha : a % d = 0) (hc : c % d = 0) : max a c % d = 0 := by
  rcases Nat.le_total a c with h | h
  · rwa [Nat.max_eq_right h]
  · rwa [Nat.max_eq_left h]

theorem min_mod {a c d : Nat} (ha : a % d = 0) (hc : c % d = 0) : min a c % d = 0 := by
  rcases Nat.le_total a c with h | h
  · rwa [Nat.min_eq_left h]
  · rwa [Nat.min_eq_right h]

/-- The part of a range in the block of `v`. -/
theorem mem_block {s start stop : Nat} (hs : 0 < s) (hv : v % s = 0) (hva : va / s = v / s) :
    (max start v ≤ va ∧ va < min stop (v + s)) ↔ start ≤ va ∧ va < stop := by
  have h₁ := Nat.div_add_mod va s
  have h₂ := Nat.div_add_mod v s
  have h₃ := Nat.mod_lt va hs
  rw [hv] at h₂
  rw [hva] at h₁
  omega

/-- A turn of the loop in the other tables: the next level frees its part of the
range, and a table that is empty then goes as well. -/
theorem freeTable_spec {inner : Frame → Nat → Nat → VmM Unit} (hinner : Frees (n + 1) inner)
    {start stop : Nat} (h : Own A m (n + 1 + 1) K t l) (hK : K (index (n + 1) v))
    (hv : v % span (n + 1) = 0) (hb : v / span (n + 1 + 1) = b) (hstart : start % pageSize = 0)
    (hstop : stop % pageSize = 0) :
    Sat (freeTable inner (n + 1) t start stop v env m)
      (fun _ m' => ∃ l', Freed A m m' (n + 1 + 1) K t l' b fun va =>
        va / span (n + 1) = v / span (n + 1) ∧ start ≤ va ∧ va < stop)
      (fun _ _ => False) (fun _ => False) := by
  have hs := span_pos (n + 1)
  have hvs : v / span (n + 1) * span (n + 1) = v := by
    rw [Nat.mul_comm]
    have := Nat.div_add_mod v (span (n + 1))
    omega
  unfold freeTable
  refine Sat.gets (Sat.ite (fun hpres => ?_) fun hpres => Sat.pure ⟨l, .refl h ?_⟩)
  · have hx : m.heap t (index (n + 1) v) = some (m.pages t (index (n + 1) v)) := by
      simp [Mem.heap, hpres]
    generalize m.pages t (index (n + 1) v) = x at hx ⊢
    let B : Set Frame := {g | g ∈ m.foot (n + 1) Any x.frame ∨ g ∈ l}
    have hBA : ∀ g ∈ B, g ∈ A := by
      rintro g (hg | hg)
      · exact h.sub g (foot_child hK hx hg)
      · exact h.pool.mem g hg
    have hB : ∀ g ∈ B, g ∈ m.foot (n + 1) Any x.frame ∨ g ∉ m.foot (n + 1 + 1) K t := by
      rintro g (hg | hg)
      · exact .inl hg
      · exact .inr fun hgf => h.apart g hgf hg
    have hin := h.enter (B := B) hK hx (fun g hg => .inr hg) (fun g hg => .inl hg)
    refine Sat.seq (hinner hin (b := v / span (n + 1)) (max_mod hstart (mod_pageSize hv))
      (min_mod hstop ?_) ?_ ?_) fun _ m₁ hf => ?_
    · rw [Nat.add_mod, mod_pageSize hv, span_mod]
      rfl
    · rw [hvs]
      exact Nat.le_max_right ..
    · rw [Nat.succ_mul, hvs]
      exact Nat.min_le_right ..
    obtain ⟨l₁, hf⟩ := hf
    obtain ⟨he, htop⟩ := h.edit hK hx hB hf.own hf.same
    have hx₁ : m₁.heap t (index (n + 1) v) = some x := by rw [htop]; exact hx
    have hview : ∀ va, va / span (n + 1) = v / span (n + 1) → index (n + 1) va = index (n + 1) v :=
      fun va hva => (index_eq_iff (by
        rw [div_span_succ (n + 1) va, div_span_succ (n + 1) v, hva])).mpr hva
    have hmid : Freed A m m₁ (n + 1 + 1) K t l₁ b fun va =>
        va / span (n + 1) = v / span (n + 1) ∧ start ≤ va ∧ va < stop := by
      refine ⟨h.leave hK hx hBA hB hf.own hf.same, hf.same.mono hBA, ?_, ?_⟩
      · rintro va - - ⟨hva, hrange⟩
        rw [view_child (by rw [hview va hva]; exact hx₁)]
        exact hf.gone va hva (fun _ _ => True.intro) ((mem_block hs hv hva).mpr hrange)
      · intro va hvb hKva hP
        by_cases hidx : index (n + 1) va = index (n + 1) v
        · have hva := (index_eq_iff (hvb.trans hb.symm)).mp hidx
          rw [view_child (by rw [hidx]; exact hx₁), view_child (by rw [hidx]; exact hx)]
          exact hf.kept va hva (fun _ _ => True.intro) fun hin =>
            hP ⟨hva, (mem_block hs hv hva).mp hin⟩
        · exact view_side h.tree he (hKva _ rfl) hidx
    refine Sat.gets (Sat.ite (fun hempty => ?_) fun _ => Sat.pure ⟨l₁, hmid⟩)
    refine Sat.modify (Sat.last_modify ?_)
    obtain ⟨l₂, h₂⟩ := hmid.own.freed_prune hK hb hx₁
      (P := fun va => va / span (n + 1) = v / span (n + 1) ∧ start ≤ va ∧ va < stop)
      (fun va hva _ => by
        rw [view_child (by rw [hview va hva]; exact hx₁)]
        exact view_empty (heap_zero (funext hempty)) va)
      fun va _ hP => hP.1
    exact ⟨l₂, (hmid.trans h₂).imp fun va _ => or_self_iff⟩
  · rintro va hva - ⟨hvv, -⟩
    refine view_none ?_
    rw [(index_eq_iff (hva.trans hb.symm)).mpr hvv]
    simp [Mem.heap, hpres]

/-- The loop over the entries that a range within one table touches. -/
theorem range_freed {body : Nat → VmM Unit} {start stop : Nat} (hstart : b * span (n + 1) ≤ start)
    (hstop : stop ≤ (b + 1) * span (n + 1))
    (hbody : ∀ v, v % span n = 0 → v / span (n + 1) = b → start / span n ≤ v / span n → v < stop →
      ∀ {m l}, Own A m (n + 1) K t l → Sat (body v env m)
        (fun _ m' => ∃ l', Freed A m m' (n + 1) K t l' b fun va =>
          va / span n = v / span n ∧ start ≤ va ∧ va < stop) E X)
    (h : Own A m (n + 1) K t l) :
    Sat (Prog.each body (stepBy (start / span n * span n) stop (span n)) env m)
      (fun _ m' => ∃ l', Freed A m m' (n + 1) K t l' b fun va => start ≤ va ∧ va < stop) E X := by
  have hs := span_pos n
  have hblock : ∀ v, start / span n ≤ v / span n → v < stop → v / span (n + 1) = b := by
    intro v hle hlt
    rw [div_span_succ]
    rw [span_succ, Nat.mul_comm (span n), ← Nat.mul_assoc] at hstart hstop
    have h₁ : b * 512 ≤ start / span n := (Nat.le_div_iff_mul_le hs).mpr hstart
    have h₂ : v / span n < (b + 1) * 512 :=
      (Nat.div_lt_iff_lt_mul hs).mpr (Nat.lt_of_lt_of_le hlt hstop)
    omega
  refine (each_freed (b := b) (R := fun va => start ≤ va ∧ va < stop)
    (fun v hv {m l} hown => ?_) h).imp ?_ (fun _ _ he => he) (fun _ hx => hx)
  · obtain ⟨hmod, hle, hlt⟩ := (mem_stepBy hs).mp hv
    exact hbody v hmod (hblock v hle hlt) hle hlt hown
  · rintro - m' ⟨l', hf⟩
    refine ⟨l', hf.imp fun va _ => and_iff_right_of_imp fun hrange => ?_⟩
    refine ⟨va / span n * span n, (mem_stepBy hs).mpr ⟨Nat.mul_mod_left .., ?_, ?_⟩, ?_⟩
    · rw [Nat.mul_div_cancel _ hs]
      exact Nat.div_le_div_right hrange.1
    · exact Nat.lt_of_le_of_lt (Nat.div_mul_le_self ..) hrange.2
    · rw [Nat.mul_div_cancel _ hs]

/-! ## The four levels -/

theorem frees_one : Frees 1 freeUserPages₁ := by
  intro A m t l env start stop b h hstart hstop hlo hhi
  have hspan : span 1 = 2 * mib := rfl
  have hspan₀ : span 0 = 4096 := rfl
  unfold freeUserPages₁
  refine Sat.ite (fun hlt => ?_) fun hge => Sat.pure ⟨l, .refl h fun va _ _ hr => by omega⟩
  refine Sat.assert (fun hn => hn hstart) fun _ => Sat.assert (fun hn => hn hstop) fun _ =>
    Sat.assert (fun hn => hn ?_) fun _ => ?_
  · rw [← hspan]
    rw [Nat.add_mul, Nat.one_mul] at hhi
    omega
  · have hround : start / span 0 * span 0 = start := by
      rw [hspan₀]
      simp only [pageSize] at hstart
      omega
    have hloop : Sat (Prog.each (freePage t) _ env m) _ _ _ :=
      range_freed hlo hhi (fun v hv hb hle hvlt {m l} hown =>
      freePage_spec (E := fun _ _ => False) (X := fun _ => False)
        (R := fun va => start ≤ va ∧ va < stop) hown True.intro hb fun va hva => ?_) h
    · rw [hround] at hloop
      exact hloop
    · rw [hspan₀] at hv hle hva
      simp only [pageSize] at hstart hstop
      omega

/-- The loop of a table above the last level. -/
theorem freeTables_spec {inner : Frame → Nat → Nat → VmM Unit} (hinner : Frees (n + 1) inner)
    {start stop : Nat} (h : Own A m (n + 1 + 1) K t l) (hstart : start % pageSize = 0)
    (hstop : stop % pageSize = 0) (hlo : b * span (n + 1 + 1) ≤ start)
    (hhi : stop ≤ (b + 1) * span (n + 1 + 1)) (hK : ∀ v, v < stop → K (index (n + 1) v)) :
    Sat (Prog.each (freeTable inner (n + 1) t start stop)
        (stepBy (start / span (n + 1) * span (n + 1)) stop (span (n + 1))) env m)
      (fun _ m' => ∃ l', Freed A m m' (n + 1 + 1) K t l' b fun va => start ≤ va ∧ va < stop)
      (fun _ _ => False) (fun _ => False) :=
  range_freed hlo hhi (fun v hv hb _ hlt {_ _} hown =>
    freeTable_spec hinner hown (hK v hlt) hv hb hstart hstop) h

theorem frees_two : Frees 2 freeUserPages₂ := by
  intro A m t l env start stop b h hstart hstop hlo hhi
  have hspan : span 2 = gib := rfl
  unfold freeUserPages₂
  refine Sat.ite (fun hlt => ?_) fun hge => Sat.pure ⟨l, .refl h fun va _ _ hr => by omega⟩
  refine Sat.assert (fun hn => hn hstart) fun _ => Sat.assert (fun hn => hn hstop) fun _ =>
    Sat.assert (fun hn => hn ?_) fun _ => ?_
  · rw [← hspan]
    rw [Nat.add_mul, Nat.one_mul] at hhi
    omega
  · exact freeTables_spec frees_one h hstart hstop hlo hhi fun _ _ => True.intro

theorem frees_three : Frees 3 freeUserPages₃ := by
  intro A m t l env start stop b h hstart hstop hlo hhi
  have hspan : span 3 = 512 * gib := rfl
  unfold freeUserPages₃
  refine Sat.ite (fun hlt => ?_) fun hge => Sat.pure ⟨l, .refl h fun va _ _ hr => by omega⟩
  refine Sat.assert (fun hn => hn hstart) fun _ => Sat.assert (fun hn => hn hstop) fun _ =>
    Sat.assert (fun hn => hn ?_) fun _ => ?_
  · rw [← hspan]
    rw [Nat.add_mul, Nat.one_mul] at hhi
    omega
  · exact freeTables_spec frees_two h hstart hstop hlo hhi fun _ _ => True.intro

end Rxv64.Vm
