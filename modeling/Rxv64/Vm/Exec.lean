import Rxv64.Vm.Copy
import Rxv64.Vm.System

/-!
# Vm.Exec — the address space of a new program

Segments are mapped from the end of the one before, so that all pages below the
size are there; the stack goes on top. Copying the file and the arguments only
touches user data.
-/

namespace Rxv64.Vm

open Radix

variable {A : Set Frame} {m m' : Mem} {root : Frame} {l l' : List Frame} {va sp : Nat} {env : Env}
  {E : String → Mem → Prop} {X : String → Prop}

/-- A user address is mapped for user code. -/
def UserPage (m : Mem) (root : Frame) (v : Nat) : Prop :=
  ∃ e, m.entryFor root v = some e ∧ e.isUser = true

theorem Granted.userPage {flags : PageFlags} {v : Nat} (h : Granted m root flags v) :
    UserPage m root v := by
  obtain ⟨page, he⟩ := h
  exact ⟨_, he, by simp⟩

/-- Every page of a table may be written. -/
def Writable (m : Mem) (root : Frame) : Prop :=
  ∀ v, v < userEnd → ∀ e, m.entryFor root v = some e → e.isWrite = true

theorem Granted.isWrite {flags : PageFlags} {v : Nat} (h : Granted m root flags v)
    (hw : (flags.union .user).bits.getLsbD 1 = true) :
    ∀ e, m.entryFor root v = some e → e.isWrite = true := by
  obtain ⟨page, he⟩ := h
  intro e he'
  cases he.symm.trans he'
  rw [isWrite_entry]
  exact hw

/-- An error leaves a table that can be dropped. -/
def Intact (A : Set Frame) (m m' : Mem) (root : Frame) : Prop :=
  ∃ l', OwnTable A m' root l' ∧ Same A m m'

theorem Poked.intact (h : Poked A m m' root l) : Intact A m m' root := ⟨l, h.1, h.2.1⟩

theorem Intact.after {m₁ m₂ : Mem} (h' : Intact A m₁ m₂ root) (h : Same A m m₁) :
    Intact A m m₂ root := by
  obtain ⟨l', hown, hsame⟩ := h'
  exact ⟨l', hown, h.trans hsame⟩

theorem addWord_sat {a b : Nat} : Sat (addWord a b env m)
    (fun r m' => m' = m ∧ r = a + b ∧ a + b < 2 ^ 64) E (fun _ => 2 ^ 64 ≤ a + b) :=
  Sat.ite (fun hlt => Sat.pure ⟨rfl, rfl, hlt⟩) fun hlt => Sat.abort (Nat.not_lt.mp hlt)

theorem ProgramHeader.validate_spec (ph : ProgramHeader) :
    Sat (ph.validate env m)
      (fun _ m' => m' = m ∧ ph.fileSize.toNat ≤ ph.memSize.toNat ∧
        ph.virtAddr.toNat % pageSize = 0 ∧ ph.virtAddr.toNat + ph.memSize.toNat < 2 ^ 64)
      (fun _ m' => m' = m) X := by
  unfold ProgramHeader.validate
  refine Sat.ite (fun _ => ⟨rfl⟩) fun hsize => Sat.ite (fun _ => ⟨rfl⟩) fun hmod =>
    Sat.ite (fun _ => ⟨rfl⟩) fun hwrap => Sat.pure ⟨rfl, ?_, Decidable.not_not.mp hmod, ?_⟩
  · exact UInt64.le_iff_toNat_le.mp (UInt64.not_lt.mp hsize)
  · have hle := UInt64.le_iff_toNat_le.mp (UInt64.not_lt.mp hwrap)
    have h₁ := ph.virtAddr.toNat_lt
    have h₂ := ph.memSize.toNat_lt
    rw [UInt64.toNat_add] at hle
    omega

theorem loadPages_spec {ph : ProgramHeader} {readi : FileData} {kp : Nat} (h : OwnTable A m root l)
    (hva : ph.virtAddr.toNat + kp < userEnd) :
    Sat (loadPages root ph readi kp env m) (fun _ m' => Poked A m m' root l)
      (fun _ m' => Poked A m m' root l) (fun _ => True) := by
  refine Sat.seq (addWord_sat.imp (fun _ _ hq => hq) (fun _ _ he => he) fun _ _ => True.intro) ?_
  rintro va m' ⟨rfl, rfl, -⟩
  refine Sat.bind userAddrToKernPage_spec ?_ ?_
  · rintro - m' rfl
    exact .refl h
  rintro g m' ⟨rfl, e, he, rfl⟩
  refine Sat.seq (addWord_sat.imp (fun _ _ hq => hq) (fun _ _ he => he) fun _ _ => True.intro) ?_
  rintro off m' ⟨rfl, rfl, -⟩
  cases readi (ph.offset.toNat + kp) (min (ph.fileSize.toNat - kp) pageSize) with
  | error e => exact Sat.throw (.refl h)
  | ok data =>
      have hpoke := h.poke hva he ((m'.pages e.frame).blit 0
        (data.take (min (ph.fileSize.toNat - kp) pageSize)))
      exact Sat.modify (Sat.ite (fun _ => Sat.pure hpoke) fun _ => Sat.throw hpoke)

theorem loadSection_spec {ph : ProgramHeader} {readi : FileData} (h : OwnTable A m root l)
    (hmod : ph.virtAddr.toNat % pageSize = 0)
    (hend : ph.virtAddr.toNat + ph.fileSize.toNat ≤ userEnd) :
    Sat (loadSection root ph readi env m) (fun _ m' => Poked A m m' root l)
      (fun _ m' => Poked A m m' root l) (fun _ => True) := by
  refine Sat.assert (fun hn => absurd hmod hn) fun _ => ?_
  refine (Sat.each (I := fun ks m' => Poked A m m' root l ∧ ∀ k ∈ ks, k < ph.fileSize.toNat)
    (fun k ks m₁ hI => ?_) ⟨.refl h, fun k hk => ?_⟩).imp (fun _ _ hq => hq.1) (fun _ _ hq => hq)
    (fun _ hx => hx)
  · have hk := hI.2 k List.mem_cons_self
    exact (loadPages_spec hI.1.1 (by omega)).imp
      (fun _ _ hq => ⟨hI.1.trans hq, fun k hk => hI.2 k (List.mem_cons_of_mem _ hk)⟩)
      (fun _ _ hq => hI.1.trans hq) (fun _ hx => hx)
  · exact ((mem_stepBy_pages (by decide)).mp hk).2.2

theorem ProgramHeader.pageAllocUser_eq {ph : ProgramHeader} {size : Nat}
    (hsum : ph.virtAddr.toNat + ph.memSize.toNat < 2 ^ 64) : ph.pageAllocUser root size env m =
      allocUser root size (ph.virtAddr.toNat + ph.memSize.toNat) ph.pageFlags env m := by
  unfold ProgramHeader.pageAllocUser addWord
  rw [if_pos hsum]
  rfl

/-- `PF_W`. -/
def ProgramHeader.writable (ph : ProgramHeader) : Prop := ph.flags &&& 2 = 2

/-- `PF_X`. -/
def ProgramHeader.executable (ph : ProgramHeader) : Prop := ph.flags &&& 1 = 1

instance (ph : ProgramHeader) : Decidable ph.writable :=
  inferInstanceAs (Decidable (_ = _))

instance (ph : ProgramHeader) : Decidable ph.executable :=
  inferInstanceAs (Decidable (_ = _))

theorem getLsbD_pageFlags (ph : ProgramHeader) :
    ∀ i < 64, (ph.pageFlags.union .user).bits.getLsbD i = (decide (i = 2) ||
      (decide (i = 1) && decide ph.writable) || (decide (i = 63) && !decide ph.executable)) := by
  unfold ProgramHeader.pageFlags ProgramHeader.writable ProgramHeader.executable
  by_cases hw : ph.flags &&& 2 = 2 <;> by_cases hx : ph.flags &&& 1 = 1
  all_goals
    simp only [hw, hx, if_true, if_false, decide_true, decide_false]
    decide

/-- A segment: everything from the old size to its end is mapped. -/
theorem loadSegment_spec {size : Nat} {ph : ProgramHeader} {readi : FileData}
    (h : OwnTable A m root l) (hsize : size ≤ userEnd) :
    Sat (loadSegment root size ph readi env m)
      (fun r m' => r ≤ userEnd ∧ r = max size (ph.virtAddr.toNat + ph.memSize.toNat) ∧
        Intact A m m' root ∧
        ∀ v, v < userEnd → if pageRoundUp size ≤ v ∧ v < pageRoundUp r
          then Granted m' root ph.pageFlags v
          else m'.entryFor root v = m.entryFor root v)
      (fun _ m' => Intact A m m' root) (fun _ => True) := by
  refine Sat.bind ph.validate_spec ?_ ?_
  · rintro - m' rfl
    exact (Poked.refl h).intact
  · rintro - m' ⟨rfl, hfile, hmod, hsum⟩
    have hgrow : Sat (allocUser root size (ph.virtAddr.toNat + ph.memSize.toNat) ph.pageFlags env m')
        _ _ (fun _ => True) :=
      (allocUser_spec h).imp (fun _ _ hq => hq) (fun _ _ hq => hq) (fun _ hx => hx.elim)
    rw [← ph.pageAllocUser_eq hsum] at hgrow
    generalize hend : ph.virtAddr.toNat + ph.memSize.toNat = top at hsum hgrow
    refine Sat.bind hgrow ?_ ?_
    · rintro - m₁ (⟨-, rfl⟩ | ⟨-, l₁, hown, hsame, -⟩)
      · exact (Poked.refl h).intact
      · exact ⟨l₁, hown, hsame⟩
    · rintro r m₁ ⟨rfl, htop, l₁, hown, hsame, hview⟩
      refine Sat.bind (loadSection_spec hown hmod (by omega))
        (fun _ m₂ hq => hq.intact.after hsame) fun _ m₂ hq => Sat.pure ?_
      refine ⟨Nat.max_le.mpr ⟨hsize, htop⟩, rfl, hq.intact.after hsame, fun v hv => ?_⟩
      have hv₁ := hview v hv
      rw [Granted, hq.2.2 v hv]
      -- if the segment ends below the old size, neither range has a page
      rcases Nat.le_total size top with hle | hle
      · rw [Nat.max_eq_right hle]
        exact hv₁
      · have hmono := pageRoundUp_mono hle
        rw [if_neg (by omega)] at hv₁
        rw [Nat.max_eq_left hle, if_neg (by omega)]
        exact hv₁

theorem pushArgs_spec {args : List (List (BitVec 8))} :
    ∀ {m : Mem} {sp : Nat}, OwnTable A m root l → sp ≤ userEnd →
      Sat (pushArgs root args sp env m) (fun r m' => r.1 ≤ userEnd ∧ Poked A m m' root l)
        (fun _ m' => Poked A m m' root l) (fun _ => True) := by
  induction args with
  | nil => exact fun h hsp => Sat.pure ⟨hsp, .refl h⟩
  | cons arg args ih =>
      intro m sp h hsp
      unfold pushArgs subSp
      refine Sat.seq (Q := fun r m' => m' = m ∧ r = sp - (arg.length + 1) ∧ arg.length + 1 ≤ sp)
        (Sat.ite (fun _ => ⟨True.intro⟩) fun hlt => Sat.pure ⟨rfl, rfl, Nat.not_lt.mp hlt⟩) ?_
      rintro r m' ⟨rfl, rfl, hle⟩
      refine Sat.seq (copyOut_spec h ?_) fun _ m₁ h₁ => Sat.ite (fun _ => ⟨h₁⟩) fun _ => ?_
      · omega
      · refine Sat.bind (ih h₁.1 ?_) (fun _ _ hq => h₁.trans hq) ?_
        · omega
        · rintro ⟨last, uargs⟩ m₂ ⟨hlast, h₂⟩
          exact Sat.pure ⟨hlast, h₁.trans h₂⟩

theorem push_spec {bytes : List (BitVec 8)} (h : OwnTable A m root l) (hsp : sp ≤ userEnd) :
    Sat (push root bytes sp env m) (fun r m' => r ≤ userEnd ∧ Poked A m m' root l)
      (fun _ m' => Poked A m m' root l) (fun _ => True) := by
  unfold push subSp
  refine Sat.seq (Q := fun r m' => m' = m ∧ r = sp - bytes.length ∧ bytes.length ≤ sp)
    (Sat.ite (fun _ => ⟨True.intro⟩) fun hlt => Sat.pure ⟨rfl, rfl, Nat.not_lt.mp hlt⟩) ?_
  rintro r m' ⟨rfl, rfl, hle⟩
  refine Sat.seq (copyOut_spec h ?_) fun _ m₁ h₁ => Sat.pure ⟨?_, h₁⟩
  · omega
  · omega

theorem alignSp_spec (h : OwnTable A m root l) (hsp : sp ≤ userEnd) :
    Sat (alignSp root sp env m) (fun r m' => r ≤ userEnd ∧ Poked A m m' root l)
      (fun _ m' => Poked A m m' root l) (fun _ => True) :=
  Sat.ite (fun _ => push_spec h hsp) fun _ => Sat.pure ⟨hsp, .refl h⟩

/-- The stack is mapped, and nothing below it has changed. -/
theorem execStack_granted {args : List (List (BitVec 8))} (h : OwnTable A m root l) :
    Sat (execStack root args env m)
      (fun _ m' => Intact A m m' root ∧ ∀ v, v < userEnd →
        if userStack ≤ v then Granted m' root (PageFlags.write.union .nx) v
        else m'.entryFor root v = m.entryFor root v)
      (fun _ m' => Intact A m m' root) (fun _ => True) := by
  refine Sat.bind ((allocUser_spec h).imp (fun _ _ hq => hq) (fun _ _ hq => hq)
    (fun _ _ => True.intro)) ?_ ?_
  · rintro - m₁ (⟨-, rfl⟩ | ⟨-, l₁, hown, hsame, -⟩)
    · exact (Poked.refl h).intact
    · exact ⟨l₁, hown, hsame⟩
  rintro r m₁ ⟨-, -, l₁, hown, hsame, hview⟩
  refine Sat.bind (pushArgs_spec hown (Nat.le_refl _)) (fun _ _ hq => hq.intact.after hsame) ?_
  rintro ⟨sp, uargs⟩ m₂ ⟨hsp, h₂⟩
  refine Sat.bind (push_spec h₂.1 hsp) (fun _ _ hq => (h₂.trans hq).intact.after hsame) ?_
  rintro sp₃ m₃ ⟨hsp₃, h₃⟩
  have h₃ := h₂.trans h₃
  refine Sat.bind (alignSp_spec h₃.1 hsp₃) (fun _ _ hq => (h₃.trans hq).intact.after hsame) ?_
  rintro sp₄ m₄ ⟨hsp₄, h₄⟩
  have h₄ := h₃.trans h₄
  refine Sat.bind (push_spec h₄.1 hsp₄) (fun _ _ hq => (h₄.trans hq).intact.after hsame) ?_
  rintro - m₅ ⟨-, h₅⟩
  have h₅ := h₄.trans h₅
  refine Sat.pure ⟨h₅.intact.after hsame, fun v hv => ?_⟩
  rw [Granted, h₅.2.2 v hv]
  have hv₁ := hview v hv
  have hround : pageRoundUp userStack = userStack ∧ pageRoundUp userEnd = userEnd := by decide
  rw [hround.1, hround.2] at hv₁
  simp only [hv, and_true] at hv₁
  exact hv₁

theorem buildStack_spec {args : List (List (BitVec 8))} (h : OwnTable A m root l) :
    Sat (buildStack root args env m)
      (fun _ m' => Intact A m m' root ∧ ∀ v, v < userEnd →
        if userStack ≤ v then Granted m' root (PageFlags.write.union .nx) v
        else m'.entryFor root v = m.entryFor root v)
      (fun _ m' => Intact A m m' root) (fun _ => True) :=
  Sat.seq (execStack_granted h) fun _ _ hq => Sat.pure hq

end Rxv64.Vm
