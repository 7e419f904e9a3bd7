import Rxv64.Lib.Places
import Rxv64.Vm.Exec

/-!
# Vm.Owners — who has which page

The pages of the system belong to the free list, to the page table of a
process, to the table that its `exec` is building, or are its kernel stack. A
call divides the pages of two or three of these owners anew; the others do not
notice. `Change` says that once.
-/

namespace Rxv64.Vm

open Radix Places Runs

inductive Owner where
  | free
  | table (p : ProcIdx)
  | image (p : ProcIdx)
  | stack (p : ProcIdx)
  deriving DecidableEq

def Sys.root (s : Sys) : Owner → Option Frame
  | .table p => (s.procs p).pgtbl
  | .image p => (s.procs p).image.map Image.pgtbl
  | _ => none

def Sys.holds (s : Sys) (l : List Frame) : Owner → Set Frame
  | .free => {g | g ∈ l}
  | .stack p => {g | (s.procs p).kstack = some g}
  | o => {g | ∃ r, s.root o = some r ∧ g ∈ s.mem.foot 4 UserHalf r}

/-- What the fields of a process have to do with each other. -/
structure Fit (pr : Proc) : Prop where
  clean : pr.life = .unused → pr = Proc.new
  idle : pr.life = .zombie → pr.image = none
  size : pr.size ≤ userEnd
  image : ∀ im, pr.image = some im → im.size ≤ userEnd

/-- The free list is `l`, tables are trees, and no page has two owners. -/
structure Owns (s : Sys) (l : List Frame) : Prop where
  pool : Pool Set.univ s.mem l
  tree : ∀ o r, s.root o = some r → Tree Entry.frame s.mem.heap 4 UserHalf r
  apart : Apart (s.holds l)
  fit : ∀ p, Fit (s.procs p)

/-- Every page below the size is mapped for user code. -/
def Low (m : Mem) (root : Frame) (size : Nat) : Prop := ∀ v, v < pageRoundUp size → UserPage m root v

/-- And the stack as well. -/
def Backed (m : Mem) (root : Frame) (size : Nat) : Prop :=
  ∀ v, v < userEnd → Copied size v → UserPage m root v

/-- Every page of every table may be written, and of every table that is being built. -/
def Sys.Writable (s : Sys) : Prop := ∀ o r, s.root o = some r → Vm.Writable s.mem r

/-- Processes that have completed an `exec` have all their memory, and images
have what was loaded so far. -/
structure Full (s : Sys) : Prop where
  table : ∀ p, (s.procs p).execed = true →
    ∃ r, (s.procs p).pgtbl = some r ∧ Backed s.mem r (s.procs p).size
  image : ∀ p im, (s.procs p).image = some im → Low s.mem im.pgtbl im.size

variable {s s' : Sys} {l l' : List Frame} {o : Owner} {r : Frame} {m' : Mem}

theorem Sys.root_holds (hr : s.root o = some r) {g : Frame} :
    g ∈ s.holds l o ↔ g ∈ s.mem.foot 4 UserHalf r := by
  cases o with
  | free => cases hr
  | stack p => cases hr
  | table p =>
      constructor
      · rintro ⟨r', hr', hg⟩
        cases hr.symm.trans hr'
        exact hg
      · exact fun hg => ⟨r, hr, hg⟩
  | image p =>
      constructor
      · rintro ⟨r', hr', hg⟩
        cases hr.symm.trans hr'
        exact hg
      · exact fun hg => ⟨r, hr, hg⟩

/-- What an owner and the free list have. -/
def Sys.world (s : Sys) (l : List Frame) (o : Owner) : Set Frame := {g | g ∈ s.holds l o ∨ g ∈ l}

theorem Owns.ownTable (h : Owns s l) (hr : s.root o = some r) :
    OwnTable (s.world l o) s.mem r l := by
  have hne : o ≠ .free := by
    rintro rfl
    cases hr
  refine ⟨⟨h.pool.chain, h.pool.nodup, fun g hg => .inr hg⟩, h.tree o r hr, fun g hg => ?_,
    fun g hg hl => ?_⟩
  · exact .inl ((Sys.root_holds hr).mpr hg)
  · exact h.apart hne g ((Sys.root_holds hr).mpr hg) hl

/-! ## A call changes what some owners have -/

/-- The owners in `O`, the free list among them, divide the pages of `A` anew. -/
structure Change (s : Sys) (l : List Frame) (O : Owner → Prop) (A : Set Frame) (s' : Sys)
    (l' : List Frame) : Prop where
  owned : ∀ g ∈ A, ∃ o, O o ∧ g ∈ s.holds l o
  free : O .free
  same : Same A s.mem s'.mem
  root : ∀ o, ¬O o → s'.root o = s.root o
  stack : ∀ p, ¬O (.stack p) → (s'.procs p).kstack = (s.procs p).kstack
  pool : Pool Set.univ s'.mem l'
  tree : ∀ o r, O o → s'.root o = some r → Tree Entry.frame s'.mem.heap 4 UserHalf r
  sub : ∀ o, O o → ∀ g ∈ s'.holds l' o, g ∈ A
  among : ∀ o o', O o → O o' → o ≠ o' → ∀ g ∈ s'.holds l' o, g ∉ s'.holds l' o'
  fit : ∀ p, Fit (s'.procs p)

section Change

variable {O : Owner → Prop} {A : Set Frame} (h : Owns s l) (c : Change s l O A s' l')

include h c

/-- The pages of the other owners are as before. -/
theorem Change.pages (ho : ¬O o) {g : Frame} (hg : g ∈ s.holds l o) :
    s'.mem.pages g = s.mem.pages g := by
  refine c.same g fun hA => ?_
  obtain ⟨o', ho', hg'⟩ := c.owned g hA
  refine h.apart (fun he => ho ?_) g hg hg'
  exact he ▸ ho'

theorem Change.nodes (ho : ¬O o) (hr : s.root o = some r) :
    ∀ g ∈ s.mem.nodes 4 UserHalf r, s'.mem.pages g = s.mem.pages g := fun _ hg =>
  c.pages h ho ((Sys.root_holds hr).mpr (nodes_subset_foot hg))

theorem Change.entryFor (ho : ¬O o) (hr : s.root o = some r) {v : Nat} (hv : v < userEnd) :
    s'.mem.entryFor r v = s.mem.entryFor r v :=
  entryFor_congr (c.nodes h ho hr) hv

theorem Change.holds (ho : ¬O o) : s'.holds l' o = s.holds l o := by
  have hroot : ∀ {o}, ¬O o → {g | ∃ r, s'.root o = some r ∧ g ∈ s'.mem.foot 4 UserHalf r} =
      {g | ∃ r, s.root o = some r ∧ g ∈ s.mem.foot 4 UserHalf r} := by
    intro o ho
    ext g
    refine exists_congr fun r => ?_
    rw [c.root o ho]
    refine and_congr_right fun hr => ?_
    rw [foot_frame (c.nodes h ho hr)]
  cases o with
  | free => exact absurd c.free ho
  | stack p =>
      show {g | (s'.procs p).kstack = some g} = {g | (s.procs p).kstack = some g}
      rw [c.stack p ho]
  | table p => exact hroot ho
  | image p => exact hroot ho

theorem Change.owns : Owns s' l' := by
  refine ⟨c.pool, fun o r hr => ?_, ?_, c.fit⟩
  · by_cases ho : O o
    · exact c.tree o r ho hr
    · rw [c.root o ho] at hr
      exact (h.tree o r hr).congr fun g hg => heap_eq (c.nodes h ho hr g hg)
  · refine h.apart.redo (O := O) (fun o ho => c.holds h ho) (fun o ho g hg => ?_) c.among
    exact c.owned g (c.sub o ho g hg)

theorem Change.userPage (ho : ¬O o) (hr : s.root o = some r) {v : Nat} (hv : v < userEnd)
    (hp : UserPage s.mem r v) : UserPage s'.mem r v := by
  rw [UserPage, c.entryFor h ho hr hv]
  exact hp

/-- Only the owners in `O` have to be looked at again. -/
theorem Change.full (hfull : Full s)
    (htable : ∀ p, (s'.procs p).execed = true →
      (¬O (.table p) ∧ (s.procs p).execed = true ∧ (s'.procs p).size = (s.procs p).size) ∨
      ∃ r, (s'.procs p).pgtbl = some r ∧ Backed s'.mem r (s'.procs p).size)
    (himage : ∀ p im, (s'.procs p).image = some im →
      (¬O (.image p) ∧ (s.procs p).image = some im) ∨ Low s'.mem im.pgtbl im.size) : Full s' := by
  refine ⟨fun p hp => ?_, fun p im him => ?_⟩
  · rcases htable p hp with ⟨ho, hexec, hsize⟩ | hnew
    · obtain ⟨r, hr, hback⟩ := hfull.table p hexec
      have hroot : s'.root (.table p) = s.root (.table p) := c.root _ ho
      refine ⟨r, hroot.trans hr, fun v hv hcop => ?_⟩
      rw [hsize] at hcop
      exact c.userPage h (o := .table p) ho hr hv (hback v hv hcop)
    · exact hnew
  · rcases himage p im him with ⟨ho, him₀⟩ | hnew
    · intro v hv
      have hsize := (h.fit p).image im him₀
      have hr : s.root (.image p) = some im.pgtbl := by simp [Sys.root, him₀]
      exact c.userPage h ho hr (Nat.lt_of_lt_of_le hv (pageRoundUp_userEnd hsize))
        (hfull.image p im him₀ v hv)
    · exact hnew

theorem Change.writable (hw : s.Writable)
    (hnew : ∀ o r, O o → s'.root o = some r → Writable s'.mem r) : s'.Writable := by
  intro o r hr
  by_cases ho : O o
  · exact hnew o r ho hr
  · rw [c.root o ho] at hr
    intro v hv e he
    rw [c.entryFor h ho hr hv] at he
    exact hw o r hr v hv e he

end Change

/-- One table, with the free list. -/
theorem Change.oneTable {A : Set Frame} (ho : ∀ g, g ∈ s'.holds l' o →
      ∃ r, s'.root o = some r ∧ g ∈ s'.mem.foot 4 UserHalf r)
    (hA : ∀ g ∈ A, g ∈ s.holds l o ∨ g ∈ l) (hsame : Same A s.mem s'.mem)
    (hpool : Pool A s'.mem l') (hnew : ∀ r, s'.root o = some r → OwnTable A s'.mem r l')
    (hroot : ∀ o', o' ≠ o → s'.root o' = s.root o')
    (hstack : ∀ p, (s'.procs p).kstack = (s.procs p).kstack) (hfit : ∀ p, Fit (s'.procs p)) :
    Change s l (fun o' => o' = .free ∨ o' = o) A s' l' := by
  have hfree : ∀ g ∈ s'.holds l' o, g ∉ l' := by
    intro g hg
    obtain ⟨r, hr, hg⟩ := ho g hg
    exact (hnew r hr).apart g hg
  refine ⟨fun g hg => ?_, .inl rfl, hsame, fun o' ho' => hroot o' fun he => ho' (.inr he),
    fun p _ => hstack p, hpool.mono fun _ _ => Set.mem_univ _, ?_, ?_, ?_, hfit⟩
  · rcases hA g hg with hg | hg
    · exact ⟨o, .inr rfl, hg⟩
    · exact ⟨.free, .inl rfl, hg⟩
  · rintro o' r (rfl | rfl) hr
    · cases hr
    · exact (hnew r hr).tree
  · rintro o' (rfl | rfl) g hg
    · exact hpool.mem g hg
    · obtain ⟨r, hr, hg⟩ := ho g hg
      exact (hnew r hr).sub g hg
  · rintro o₁ o₂ (rfl | rfl) (rfl | rfl) hne g hg₁ hg₂
    · exact hne rfl
    · exact hfree g hg₂ hg₁
    · exact hfree g hg₁ hg₂
    · exact hne rfl

/-- The table and the kernel stack of one process, with the free list. -/
theorem Change.process {A : Set Frame} {q : ProcIdx}
    (hA : ∀ g ∈ A, g ∈ l ∨ g ∈ s.holds l (.table q) ∨ g ∈ s.holds l (.stack q))
    (hsame : Same A s.mem s'.mem) (hpool : Pool A s'.mem l')
    (hnew : ∀ r, (s'.procs q).pgtbl = some r → OwnTable A s'.mem r l')
    (hkstack : ∀ g, (s'.procs q).kstack = some g → g ∈ A ∧ g ∉ l' ∧
      ∀ r, (s'.procs q).pgtbl = some r → g ∉ s'.mem.foot 4 UserHalf r)
    (hroot : ∀ o, o ≠ .table q → s'.root o = s.root o)
    (hstack : ∀ p, p ≠ q → (s'.procs p).kstack = (s.procs p).kstack)
    (hfit : ∀ p, Fit (s'.procs p)) :
    Change s l (fun o => o = .free ∨ o = .table q ∨ o = .stack q) A s' l' := by
  have hfree : ∀ g ∈ s'.holds l' (.table q), g ∉ l' := by
    rintro g ⟨r, hr, hg⟩
    exact (hnew r hr).apart g hg
  have hcross : ∀ g ∈ s'.holds l' (.table q), g ∉ s'.holds l' (.stack q) := by
    rintro g ⟨r, hr, hg⟩ hk
    exact (hkstack g hk).2.2 r hr hg
  refine ⟨fun g hg => ?_, .inl rfl, hsame, fun o ho => hroot o fun he => ho (.inr (.inl he)),
    fun p hp => hstack p fun he => hp (.inr (.inr (he ▸ rfl))),
    hpool.mono fun _ _ => Set.mem_univ _, ?_, ?_, ?_, hfit⟩
  · rcases hA g hg with hg | hg | hg
    · exact ⟨.free, .inl rfl, hg⟩
    · exact ⟨_, .inr (.inl rfl), hg⟩
    · exact ⟨_, .inr (.inr rfl), hg⟩
  · rintro o r (rfl | rfl | rfl) hr
    · cases hr
    · exact (hnew r hr).tree
    · cases hr
  · rintro o (rfl | rfl | rfl) g hg
    · exact hpool.mem g hg
    · obtain ⟨r, hr, hg⟩ := hg
      exact (hnew r hr).sub g hg
    · exact (hkstack g hg).1
  · rintro o₁ o₂ (rfl | rfl | rfl) (rfl | rfl | rfl) hne g hg₁ hg₂
    · exact hne rfl
    · exact hfree g hg₂ hg₁
    · exact (hkstack g hg₂).2.1 hg₁
    · exact hfree g hg₁ hg₂
    · exact hne rfl
    · exact hcross g hg₁ hg₂
    · exact (hkstack g hg₁).2.1 hg₂
    · exact hcross g hg₂ hg₁
    · exact hne rfl

end Rxv64.Vm
