import Rxv64.Procs.Tree

/-!
# Procs.Slots — what is left in a slot nobody uses

`wait1` resets the fields of a slot one by one and `alloc` sets only some of
them, so a free slot has to be clean. It is, as long as two things do not
happen: a `fork` that has taken a slot and then cannot copy the page table
leaves its pid there, and `kill(0)` finds a free slot and marks it.
-/

namespace Rxv64.Procs

open Scan Runs

/-- A free slot as the source first has it. -/
structure Clean (pr : Proc) : Prop where
  pid : pr.pid = 0
  parent : pr.parent = none
  killed : pr.killed = false
  size : pr.size = 0
  kstack : pr.kstack = none
  pgtbl : pr.pgtbl = none
  files : ∀ k, pr.files k = none
  cwd : pr.cwd = none

section Slots

variable {κ : Type} {s s' : Kernel κ}

/-- No `fork` that has taken a slot fails, unless the pid it leaves there is 0,
and `kill(0)` does not come upon an unused slot. -/
def Spares (s : Kernel κ) : Event κ → Prop
  | .on c (.fork (some _) copy) =>
      ∀ p, s.cpus c = some p → s.freeProc.isSome = true → copy = true ∨ s.nextPid = 0
  | .kill pid => pid = 0 → ∀ q, s.target pid = some q → (s.procs q).state ≠ .unused
  | _ => True

instance (s : Kernel κ) (a : Event κ) : Decidable (Spares s a) :=
  match a with
  | .on c (.fork (some _) copy) => inferInstanceAs (Decidable (∀ p, s.cpus c = some p →
      s.freeProc.isSome = true → copy = true ∨ s.nextPid = 0))
  | .on _ (.fork none _) | .on _ (.exit _) | .on _ (.wait _) | .on _ .run | .on _ (.sleep _)
  | .on _ .yield | .on _ (.work ..) | .wakeup _ | .schedule .. => .isTrue trivial
  | .kill pid => inferInstanceAs (Decidable (pid = 0 → ∀ q, s.target pid = some q →
      (s.procs q).state ≠ .unused))

/-- What a slot holds, by its state and its phase. -/
structure Slot (ph : Phase) (pr : Proc) : Prop where
  clean : pr.state = .unused → Clean pr
  pages : pr.state ≠ .unused → pr.kstack.isSome = true ∧ pr.pgtbl.isSome = true
  closed : (∃ status, ph = .exiting status) ∨ pr.state.kind = .zombie →
    (∀ k, pr.files k = none) ∧ pr.cwd = none

structure Slots (s : Kernel κ) : Prop where
  tree : Tree s
  slot : ∀ p, Slot (s.phase p) (s.procs p)

/-- A slot that stays free or stays in use gets another state, or a process in
use another parent. -/
theorem Slot.restate {ph : Phase} {pr : Proc} (h : Slot ph pr) {state : ProcState}
    {parent : Option ProcIdx} (hkind : state.kind = pr.state.kind)
    (hpar : parent = pr.parent ∨ pr.state ≠ .unused) : Slot ph { pr with state, parent } := by
  have hfree : state = .unused ↔ pr.state = .unused := by
    rw [← ProcState.kind_unused, hkind, ProcState.kind_unused]
  refine ⟨fun hs => ?_, fun hs => h.pages fun he => hs (hfree.mpr he), fun hc => ?_⟩
  · have hold := hfree.mp hs
    have hclean := h.clean hold
    exact ⟨hclean.pid, (hpar.resolve_right fun hne => hne hold).trans hclean.parent, hclean.killed,
      hclean.size, hclean.kstack, hclean.pgtbl, hclean.files, hclean.cwd⟩
  · exact h.closed (hc.imp_right fun hz => hkind.symm.trans hz)

theorem Slot.rephase {ph ph' : Phase} {pr : Proc} (h : Slot ph pr)
    (hph : ∀ status, ph' ≠ .exiting status) : Slot ph' pr :=
  ⟨h.clean, h.pages, fun hc => h.closed (.inr (hc.resolve_left fun ⟨status, he⟩ => hph status he))⟩

/-- One slot changes. -/
theorem Slots.one (h : Slots s) (htree : Tree s') {p : ProcIdx} {pr : Proc} {ph : Phase}
    (hprocs : s'.procs = Function.update s.procs p pr)
    (hphase : s'.phase = Function.update s.phase p ph) (hslot : Slot ph pr) : Slots s' := by
  refine ⟨htree, fun q => ?_⟩
  rw [hprocs, hphase]
  by_cases hqp : q = p
  · rw [hqp, Function.update_self, Function.update_self]
    exact hslot
  · rw [Function.update_of_ne hqp, Function.update_of_ne hqp]
    exact h.slot q

theorem Kernel.not_unused_of_isChild {p q : ProcIdx} (h : s.isChild p q = true) :
    (s.procs q).state ≠ .unused := by
  simp only [Kernel.isChild, Bool.decide_and, Bool.and_eq_true, decide_eq_true_eq,
    Proc.initialized] at h
  exact h.1.1

theorem wakeup1_eq (procs : ProcIdx → Proc) (chan : Chan) (q : ProcIdx) :
    ∃ state, wakeup1 procs chan q = { procs q with state } ∧ state.kind = (procs q).state.kind := by
  refine ⟨(wakeup1 procs chan q).state, ?_, (wakeup1_woken procs chan q).kind⟩
  unfold wakeup1
  split <;> rfl

/-- The section of `exit` changes states and parents. -/
theorem Kernel.die_eq (p q : ProcIdx) (status : Int32) :
    ∃ state parent, s.die p status q = { s.procs q with state, parent } ∧
      (q ≠ p → state.kind = (s.procs q).state.kind) ∧
      (parent = (s.procs q).parent ∨ (s.procs q).state ≠ .unused) := by
  refine ⟨(s.die p status q).state, (s.die p status q).parent, ?_,
    fun hq => (Kernel.die_woken status hq).kind, ?_⟩
  · obtain ⟨state, hw, -⟩ := wakeup1_eq s.procs (s.parentChan p) q
    have hre : ∃ state parent, s.reparent p (wakeup1 s.procs (s.parentChan p)) q =
        { s.procs q with state, parent } := by
      unfold Kernel.reparent
      split
      · obtain ⟨state', hw', -⟩ := wakeup1_eq (fun r => if s.isChild p r then
          { wakeup1 s.procs (s.parentChan p) r with parent := some initProc }
          else wakeup1 s.procs (s.parentChan p) r) (.proc initProc) q
        rw [hw', hw]
        split <;> exact ⟨_, _, rfl⟩
      · dsimp only
        rw [hw]
        split <;> exact ⟨_, _, rfl⟩
    obtain ⟨state', parent', hre⟩ := hre
    by_cases hq : q = p
    · subst hq
      simp only [Kernel.die, Function.update_self]
      rw [hre]
    · rw [Kernel.die_other status hq, hre]
  · rw [Kernel.die_parent]
    split
    · next hchild => exact .inr (Kernel.not_unused_of_isChild hchild)
    · exact .inl rfl

variable [DecidableEq κ]

theorem Slots.step (h : Slots s) {a : Event κ} (hg : Spares s a) (hs : s.Step a s') : Slots s' := by
  have htree := h.tree.step hs
  have hused : ∀ {c p}, s.cpus c = some p → (s.procs p).state ≠ .unused := fun hc => by
    rw [h.tree.running.state _ _ hc]
    simp
  have hkind : ∀ {c p}, s.cpus c = some p → (s.procs p).state.kind = .alive := fun hc => by
    rw [h.tree.running.state _ _ hc]
    rfl
  have hself : ∀ p, s.phase = Function.update s.phase p (s.phase p) := fun p =>
    (Function.update_eq_self ..).symm
  -- a process gives up its processor
  have hstop : ∀ {c p state}, s.cpus c = some p → state.kind = .alive →
      Slot (s.phase p) { s.procs p with state } := fun hc hst =>
    (h.slot _).restate (hst.trans (hkind hc).symm) (.inl rfl)
  cases Move.of_step hs with
  | none => exact h
  | @forkFail c p np stack copy hc hp hnp hcopy =>
      have hclean := (h.slot np).clean (Kernel.state_freeProc hnp)
      -- the copy failed, so the pid left behind is 0
      have hzero : s.nextPid = 0 := by
        refine (hg p hc (by rw [hnp]; rfl)).resolve_left fun hc' => hcopy ⟨hc', ?_⟩
        exact ((h.slot p).pages (hused hc)).2
      refine h.one htree rfl (hself np) ⟨fun _ => ?_, fun hne => absurd rfl hne, fun _ => ?_⟩
      · exact ⟨hzero, hclean.parent, hclean.killed, hclean.size, rfl, hclean.pgtbl, hclean.files,
          hclean.cwd⟩
      · exact ⟨hclean.files, hclean.cwd⟩
  | @fork c p np stack cwd hc hp hnp hpg hcwd =>
      refine h.one htree rfl rfl ⟨fun he => (by cases he), fun _ => ⟨rfl, hpg⟩, fun hcl => ?_⟩
      rcases hcl with ⟨status, hst⟩ | hz
      · cases hst
      · cases hz
  | @exit c p status hc hp hne =>
      exact h.one htree rfl rfl ⟨fun he => absurd he (hused hc),
        fun _ => (h.slot p).pages (hused hc), fun _ => ⟨fun _ => rfl, rfl⟩⟩
  | @wait c p ptr hc hp _ =>
      exact h.one htree (Function.update_eq_self ..).symm rfl
        ((h.slot p).rephase fun _ he => by cases he)
  | @die c p status hc hp =>
      refine ⟨htree, fun q => ?_⟩
      obtain ⟨state, parent, heq, hkindq, hpar⟩ := Kernel.die_eq (s := s) p q status
      show Slot (s.phase q) (s.die p status q)
      by_cases hqp : q = p
      · subst hqp
        have hstate := (Kernel.die_self (s := s) q status).1
        have hclosed := (h.slot q).closed (.inl ⟨status, hp⟩)
        rw [heq] at hstate ⊢
        refine ⟨fun he => ?_, fun _ => (h.slot q).pages (hused hc), fun _ => hclosed⟩
        cases he.symm.trans hstate
      · rw [heq]
        exact (h.slot q).restate (hkindq hqp) hpar
  | @reap c p q ptr status stack mem hc hp hq hst hk hm =>
      have hqp : q ≠ p := by
        rintro rfl
        cases hst.symm.trans (h.tree.running.state c q hc)
      have hclosed := (h.slot q).closed (.inr (by rw [hst]; rfl))
      refine ⟨htree, fun r => ?_⟩
      by_cases hrp : r = p
      · subst hrp
        have hpages := (h.slot r).pages (hused hc)
        simp only [Kernel.setPhase, Kernel.setProc, Function.update_self,
          Function.update_of_ne (Ne.symm hqp)]
        refine ⟨fun he => absurd he (hused hc), fun _ => ⟨hpages.1, ?_⟩, fun hcl => ?_⟩
        · rw [Option.isSome_map]
          exact hpages.2
        · rcases hcl with ⟨status, he⟩ | hz
          · cases he
          · cases (hkind hc).symm.trans hz
      · simp only [Kernel.setPhase, Kernel.setProc, Function.update_of_ne hrp]
        by_cases hrq : r = q
        · subst hrq
          rw [Function.update_self]
          exact ⟨fun _ => ⟨rfl, rfl, rfl, rfl, rfl, rfl, hclosed.1, hclosed.2⟩,
            fun hne => absurd rfl hne, fun _ => hclosed⟩
        · rw [Function.update_of_ne hrq]
          exact h.slot r
  | @noChild c p ptr hc hp _ =>
      exact h.one htree (Function.update_eq_self ..).symm rfl
        ((h.slot p).rephase fun _ he => by cases he)
  | @waitSleep c p ptr hc hp _ => exact h.one htree rfl (hself p) (hstop hc rfl)
  | @sleep c p addr hc => exact h.one htree rfl (hself p) (hstop hc rfl)
  | @yield c p hc => exact h.one htree rfl (hself p) (hstop hc rfl)
  | @work c p mem size files cwd hc hp =>
      refine h.one htree rfl (hself p) ⟨fun he => absurd he (hused hc),
        fun hne => ⟨((h.slot p).pages hne).1, rfl⟩, fun hcl => ?_⟩
      rcases hcl with ⟨status, hst⟩ | hz
      · cases hp.symm.trans hst
      · cases (hkind hc).symm.trans hz
  | @kill pid q hq =>
      obtain ⟨state, hwoken, hmarked⟩ := (s.procs q).marked_eq
      have hpid : (s.procs q).pid = pid := by simpa using first_some hq
      -- a free slot has pid 0, and `kill(0)` has not come upon one
      have hne : (s.procs q).state ≠ .unused := by
        intro hfree
        have hzero : pid = 0 := hpid.symm.trans ((h.slot q).clean hfree).pid
        exact hg hzero q hq hfree
      refine h.one htree rfl (hself q) ?_
      rw [hmarked]
      refine ⟨fun he => ?_, fun _ => (h.slot q).pages hne, fun hcl => ?_⟩
      · refine absurd ?_ hne
        rw [← ProcState.kind_unused, ← hwoken.kind, ProcState.kind_unused]
        exact he
      · exact (h.slot q).closed (hcl.imp_right fun hz => hwoken.kind.symm.trans hz)
  | @wakeup addr =>
      refine ⟨htree, fun q => ?_⟩
      obtain ⟨state, heq, hkindq⟩ := wakeup1_eq s.procs (.other addr) q
      show Slot (s.phase q) (wakeup1 s.procs (.other addr) q)
      rw [heq]
      exact (h.slot q).restate hkindq (.inl rfl)
  | @schedule c p hc hp =>
      refine h.one htree rfl (hself p) ((h.slot p).restate ?_ (.inl rfl))
      rw [hp]
      rfl

omit [DecidableEq κ] in
theorem Kernel.Init.slots (h : s.Init) : Slots s := by
  obtain ⟨stack, mem, hinit⟩ := h.first
  refine ⟨h.tree, fun p => ?_⟩
  rw [h.phase]
  by_cases hp : p = initProc
  · rw [hp, hinit]
    exact ⟨fun he => (by cases he), fun _ => ⟨rfl, rfl⟩, fun _ => ⟨fun _ => rfl, rfl⟩⟩
  · rw [h.others p hp]
    exact ⟨fun _ => ⟨rfl, rfl, rfl, rfl, rfl, rfl, fun _ => rfl, rfl⟩, fun hne => absurd rfl hne,
      fun _ => ⟨fun _ => rfl, rfl⟩⟩

/-- A slot comes into use in a `fork`, as `alloc` found it. -/
theorem Slots.starts (h : Slots s) {a : Event κ} (hs : s.Step a s') {q : ProcIdx}
    (hfree : (s.procs q).state = .unused) (hne : (s'.procs q).state ≠ .unused) :
    (s'.procs q).killed = (s.procs q).killed := by
  have hnot : ∀ {p : ProcIdx}, (s.procs p).state ≠ .unused → q ≠ p := by
    rintro p hp rfl
    exact hp hfree
  have hrunning : ∀ {c p}, s.cpus c = some p → q ≠ p := fun hc =>
    hnot (by rw [h.tree.running.state _ _ hc]; simp)
  have hother : ∀ {p : ProcIdx} {pr : Proc}, q ≠ p →
      (Function.update s.procs p pr q).state = .unused := fun hqp => by
    rw [Function.update_of_ne hqp]
    exact hfree
  have hwoken : ∀ {st}, Woken (s.procs q).state st → st = .unused := fun hw => by
    rw [← ProcState.kind_unused, hw.kind, ProcState.kind_unused]
    exact hfree
  cases Move.of_step hs with
  | none => exact absurd hfree hne
  | @forkFail c p np stack copy hc hp hnp _ =>
      refine absurd ?_ hne
      show (Function.update s.procs np _ q).state = .unused
      by_cases hq : q = np
      · rw [hq, Function.update_self]
      · exact hother hq
  | @fork c p np stack cwd hc hp hnp _ _ =>
      by_cases hq : q = np
      · subst hq
        simp [Kernel.setProc, forked]
      · exact absurd (hother hq) hne
  | exit hc => exact absurd (hother (hrunning hc)) hne
  | wait => exact absurd hfree hne
  | @die c p status hc hp => exact absurd (hwoken (Kernel.die_woken status (hrunning hc))) hne
  | @reap c p q' ptr status stack mem hc hp hq' hst _ _ =>
      have hqq : q ≠ q' := hnot (by rw [hst]; simp)
      refine absurd ?_ hne
      simp [Kernel.setProc, Kernel.setPhase, Function.update_of_ne (hrunning hc), hqq, hfree]
  | noChild => exact absurd hfree hne
  | waitSleep hc => exact absurd (hother (hrunning hc)) hne
  | sleep hc => exact absurd (hother (hrunning hc)) hne
  | yield hc => exact absurd (hother (hrunning hc)) hne
  | work hc => exact absurd (hother (hrunning hc)) hne
  | @kill pid r hr =>
      obtain ⟨state, hw, hmarked⟩ := (s.procs r).marked_eq
      refine absurd ?_ hne
      show (Function.update s.procs r (s.procs r).marked q).state = .unused
      by_cases hqr : q = r
      · subst hqr
        rw [Function.update_self, hmarked]
        exact hwoken hw
      · exact hother hqr
  | wakeup => exact absurd (hwoken (wakeup1_woken ..)) hne
  | schedule hc hp => exact absurd (hother (hnot (by rw [hp]; simp))) hne

/-- **Free slots are clean** in a run without the two accidents. Then the
process that `kill` marks is in use and has the pid, and a process starts
unkilled. -/
theorem free_slots_clean (h : Reach Kernel.Init (Guarded Spares Kernel.Step) s) :
    (∀ p, (s.procs p).state = .unused → Clean (s.procs p)) ∧
    (∀ pid q, Spares s (.kill pid) → s.target pid = some q →
      (s.procs q).state ≠ .unused ∧ (s.procs q).pid = pid) ∧
    (∀ a s' q, s.Step a s' → (s.procs q).state = .unused → (s'.procs q).state ≠ .unused →
      (s'.procs q).killed = false) := by
  have hslots : Slots s :=
    Reach.invariant (I := Slots) (fun _ hs => hs.slots) (fun _ _ _ hi hs => hi.step hs.1 hs.2) h
  refine ⟨fun p => (hslots.slot p).clean, fun pid q hg hq => ?_, fun a s' q hs hfree hne => ?_⟩
  · have hpid : (s.procs q).pid = pid := by simpa using first_some hq
    refine ⟨fun hfree => ?_, hpid⟩
    exact hg (hpid.symm.trans ((hslots.slot q).clean hfree).pid) q hq hfree
  · rw [hslots.starts hs hfree hne]
    exact ((hslots.slot q).clean hfree).killed

end Slots

/-- The first child: `init` forks it and it is killed, exits and is waited for. -/
def firstChild : List (Event Unit) :=
  [.schedule () 0, .on () (.work (fun _ => 0) 4096 (fun _ => none) (some 1)),
    .on () (.fork (some 8) true), .kill 2, .on () .yield, .schedule () 1, .on () (.exit 5),
    .on () .run, .schedule () 0, .on () (.wait 8), .on () .run]

/-- The slot of the first child is clean when it has been waited for, and the
next child that gets it is not killed. -/
theorem free_slots_clean_child :
    ∃ s s' : Kernel Unit, Reach Kernel.Init (Guarded Spares Kernel.Step) s ∧
      s.waits.map Returned.pid = [2] ∧ (s.procs 1).state = .unused ∧ Clean (s.procs 1) ∧
      s.Step (.on () (.fork (some 8) true)) s' ∧ (s'.procs 1).state = .runnable ∧
      (s'.procs 1).killed = false := by
  have hrun : ((replay (guarded Spares Kernel.step) booted firstChild).bind fun s =>
      (s.step (.on () (.fork (some 8) true))).map fun s' =>
        (s.waits.map Returned.pid, (s.procs 1).state, (s'.procs 1).state)) =
      some ([2], .unused, .runnable) := by decide +kernel
  obtain ⟨s, hs, hrun⟩ := Option.bind_eq_some_iff.mp hrun
  obtain ⟨s', hs', hall⟩ := Option.map_eq_some_iff.mp hrun
  simp only [Prod.mk.injEq] at hall
  obtain ⟨hwaits, hfree, hnew⟩ := hall
  have hreach : Reach Kernel.Init (Guarded Spares Kernel.Step) s :=
    (Reach.init init_booted).replay (guarded_step fun _ _ _ h => h) hs
  obtain ⟨hclean, -, hstarts⟩ := free_slots_clean hreach
  exact ⟨s, s', hreach, hwaits, hfree, hclean 1 hfree, hs', hnew,
    hstarts _ s' 1 hs' hfree (by rw [hnew]; simp)⟩

/-- A `fork` that cannot copy the page table leaves its pid in the free slot,
where `kill` finds it. -/
theorem free_slot_keeps_pid :
    ∃ s : Kernel Unit, Reach Kernel.Init Kernel.Step s ∧ (s.procs 1).state = .unused ∧
      ¬Clean (s.procs 1) ∧ s.target 2 = some 1 := by
  obtain ⟨s, hs, hc, hp, hnp, -, -, hpid, hnext, -⟩ := reach_ready
  obtain ⟨s', hstep, hprocs⟩ : ∃ s', s.Step (.on () (.fork (some 8) false)) s' ∧
      s'.procs = Function.update s.procs 1
        { s.procs 1 with state := .unused, kstack := none, pid := s.nextPid } := by
    simp only [Kernel.Step, Kernel.step, hc, Kernel.act, hp, if_true, Kernel.fork, hnp,
      Bool.false_eq_true, false_and, if_false]
    refine ⟨_, rfl, ?_⟩
    simp only [Kernel.initProcSlot, Kernel.setProc, Function.update_self, Function.update_idem]
  have h₁ : (s'.procs 1).pid = 2 := by
    rw [hprocs, Function.update_self]
    exact hnext
  have h₀ : (s'.procs 0).pid = 1 := by
    rw [hprocs, Function.update_of_ne (by decide)]
    exact hpid
  refine ⟨s', hs.step hstep, by rw [hprocs, Function.update_self], fun hclean => ?_, ?_⟩
  · cases h₁.symm.trans hclean.pid
  · unfold Kernel.target
    rw [first_succ (by rw [h₀]; decide), first_zero (by simpa using h₁)]
    rfl

end Rxv64.Procs
