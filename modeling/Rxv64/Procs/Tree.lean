import Rxv64.Procs.Table

/-!
# Procs.Tree — who is whose parent

Every process in use has a parent that can wait for it, and nobody sleeps in
`wait` while there is something to wait for. The proof goes by what a step does
to the kind of a process (unused, alive, zombie), to its parent and to sleepers
on a process.
-/

namespace Rxv64.Procs

open Scan Runs

/-- States as far as the tree tells them apart. -/
inductive Kind where
  | unused | embryo | alive | zombie
  deriving DecidableEq

def ProcState.kind : ProcState → Kind
  | .unused => .unused
  | .embryo => .embryo
  | .sleeping _ | .runnable | .running => .alive
  | .zombie _ => .zombie

theorem ProcState.isZombie_iff {st : ProcState} : st.isZombie = true ↔ st.kind = .zombie := by
  cases st <;> simp [isZombie, kind]

theorem ProcState.kind_unused {st : ProcState} : st.kind = .unused ↔ st = .unused := by
  cases st <;> simp [kind]

/-! ## Waking up -/

/-- The state is the same, or a sleeper has been woken. -/
def Woken (a b : ProcState) : Prop := b = a ∨ ((∃ chan, a = .sleeping chan) ∧ b = .runnable)

theorem Woken.kind {a b : ProcState} (h : Woken a b) : b.kind = a.kind := by
  rcases h with rfl | ⟨⟨chan, rfl⟩, rfl⟩ <;> rfl

theorem Woken.trans {a b c : ProcState} (h : Woken a b) (h' : Woken b c) : Woken a c := by
  rcases h with rfl | ⟨hs, rfl⟩
  · exact h'
  · rcases h' with rfl | ⟨⟨chan, he⟩, -⟩
    · exact .inr ⟨hs, rfl⟩
    · cases he

theorem Woken.sleeping {a : ProcState} {chan : Chan} (h : Woken a (.sleeping chan)) :
    a = .sleeping chan := by
  rcases h with h | ⟨-, h⟩
  · exact h.symm
  · cases h

theorem Woken.running {a b : ProcState} (h : Woken a b) : b = .running ↔ a = .running := by
  rcases h with rfl | ⟨⟨chan, rfl⟩, rfl⟩
  · rfl
  · simp

theorem Woken.zombie {a b : ProcState} (h : Woken a b) (ha : a.kind = .zombie) : b = a := by
  rcases h with rfl | ⟨⟨chan, rfl⟩, -⟩
  · rfl
  · cases ha

theorem wakeup1_parent (procs : ProcIdx → Proc) (chan : Chan) (q : ProcIdx) :
    (wakeup1 procs chan q).parent = (procs q).parent := by
  unfold wakeup1
  split <;> rfl

theorem wakeup1_woken (procs : ProcIdx → Proc) (chan : Chan) (q : ProcIdx) :
    Woken (procs q).state (wakeup1 procs chan q).state := by
  unfold wakeup1
  split
  · next h => exact .inr ⟨⟨chan, h⟩, rfl⟩
  · exact .inl rfl

theorem wakeup1_ne (procs : ProcIdx → Proc) (chan : Chan) (q : ProcIdx) :
    (wakeup1 procs chan q).state ≠ .sleeping chan := by
  unfold wakeup1
  split
  · simp
  · next h => exact h

/-- `kill` changes nothing else. -/
theorem Proc.marked_eq (pr : Proc) :
    ∃ state, Woken pr.state state ∧ pr.marked = { pr with killed := true, state } := by
  unfold Proc.marked
  split
  · next chan h => exact ⟨.runnable, .inr ⟨⟨chan, h⟩, rfl⟩, rfl⟩
  · exact ⟨pr.state, .inl rfl, rfl⟩

section Tree

variable {κ : Type} {s s' : Kernel κ}

/-! ## Processors -/

/-- The running processes are those on the processors. -/
structure Running (s : Kernel κ) : Prop where
  state : ∀ c p, s.cpus c = some p → (s.procs p).state = .running
  cpu : ∀ p, (s.procs p).state = .running → ∃ c, s.cpus c = some p
  one : ∀ c c' p, s.cpus c = some p → s.cpus c' = some p → c = c'

theorem Running.keep (h : Running s) (hcpus : s'.cpus = s.cpus)
    (hstate : ∀ p, (s'.procs p).state = .running ↔ (s.procs p).state = .running) : Running s' := by
  refine ⟨fun c p hc => ?_, fun p hp => ?_, fun c c' p hc hc' => ?_⟩
  · rw [hcpus] at hc
    exact (hstate p).mpr (h.state c p hc)
  · rw [hcpus]
    exact h.cpu p ((hstate p).mp hp)
  · rw [hcpus] at hc hc'
    exact h.one c c' p hc hc'

variable [DecidableEq κ]

theorem Running.stop (h : Running s) {c : κ} {p : ProcIdx} (hc : s.cpus c = some p)
    (hcpus : s'.cpus = Function.update s.cpus c none) (hp : (s'.procs p).state ≠ .running)
    (hstate : ∀ q, q ≠ p → ((s'.procs q).state = .running ↔ (s.procs q).state = .running)) :
    Running s' := by
  have hold : ∀ d q, s'.cpus d = some q → s.cpus d = some q ∧ q ≠ p := by
    intro d q hd
    rw [hcpus] at hd
    by_cases hdc : d = c
    · rw [hdc, Function.update_self] at hd
      cases hd
    · rw [Function.update_of_ne hdc] at hd
      refine ⟨hd, ?_⟩
      rintro rfl
      exact hdc (h.one d c q hd hc)
  refine ⟨fun d q hd => ?_, fun q hq => ?_, fun d d' q hd hd' => ?_⟩
  · obtain ⟨hd, hqp⟩ := hold d q hd
    exact (hstate q hqp).mpr (h.state d q hd)
  · have hqp : q ≠ p := by
      rintro rfl
      exact hp hq
    obtain ⟨d, hd⟩ := h.cpu q ((hstate q hqp).mp hq)
    have hdc : d ≠ c := by
      rintro rfl
      exact hqp (Option.some.inj (hd.symm.trans hc))
    exact ⟨d, by rw [hcpus, Function.update_of_ne hdc]; exact hd⟩
  · exact h.one d d' q (hold d q hd).1 (hold d' q hd').1

theorem Running.schedule (h : Running s) {c : κ} {p : ProcIdx} (hc : s.cpus c = none)
    (hp : (s.procs p).state ≠ .running) (hcpus : s'.cpus = Function.update s.cpus c (some p))
    (hp' : (s'.procs p).state = .running)
    (hstate : ∀ q, q ≠ p → ((s'.procs q).state = .running ↔ (s.procs q).state = .running)) :
    Running s' := by
  have hnone : ∀ d, s.cpus d ≠ some p := fun d hd => hp (h.state d p hd)
  have hold : ∀ d q, s'.cpus d = some q → (d = c ∧ q = p) ∨ (s.cpus d = some q ∧ q ≠ p) := by
    intro d q hd
    rw [hcpus] at hd
    by_cases hdc : d = c
    · rw [hdc, Function.update_self] at hd
      exact .inl ⟨hdc, (Option.some.inj hd).symm⟩
    · rw [Function.update_of_ne hdc] at hd
      refine .inr ⟨hd, ?_⟩
      rintro rfl
      exact hnone d hd
  refine ⟨fun d q hd => ?_, fun q hq => ?_, fun d d' q hd hd' => ?_⟩
  · rcases hold d q hd with ⟨-, rfl⟩ | ⟨hd, hqp⟩
    · exact hp'
    · exact (hstate q hqp).mpr (h.state d q hd)
  · by_cases hqp : q = p
    · exact ⟨c, by rw [hcpus, Function.update_self, hqp]⟩
    · obtain ⟨d, hd⟩ := h.cpu q ((hstate q hqp).mp hq)
      have hdc : d ≠ c := by
        rintro rfl
        rw [hc] at hd
        cases hd
      exact ⟨d, by rw [hcpus, Function.update_of_ne hdc]; exact hd⟩
  · rcases hold d q hd with ⟨rfl, rfl⟩ | ⟨hd, hqp⟩ <;>
      rcases hold d' _ hd' with ⟨rfl, hq⟩ | ⟨hd', hqp'⟩
    · rfl
    · exact absurd rfl hqp'
    · exact absurd hq hqp
    · exact h.one d d' q hd hd'

/-! ## The tree -/

structure Tree (s : Kernel κ) : Prop where
  running : Running s
  embryo : ∀ p, (s.procs p).state.kind ≠ .embryo
  init : (s.procs initProc).state.kind = .alive
  parent : ∀ p, (s.procs p).state.kind ≠ .unused →
    ∃ q, (s.procs p).parent = some q ∧ (s.procs q).state.kind = .alive
  self : ∀ p, (s.procs p).parent = some p → p = initProc
  asleep : ∀ p q, (s.procs p).state = .sleeping (.proc q) →
    q = p ∧ ∀ r, (s.procs r).parent = some p → (s.procs r).state.kind ≠ .zombie
  exiting : ∀ p status, s.phase p = .exiting status → p ≠ initProc

omit [DecidableEq κ] in
/-- Parents and kinds stay as they are. -/
theorem Tree.frame (h : Tree s) (hrun : Running s')
    (hpar : ∀ q, (s'.procs q).parent = (s.procs q).parent)
    (hkind : ∀ q, (s'.procs q).state.kind = (s.procs q).state.kind)
    (hsleep : ∀ p q, (s'.procs p).state = .sleeping (.proc q) →
      q = p ∧ ∀ r, (s.procs r).parent = some p → (s.procs r).state.kind ≠ .zombie)
    (hphase : ∀ p status, s'.phase p = .exiting status → p ≠ initProc) : Tree s' := by
  refine ⟨hrun, fun p => ?_, ?_, fun p hp => ?_, fun p hp => ?_, fun p q hp => ?_, hphase⟩
  · rw [hkind]
    exact h.embryo p
  · rw [hkind]
    exact h.init
  · rw [hkind] at hp
    obtain ⟨q, hq, halive⟩ := h.parent p hp
    exact ⟨q, (hpar p).trans hq, (hkind q).trans halive⟩
  · exact h.self p ((hpar p).symm.trans hp)
  · obtain ⟨rfl, hnone⟩ := hsleep p q hp
    refine ⟨rfl, fun r hr => ?_⟩
    rw [hpar] at hr
    rw [hkind]
    exact hnone r hr

omit [DecidableEq κ] in
/-- One process changes, and neither its parent nor its kind. -/
theorem Tree.one (h : Tree s) {p : ProcIdx} {pr : Proc} (hrun : Running s')
    (hprocs : s'.procs = Function.update s.procs p pr) (hpar : pr.parent = (s.procs p).parent)
    (hkind : pr.state.kind = (s.procs p).state.kind)
    (hsleep : ∀ q, pr.state = .sleeping (.proc q) →
      q = p ∧ ∀ r, (s.procs r).parent = some p → (s.procs r).state.kind ≠ .zombie)
    (hphase : ∀ p status, s'.phase p = .exiting status → p ≠ initProc) : Tree s' := by
  have hself : s'.procs p = pr := by rw [hprocs, Function.update_self]
  have hother : ∀ q, q ≠ p → s'.procs q = s.procs q := fun q hq => by
    rw [hprocs, Function.update_of_ne hq]
  refine h.frame hrun (fun q => ?_) (fun q => ?_) (fun q x hq => ?_) hphase
  · by_cases hqp : q = p
    · rw [hqp, hself, hpar]
    · rw [hother q hqp]
  · by_cases hqp : q = p
    · rw [hqp, hself, hkind]
    · rw [hother q hqp]
  · by_cases hqp : q = p
    · subst hqp
      rw [hself] at hq
      exact hsleep x hq
    · rw [hother q hqp] at hq
      exact h.asleep q x hq

/-! ## Becoming a zombie -/

omit [DecidableEq κ] in
theorem Kernel.reparent_parent (p q : ProcIdx) (procs : ProcIdx → Proc) :
    (s.reparent p procs q).parent =
      if s.isChild p q then some initProc else (procs q).parent := by
  unfold Kernel.reparent
  split
  · rw [wakeup1_parent]
    split <;> rfl
  · dsimp only
    split <;> rfl

omit [DecidableEq κ] in
theorem Kernel.reparent_woken (p q : ProcIdx) (procs : ProcIdx → Proc) :
    Woken (procs q).state (s.reparent p procs q).state := by
  have hsame : ∀ r, (if s.isChild p r then { procs r with parent := some initProc }
      else procs r).state = (procs r).state := by
    intro r
    split <;> rfl
  unfold Kernel.reparent
  split
  · have := wakeup1_woken
      (fun r => if s.isChild p r then { procs r with parent := some initProc } else procs r)
      (.proc initProc) q
    rwa [hsame] at this
  · exact .inl (hsame q)

omit [DecidableEq κ] in
/-- A zombie that goes to `init` finds it awake. -/
theorem Kernel.reparent_ne {p q r : ProcIdx} {procs : ProcIdx → Proc}
    (hchild : s.isChild p r = true) (hz : (s.procs r).state.kind = .zombie) :
    (s.reparent p procs q).state ≠ .sleeping (.proc initProc) := by
  have horphan : (s.zombieChild p).isSome = true := by
    by_contra hn
    have := first_none (Option.not_isSome_iff_eq_none.mp hn) r
    rw [hchild, ProcState.isZombie_iff.mpr hz] at this
    cases this
  unfold Kernel.reparent
  rw [if_pos horphan]
  exact wakeup1_ne _ _ q

omit [DecidableEq κ] in
theorem Kernel.die_self (p : ProcIdx) (status : Int32) :
    (s.die p status p).state = .zombie status ∧
      (s.die p status p).parent = if s.isChild p p then some initProc else (s.procs p).parent := by
  simp only [Kernel.die, Function.update_self, Kernel.reparent_parent, wakeup1_parent, and_self]

omit [DecidableEq κ] in
/-- What the section of `exit` does to another process. -/
theorem Kernel.die_other {p q : ProcIdx} (status : Int32) (hq : q ≠ p) :
    s.die p status q = s.reparent p (wakeup1 s.procs (s.parentChan p)) q :=
  Function.update_of_ne hq ..

omit [DecidableEq κ] in
theorem Kernel.die_woken {p q : ProcIdx} (status : Int32) (hq : q ≠ p) :
    Woken (s.procs q).state (s.die p status q).state := by
  rw [Kernel.die_other status hq]
  exact (wakeup1_woken ..).trans (Kernel.reparent_woken ..)

omit [DecidableEq κ] in
theorem Kernel.die_parent (p q : ProcIdx) (status : Int32) :
    (s.die p status q).parent = if s.isChild p q then some initProc else (s.procs q).parent := by
  by_cases hq : q = p
  · subst hq
    exact (Kernel.die_self q status).2
  · rw [Kernel.die_other status hq, Kernel.reparent_parent, wakeup1_parent]

/-- A process other than `init` becomes a zombie. -/
theorem Tree.die (h : Tree s) {c : κ} {p : ProcIdx} {status : Int32} (hc : s.cpus c = some p)
    (hp : s.phase p = .exiting status) :
    Tree { s with procs := s.die p status, cpus := Function.update s.cpus c none } := by
  have hpinit : p ≠ initProc := h.exiting p status hp
  have hpstate : (s.procs p).state = .running := h.running.state c p hc
  have hkind : ∀ q, q ≠ p → (s.die p status q).state.kind = (s.procs q).state.kind := fun q hq =>
    (Kernel.die_woken status hq).kind
  obtain ⟨par, hpar, hparalive⟩ := h.parent p (by rw [hpstate]; simp [ProcState.kind])
  have hnotself : s.isChild p p = false := by
    by_contra hn
    simp only [Kernel.isChild, Bool.decide_and, Bool.not_eq_false, Bool.and_eq_true,
      decide_eq_true_eq] at hn
    exact hpinit (h.self p hn.2)
  refine ⟨?_, fun q => ?_, ?_, fun q hq => ?_, fun q hq => ?_, fun q x hq => ?_, h.exiting⟩
  · refine h.running.stop hc rfl ?_ fun q hq => (Kernel.die_woken status hq).running
    show (s.die p status p).state ≠ .running
    rw [(Kernel.die_self p status).1]
    simp
  · by_cases hqp : q = p
    · subst hqp
      show (s.die q status q).state.kind ≠ .embryo
      rw [(Kernel.die_self q status).1]
      simp [ProcState.kind]
    · exact fun he => h.embryo q ((hkind q hqp).symm.trans he)
  · exact (hkind initProc (Ne.symm hpinit)).trans h.init
  · show ∃ x, (s.die p status q).parent = some x ∧ (s.die p status x).state.kind = .alive
    rw [Kernel.die_parent]
    split
    · exact ⟨initProc, rfl, (hkind initProc (Ne.symm hpinit)).trans h.init⟩
    · next hnot =>
        have hused : (s.procs q).state.kind ≠ .unused := by
          by_cases hqp : q = p
          · rw [hqp, hpstate]
            simp [ProcState.kind]
          · exact fun he => hq ((hkind q hqp).trans he)
        obtain ⟨x, hx, halive⟩ := h.parent q hused
        -- a process whose parent is `p` is one of the children
        have hxp : x ≠ p := by
          rintro rfl
          refine hnot ?_
          have hinit : (s.procs q).initialized = true := by
            have hemb := h.embryo q
            simp only [Proc.initialized, ne_eq, decide_eq_true_eq]
            exact ⟨fun he => hused (by rw [he]; rfl), fun he => hemb (by rw [he]; rfl)⟩
          simp [Kernel.isChild, hinit, hx]
        exact ⟨x, hx, (hkind x hxp).trans halive⟩
  · have hq : (s.die p status q).parent = some q := hq
    rw [Kernel.die_parent] at hq
    split at hq
    · exact (Option.some.inj hq).symm
    · exact h.self q hq
  · have hqp : q ≠ p := by
      rintro rfl
      have hq : (s.die q status q).state = .sleeping (.proc x) := hq
      rw [(Kernel.die_self q status).1] at hq
      cases hq
    have hwoken := Kernel.die_woken (s := s) status hqp
    have hq : (s.die p status q).state = .sleeping (.proc x) := hq
    rw [hq] at hwoken
    obtain ⟨rfl, hnone⟩ := h.asleep q x hwoken.sleeping
    refine ⟨rfl, fun r hr hz => ?_⟩
    have hr : (s.die p status r).parent = some x := hr
    rw [Kernel.die_parent] at hr
    rw [Kernel.die_other status hqp] at hq
    by_cases hrp : r = p
    · -- the parent of `p` has been woken
      subst hrp
      rw [hnotself] at hr
      have hr : (s.procs r).parent = some x := hr
      have hmid := Kernel.reparent_woken (s := s) r x (wakeup1 s.procs (s.parentChan r))
      rw [hq] at hmid
      have hawake := wakeup1_ne s.procs (s.parentChan r) x
      simp only [Kernel.parentChan, hr] at hmid hawake
      exact hawake hmid.sleeping
    · have hz : (s.procs r).state.kind = .zombie := (hkind r hrp).symm.trans hz
      split at hr
      · next hchild =>
          cases hr
          exact Kernel.reparent_ne hchild hz hq
      · exact hnone r hr hz

omit [DecidableEq κ] in
theorem Kernel.state_freeProc {np : ProcIdx} (h : s.freeProc = some np) :
    (s.procs np).state = .unused := by
  have := first_some h
  simpa using this

omit [DecidableEq κ] in
/-- The zombie that `wait1` finds. -/
theorem Kernel.zombieChild_some {p q : ProcIdx} (h : s.zombieChild p = some q) :
    (s.procs q).parent = some p ∧ (s.procs q).state.kind = .zombie := by
  have := first_some h
  simp only [Kernel.isChild, Bool.decide_and, Bool.and_eq_true, decide_eq_true_eq] at this
  exact ⟨this.1.2, ProcState.isZombie_iff.mp this.2⟩

omit [DecidableEq κ] in
theorem Kernel.zombieChild_none {p r : ProcIdx} (h : s.zombieChild p = none)
    (hr : (s.procs r).parent = some p) : (s.procs r).state.kind ≠ .zombie := by
  intro hz
  have := first_none h r
  have hinit : (s.procs r).initialized = true := by
    simp only [Proc.initialized, ne_eq, decide_eq_true_eq]
    exact ⟨fun he => (by rw [he] at hz; cases hz), fun he => (by rw [he] at hz; cases hz)⟩
  simp [Kernel.isChild, hinit, hr, ProcState.isZombie_iff.mpr hz] at this

omit [DecidableEq κ] in
/-- A new child of a process that runs. -/
theorem Tree.fork (h : Tree s) {p np : ProcIdx} {pr : Proc} (hp : (s.procs p).state = .running)
    (hnp : (s.procs np).state = .unused) (hprocs : s'.procs = Function.update s.procs np pr)
    (hpar : pr.parent = some p) (hstate : pr.state = .runnable) (hcpus : s'.cpus = s.cpus)
    (hphase : s'.phase = Function.update s.phase np .user) : Tree s' := by
  have hself : s'.procs np = pr := by rw [hprocs, Function.update_self]
  have hother : ∀ q, q ≠ np → s'.procs q = s.procs q := fun q hq => by
    rw [hprocs, Function.update_of_ne hq]
  have hne : p ≠ np := by
    rintro rfl
    rw [hp] at hnp
    cases hnp
  -- nobody alive changes
  have halive : ∀ q, (s.procs q).state.kind = .alive → (s'.procs q).state.kind = .alive := by
    intro q hq
    rw [hother q]
    · exact hq
    · rintro rfl
      rw [hnp] at hq
      cases hq
  refine ⟨h.running.keep hcpus fun q => ?_, fun q => ?_, halive _ h.init, fun q hq => ?_,
    fun q hq => ?_, fun q x hq => ?_, fun q status hq => ?_⟩
  · by_cases hqn : q = np
    · rw [hqn, hself, hstate, hnp]
      simp
    · rw [hother q hqn]
  · by_cases hqn : q = np
    · rw [hqn, hself, hstate]
      simp [ProcState.kind]
    · rw [hother q hqn]
      exact h.embryo q
  · by_cases hqn : q = np
    · exact ⟨p, by rw [hqn, hself, hpar], halive p (by rw [hp]; rfl)⟩
    · rw [hother q hqn] at hq ⊢
      obtain ⟨x, hx, hxa⟩ := h.parent q hq
      exact ⟨x, hx, halive x hxa⟩
  · by_cases hqn : q = np
    · rw [hqn, hself, hpar] at hq
      exact absurd (Option.some.inj hq) hne
    · rw [hother q hqn] at hq
      exact h.self q hq
  · have hqn : q ≠ np := by
      rintro rfl
      rw [hself, hstate] at hq
      cases hq
    rw [hother q hqn] at hq
    obtain ⟨rfl, hnone⟩ := h.asleep q x hq
    refine ⟨rfl, fun r hr => ?_⟩
    by_cases hrn : r = np
    · rw [hrn, hself, hstate]
      simp [ProcState.kind]
    · rw [hother r hrn] at hr ⊢
      exact hnone r hr
  · rw [hphase] at hq
    by_cases hqn : q = np
    · rw [hqn, Function.update_self] at hq
      cases hq
    · rw [Function.update_of_ne hqn] at hq
      exact h.exiting q status hq

omit [DecidableEq κ] in
/-- A zombie leaves the table. -/
theorem Tree.reap (h : Tree s) {p q : ProcIdx} {pr : Proc} (hp : (s.procs p).state = .running)
    (hz : (s.procs q).state.kind = .zombie)
    (hprocs : s'.procs = Function.update (Function.update s.procs q (Kernel.reaped (s.procs q))) p pr)
    (hpar : pr.parent = (s.procs p).parent) (hstate : pr.state = .running)
    (hcpus : s'.cpus = s.cpus) (hphase : s'.phase = Function.update s.phase p .user) : Tree s' := by
  have hqp : q ≠ p := by
    rintro rfl
    rw [hp] at hz
    cases hz
  have hselfp : s'.procs p = pr := by rw [hprocs, Function.update_self]
  have hselfq : s'.procs q = Kernel.reaped (s.procs q) := by
    rw [hprocs, Function.update_of_ne hqp, Function.update_self]
  have hother : ∀ r, r ≠ p → r ≠ q → s'.procs r = s.procs r := fun r hrp hrq => by
    rw [hprocs, Function.update_of_ne hrp, Function.update_of_ne hrq]
  have hsame : ∀ r, r ≠ q → (s'.procs r).state = (s.procs r).state ∧
      (s'.procs r).parent = (s.procs r).parent := by
    intro r hrq
    by_cases hrp : r = p
    · rw [hrp, hselfp, hstate, hp, hpar]
      exact ⟨rfl, rfl⟩
    · rw [hother r hrp hrq]
      exact ⟨rfl, rfl⟩
  have halive : ∀ r, (s.procs r).state.kind = .alive → (s'.procs r).state.kind = .alive := by
    intro r hr
    rw [(hsame r ?_).1]
    · exact hr
    · rintro rfl
      rw [hz] at hr
      cases hr
  refine ⟨h.running.keep hcpus fun r => ?_, fun r => ?_, halive _ h.init, fun r hr => ?_,
    fun r hr => ?_, fun r x hr => ?_, fun r status hr => ?_⟩
  · by_cases hrq : r = q
    · rw [hrq, hselfq]
      refine iff_of_false (by simp [Kernel.reaped]) fun he => ?_
      rw [he] at hz
      cases hz
    · rw [(hsame r hrq).1]
  · by_cases hrq : r = q
    · rw [hrq, hselfq]
      simp [Kernel.reaped, ProcState.kind]
    · rw [(hsame r hrq).1]
      exact h.embryo r
  · have hrq : r ≠ q := by
      rintro rfl
      rw [hselfq] at hr
      exact hr rfl
    rw [(hsame r hrq).1] at hr
    obtain ⟨x, hx, hxa⟩ := h.parent r hr
    exact ⟨x, by rw [(hsame r hrq).2, hx], halive x hxa⟩
  · have hrq : r ≠ q := by
      rintro rfl
      rw [hselfq] at hr
      cases hr
    rw [(hsame r hrq).2] at hr
    exact h.self r hr
  · have hrq : r ≠ q := by
      rintro rfl
      rw [hselfq] at hr
      cases hr
    rw [(hsame r hrq).1] at hr
    obtain ⟨rfl, hnone⟩ := h.asleep r x hr
    refine ⟨rfl, fun y hy => ?_⟩
    by_cases hyq : y = q
    · rw [hyq, hselfq]
      simp [Kernel.reaped, ProcState.kind]
    · rw [(hsame y hyq).1]
      rw [(hsame y hyq).2] at hy
      exact hnone y hy
  · rw [hphase] at hr
    by_cases hrp : r = p
    · rw [hrp, Function.update_self] at hr
      cases hr
    · rw [Function.update_of_ne hrp] at hr
      exact h.exiting r status hr

omit [DecidableEq κ] in
/-- A change of one process that is in no critical section of its own. -/
theorem Tree.stay (h : Tree s) {p : ProcIdx} {pr : Proc}
    (hprocs : s'.procs = Function.update s.procs p pr) (hpar : pr.parent = (s.procs p).parent)
    (hwoken : Woken (s.procs p).state pr.state) (hcpus : s'.cpus = s.cpus)
    (hphase : ∀ p status, s'.phase p = .exiting status → p ≠ initProc) : Tree s' := by
  refine h.one (h.running.keep hcpus fun q => ?_) hprocs hpar hwoken.kind (fun q hq => ?_) hphase
  · by_cases hqp : q = p
    · rw [hprocs, hqp, Function.update_self]
      exact hwoken.running
    · rw [hprocs, Function.update_of_ne hqp]
  · rw [hq] at hwoken
    exact h.asleep p q hwoken.sleeping

/-- A process gives up its processor. -/
theorem Tree.stop (h : Tree s) {c : κ} {p : ProcIdx} {state : ProcState} (hc : s.cpus c = some p)
    (hkind : state.kind = .alive) (hne : state ≠ .running)
    (hsleep : ∀ q, state = .sleeping (.proc q) →
      q = p ∧ ∀ r, (s.procs r).parent = some p → (s.procs r).state.kind ≠ .zombie) :
    Tree (s.stop c p state) := by
  have hp := h.running.state c p hc
  refine h.one (h.running.stop hc rfl ?_ fun q hq => ?_) rfl rfl ?_ hsleep h.exiting
  · simpa [Kernel.stop, Kernel.setProc] using hne
  · simp [Kernel.stop, Kernel.setProc, hq]
  · rw [hp]
    exact hkind

theorem Tree.step (h : Tree s) {a : Event κ} (hs : s.Step a s') : Tree s' := by
  have hphase : ∀ {p : ProcIdx} {ph : Phase}, (∀ status, ph ≠ .exiting status) →
      ∀ q status, Function.update s.phase p ph q = .exiting status → q ≠ initProc := by
    intro p ph hph q status hq
    by_cases hqp : q = p
    · rw [hqp, Function.update_self] at hq
      exact absurd hq (hph status)
    · rw [Function.update_of_ne hqp] at hq
      exact h.exiting q status hq
  cases Move.of_step hs with
  | none => exact h
  | forkFail hc hp hnp _ =>
      refine h.stay rfl rfl (.inl ?_) rfl h.exiting
      exact (Kernel.state_freeProc hnp).symm
  | fork hc hp hnp _ _ =>
      exact h.fork (h.running.state _ _ hc) (Kernel.state_freeProc hnp) rfl rfl rfl rfl rfl
  | @exit c p status hc hp hne =>
      refine h.stay rfl rfl (.inl rfl) rfl fun q st hq => ?_
      by_cases hqp : q = p
      · exact hqp ▸ hne
      · exact h.exiting q st (by simpa [Kernel.setPhase, Kernel.setProc, hqp] using hq)
  | wait hc hp _ =>
      exact h.frame (h.running.keep rfl fun _ => Iff.rfl) (fun _ => rfl) (fun _ => rfl) h.asleep
        (hphase fun _ he => by cases he)
  | die hc hp => exact h.die hc hp
  | @reap c p q ptr status stack mem hc hp hq hst _ _ =>
      have hrun := h.running.state c p hc
      have hz : (s.procs q).state.kind = .zombie := by rw [hst]; rfl
      have hqp : p ≠ q := by
        rintro rfl
        rw [hrun] at hz
        cases hz
      refine h.reap hrun hz rfl ?_ ?_ rfl rfl
      · simp [Kernel.setProc, hqp]
      · simp [Kernel.setProc, hqp, hrun]
  | noChild hc hp _ =>
      exact h.frame (h.running.keep rfl fun _ => Iff.rfl) (fun _ => rfl) (fun _ => rfl) h.asleep
        (hphase fun _ he => by cases he)
  | waitSleep hc hp hnone =>
      refine h.stop hc rfl (by simp) fun q hq => ?_
      cases hq
      exact ⟨rfl, fun r hr => Kernel.zombieChild_none hnone hr⟩
  | sleep hc => exact h.stop hc rfl (by simp) (fun q hq => by cases hq)
  | yield hc => exact h.stop hc rfl (by simp) (fun q hq => by cases hq)
  | work hc hp => exact h.stay rfl rfl (.inl rfl) rfl h.exiting
  | @kill pid q hq =>
      obtain ⟨state, hwoken, hmarked⟩ := (s.procs q).marked_eq
      rw [hmarked]
      exact h.stay rfl rfl hwoken rfl h.exiting
  | @wakeup addr =>
      have hwoken := wakeup1_woken s.procs (.other addr)
      refine h.frame (h.running.keep rfl fun p => (hwoken p).running)
        (fun p => wakeup1_parent ..) (fun p => (hwoken p).kind) (fun p q hp => ?_) h.exiting
      have hw := hwoken p
      rw [hp] at hw
      exact h.asleep p q hw.sleeping
  | @schedule c p hc hp =>
      refine h.one (h.running.schedule hc ?_ rfl ?_ fun q hq => ?_) rfl rfl ?_
        (fun q hq => by cases hq) h.exiting
      · rw [hp]
        simp
      · simp [Kernel.setProc]
      · simp [Kernel.setProc, hq]
      · rw [hp]
        rfl

omit [DecidableEq κ] in
theorem Kernel.Init.tree (h : s.Init) : Tree s := by
  obtain ⟨stack, mem, hinit⟩ := h.first
  have hnew : ∀ p, p ≠ initProc → (s.procs p).state = .unused ∧ (s.procs p).parent = none :=
    fun p hp => by rw [h.others p hp]; exact ⟨rfl, rfl⟩
  have hstate : (s.procs initProc).state = .runnable := by rw [hinit]
  have hparent : (s.procs initProc).parent = some initProc := by rw [hinit]
  refine ⟨⟨fun c p hc => ?_, fun p hp => ?_, fun c c' p hc => ?_⟩, fun p => ?_, ?_, fun p hp => ?_,
    fun p hp => ?_, fun p q hp => ?_, fun p status hp => ?_⟩
  · rw [h.cpus] at hc
    cases hc
  · by_cases hpi : p = initProc
    · rw [hpi, hstate] at hp
      cases hp
    · rw [(hnew p hpi).1] at hp
      cases hp
  · rw [h.cpus] at hc
    cases hc
  · by_cases hpi : p = initProc
    · rw [hpi, hstate]
      simp [ProcState.kind]
    · rw [(hnew p hpi).1]
      simp [ProcState.kind]
  · rw [hstate]
    rfl
  · have hpi : p = initProc := by
      by_contra hne
      exact hp (by rw [(hnew p hne).1]; rfl)
    exact ⟨initProc, by rw [hpi, hparent], by rw [hstate]; rfl⟩
  · by_contra hne
    rw [(hnew p hne).2] at hp
    cases hp
  · by_cases hpi : p = initProc
    · rw [hpi, hstate] at hp
      cases hp
    · rw [(hnew p hpi).1] at hp
      cases hp
  · rw [h.phase] at hp
    cases hp

/-- Only a turn of the parent's `wait` takes a zombie away. -/
theorem Tree.zombie_leaves (h : Tree s) {a : Event κ} (hs : s.Step a s') {q : ProcIdx}
    (hz : (s.procs q).state.kind = .zombie) (hne : (s'.procs q).state ≠ (s.procs q).state) :
    ∃ c p ptr, a = .on c .run ∧ s.cpus c = some p ∧ s.phase p = .waiting ptr ∧
      (s.procs q).parent = some p ∧ (s'.procs q).state = .unused := by
  have hnot : ∀ {p : ProcIdx}, (s.procs p).state.kind ≠ .zombie → q ≠ p := by
    rintro p hp rfl
    exact hp hz
  have hrunning : ∀ {c p}, s.cpus c = some p → q ≠ p := fun hc =>
    hnot (by rw [h.running.state _ _ hc]; simp [ProcState.kind])
  have hother : ∀ {p : ProcIdx} {pr : Proc}, q ≠ p →
      (Function.update s.procs p pr q).state = (s.procs q).state := fun hqp => by
    rw [Function.update_of_ne hqp]
  cases Move.of_step hs with
  | none => exact absurd rfl hne
  | forkFail hc hp hnp _ =>
      exact absurd (hother (hnot (by rw [Kernel.state_freeProc hnp]; simp [ProcState.kind]))) hne
  | fork hc hp hnp _ _ =>
      exact absurd (hother (hnot (by rw [Kernel.state_freeProc hnp]; simp [ProcState.kind]))) hne
  | exit hc hp _ => exact absurd (hother (hrunning hc)) hne
  | wait => exact absurd rfl hne
  | @die c p status hc hp =>
      exact absurd ((Kernel.die_woken status (hrunning hc)).zombie hz) hne
  | @reap c p q' ptr status stack mem hc hp hq' hst _ _ =>
      have hqp := hrunning hc
      by_cases hqq : q = q'
      · subst hqq
        refine ⟨c, p, ptr, rfl, hc, hp, (Kernel.zombieChild_some hq').1, ?_⟩
        simp [Kernel.setProc, Kernel.setPhase, Function.update_of_ne hqp, Kernel.reaped]
      · refine absurd ?_ hne
        simp [Kernel.setProc, Kernel.setPhase, Function.update_of_ne hqp, hqq]
  | noChild => exact absurd rfl hne
  | waitSleep hc hp _ => exact absurd (hother (hrunning hc)) hne
  | sleep hc => exact absurd (hother (hrunning hc)) hne
  | yield hc => exact absurd (hother (hrunning hc)) hne
  | work hc hp => exact absurd (hother (hrunning hc)) hne
  | @kill pid r hr =>
      obtain ⟨state, hwoken, hmarked⟩ := (s.procs r).marked_eq
      refine absurd ?_ hne
      show (Function.update s.procs r (s.procs r).marked q).state = _
      by_cases hqr : q = r
      · subst hqr
        rw [Function.update_self, hmarked]
        exact hwoken.zombie hz
      · exact hother hqr
  | wakeup => exact absurd ((wakeup1_woken ..).zombie hz) hne
  | schedule hc hp => exact absurd (hother (hnot (by rw [hp]; simp [ProcState.kind]))) hne

/-- **The process tree.** A process runs on at most one processor. Every
process in use but `init` has a parent that is neither unused nor a zombie.
Nobody sleeps in `wait` while a child of its is a zombie, and a zombie only
leaves that state by becoming unused in a turn of its parent's `wait`. -/
theorem process_tree (h : Reach Kernel.Init Kernel.Step s) :
    (∀ c c' p, s.cpus c = some p → s.cpus c' = some p → c = c') ∧
    (∀ p, (s.procs p).state = .running ↔ ∃ c, s.cpus c = some p) ∧
    (∀ p, p ≠ initProc → (s.procs p).state ≠ .unused → ∃ q, (s.procs p).parent = some q ∧
      (s.procs q).state ≠ .unused ∧ ∀ status, (s.procs q).state ≠ .zombie status) ∧
    (∀ p, (s.procs p).state = .sleeping (.proc p) → ∀ q, (s.procs q).parent = some p →
      ∀ status, (s.procs q).state ≠ .zombie status) ∧
    (∀ a s', s.Step a s' → ∀ q status, (s.procs q).state = .zombie status →
      (s'.procs q).state ≠ .zombie status →
      ∃ c p ptr, a = .on c .run ∧ s.cpus c = some p ∧ s.phase p = .waiting ptr ∧
        (s.procs q).parent = some p ∧ (s'.procs q).state = .unused) := by
  have htree : Tree s :=
    Reach.invariant (I := Tree) (fun _ hs => hs.tree) (fun _ _ _ hi hs => hi.step hs) h
  refine ⟨htree.running.one, fun p => ⟨htree.running.cpu p, fun ⟨c, hc⟩ => htree.running.state c p hc⟩,
    fun p _ hp => ?_, fun p hp q hq status hz => ?_, fun a s' hs q status hz hne => ?_⟩
  · obtain ⟨q, hq, halive⟩ := htree.parent p (fun he => hp (ProcState.kind_unused.mp he))
    refine ⟨q, hq, fun he => ?_, fun status he => ?_⟩
    · rw [he] at halive
      cases halive
    · rw [he] at halive
      cases halive
  · exact (htree.asleep p p hp).2 q hq (by rw [hz]; rfl)
  · exact htree.zombie_leaves hs (by rw [hz]; rfl) (by rw [hz]; exact hne)

end Tree

/-- Booted on one processor. -/
def booted : Kernel Unit where
  procs := fun p =>
    if p = initProc then
      { Proc.new with
        state := .runnable, pid := 1, parent := some initProc, kstack := some 7
        pgtbl := some fun _ => 0, size := 4096 }
    else Proc.new
  cpus := fun _ => none
  phase := fun _ => .user
  nextPid := 2
  uid := fun _ => 0
  born := [1]
  exits := []
  waits := []

theorem init_booted : booted.Init :=
  ⟨⟨7, fun _ => 0, rfl⟩, fun _ hp => if_neg hp, fun _ => rfl, fun _ => rfl, rfl, rfl, rfl, rfl, rfl⟩

/-- The first slot that `init` finds for a child. -/
theorem freeProc_one {κ : Type} {s : Kernel κ} (h₀ : (s.procs 0).state ≠ .unused)
    (h₁ : (s.procs 1).state = .unused) : s.freeProc = some 1 := by
  unfold Kernel.freeProc
  rw [first_succ (by simpa using h₀), first_zero (by simpa using h₁)]
  rfl

/-- `init` runs and has a working directory. -/
theorem reach_ready : ∃ s : Kernel Unit, Reach Kernel.Init Kernel.Step s ∧
    s.cpus () = some 0 ∧ s.phase 0 = .user ∧ s.freeProc = some 1 ∧
    (s.procs 0).pgtbl = some (fun _ => 0) ∧ (s.procs 0).cwd = some 1 ∧ (s.procs 0).pid = 1 ∧
    s.nextPid = 2 ∧ (s.procs 0).size = 4096 := by
  obtain ⟨s, hs, hcpu, hphase, h₀, hfree, hrest⟩ : ∃ s, replay Kernel.step booted
      [.schedule () 0, .on () (.work (fun _ => 0) 4096 (fun _ => none) (some 1))] = some s ∧
      s.cpus () = some 0 ∧ s.phase 0 = .user ∧ (s.procs 0).state = .running ∧
      (s.procs 1).state = .unused ∧ (s.procs 0).pgtbl = some (fun _ => 0) ∧
      (s.procs 0).cwd = some 1 ∧ (s.procs 0).pid = 1 ∧ s.nextPid = 2 ∧ (s.procs 0).size = 4096 :=
    ⟨_, rfl, rfl, rfl, rfl, rfl, rfl, rfl, rfl, rfl, rfl⟩
  have hreach : Reach Kernel.Init Kernel.Step s :=
    Reach.replay (fun _ _ _ h => h) (.init init_booted) hs
  exact ⟨s, hreach, hcpu, hphase, freeProc_one (by rw [h₀]; simp) hfree, hrest⟩

/-- A `fork` that gets all it needs. -/
theorem Kernel.step_fork {κ : Type} [DecidableEq κ] {s : Kernel κ} {c : κ} {p np : ProcIdx}
    {cwd : Nat} (hc : s.cpus c = some p) (hp : s.phase p = .user) (hnp : s.freeProc = some np)
    (hpg : (s.procs p).pgtbl.isSome = true) (hcwd : (s.procs p).cwd = some cwd) (stack : Page) :
    ∃ s', s.Step (.on c (.fork (some stack) true)) s' ∧
      s'.procs = Function.update s.procs np (forked s p np stack cwd) ∧ s'.cpus = s.cpus ∧
      s'.phase = Function.update s.phase np .user := by
  simp only [Kernel.Step, Kernel.step, hc, Kernel.act, hp, if_true, Kernel.fork, hnp, hpg, and_self,
    hcwd]
  refine ⟨_, rfl, ?_, rfl, rfl⟩
  simp only [Kernel.initProcSlot, Kernel.setProc, Function.update_self, Function.update_idem, forked]

/-- `init` and its first child. -/
theorem process_tree_child :
    ∃ s : Kernel Unit, Reach Kernel.Init Kernel.Step s ∧ (s.procs 1).state = .runnable ∧
      ∃ q, (s.procs 1).parent = some q ∧ (s.procs q).state ≠ .unused ∧
        ∀ status, (s.procs q).state ≠ .zombie status := by
  obtain ⟨s, hs, hc, hp, hnp, hpg, hcwd, -⟩ := reach_ready
  obtain ⟨s', hstep, hprocs, -⟩ := Kernel.step_fork hc hp hnp (by rw [hpg]; rfl) hcwd 8
  have hstate : (s'.procs 1).state = .runnable := by
    rw [hprocs, Function.update_self]
    rfl
  refine ⟨s', hs.step hstep, hstate, (process_tree (hs.step hstep)).2.2.1 1 (by decide) ?_⟩
  rw [hstate]
  simp

end Rxv64.Procs
