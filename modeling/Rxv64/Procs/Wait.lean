import Rxv64.Procs.Slots

/-!
# Procs.Wait — how the status of a child gets to its parent

Slots are used again and again; the history tells their processes apart. Every
`wait` returns a process that has called `exit`, with its pid and its status,
and none is returned twice. What `wait` then does with the pointer it was given
is another matter: it stores the status if the pointer is null, and only then.
A write through a null pointer is undefined; here it goes to address 0.
-/

namespace Rxv64.Procs

open Scan Runs

/-- The four bytes at `ptr` are those of the status. -/
def WordIs (m : Memory) (ptr : Nat) (status : Int32) : Prop :=
  ∀ k, k < 4 → m (ptr + k) = word status k

/-- What the caller of `wait` expects: the status at `ptr` and nothing else
changed, or nothing at all if `ptr` is null. -/
def Delivered (m m' : Memory) (ptr : Nat) (status : Int32) : Prop :=
  if ptr = 0 then m' = m
  else WordIs m' ptr status ∧ ∀ a, ¬(ptr ≤ a ∧ a < ptr + 4) → m' a = m a

/-- The null test is the wrong way round: what is expected is what happens only
if the status is there already. -/
theorem delivered_iff (m : Memory) (ptr : Nat) (status : Int32) :
    Delivered m (Kernel.deliver m ptr status) ptr status ↔ WordIs m ptr status := by
  unfold Delivered Kernel.deliver
  by_cases hptr : ptr = 0
  · rw [if_pos hptr, if_pos hptr]
    constructor
    · intro he k hk
      rw [← he, Memory.write, if_pos (by omega), Nat.add_sub_cancel_left]
    · intro hw
      funext a
      unfold Memory.write
      split
      · next ha =>
          have := hw (a - ptr) (by omega)
          rw [Nat.add_sub_cancel' ha.1] at this
          exact this.symm
      · rfl
  · rw [if_neg hptr, if_neg hptr]
    exact and_iff_left fun _ _ => rfl

section History

variable {κ : Type} {s s' : Kernel κ}

/-- The processes that have used the slots, one after the other. -/
structure History (s : Kernel κ) : Prop where
  tree : Tree s
  pages : ∀ p, (s.procs p).state ≠ .unused → (s.procs p).pgtbl.isSome = true
  born : ∀ p, (s.procs p).state ≠ .unused → s.born[s.uid p]? = some (s.procs p).pid
  apart : ∀ p q, (s.procs p).state ≠ .unused → (s.procs q).state ≠ .unused →
    s.uid p = s.uid q → p = q
  here : ∀ p, (s.procs p).state ≠ .unused → ∀ r ∈ s.waits, r.uid ≠ s.uid p
  exiting : ∀ p status, (s.procs p).state ≠ .unused → s.phase p = .exiting status →
    (s.uid p, status) ∈ s.exits
  zombie : ∀ p status, (s.procs p).state = .zombie status → (s.uid p, status) ∈ s.exits
  returned : ∀ r ∈ s.waits, s.born[r.uid]? = some r.pid ∧ (r.uid, r.status) ∈ s.exits
  once : (s.waits.map Returned.uid).Nodup

/-- States, parents and phases change, but no process comes or goes. -/
theorem History.frame (h : History s) (htree : Tree s')
    (hfree : ∀ p, (s'.procs p).state = .unused ↔ (s.procs p).state = .unused)
    (hpages : ∀ p, (s.procs p).pgtbl.isSome = true → (s'.procs p).pgtbl.isSome = true)
    (hpid : ∀ p, (s'.procs p).state ≠ .unused → (s'.procs p).pid = (s.procs p).pid)
    (huid : s'.uid = s.uid) (hborn : s'.born = s.born) (hexits : ∀ x ∈ s.exits, x ∈ s'.exits)
    (hwaits : s'.waits = s.waits)
    (hexiting : ∀ p status, (s'.procs p).state ≠ .unused → s'.phase p = .exiting status →
      s.phase p = .exiting status ∨ (s.uid p, status) ∈ s'.exits)
    (hzombie : ∀ p status, (s'.procs p).state = .zombie status →
      (s.procs p).state = .zombie status ∨ (s.uid p, status) ∈ s'.exits) : History s' := by
  have hold : ∀ p, (s'.procs p).state ≠ .unused → (s.procs p).state ≠ .unused := fun p hp he =>
    hp ((hfree p).mpr he)
  refine ⟨htree, fun p hp => hpages p (h.pages p (hold p hp)), fun p hp => ?_,
    fun p q hp hq he => ?_, fun p hp => ?_, fun p status hp hph => ?_, fun p status hz => ?_,
    fun r hr => ?_, ?_⟩
  · rw [hborn, huid, hpid p hp]
    exact h.born p (hold p hp)
  · rw [huid] at he
    exact h.apart p q (hold p hp) (hold q hq) he
  · rw [huid, hwaits]
    exact h.here p (hold p hp)
  · rw [huid]
    rcases hexiting p status hp hph with hph | hmem
    · exact hexits _ (h.exiting p status (hold p hp) hph)
    · exact hmem
  · rw [huid]
    rcases hzombie p status hz with hz | hmem
    · exact hexits _ (h.zombie p status hz)
    · exact hmem
  · rw [hborn]
    rw [hwaits] at hr
    exact ⟨(h.returned r hr).1, hexits _ (h.returned r hr).2⟩
  · rw [hwaits]
    exact h.once

/-- One process changes, and not its pid nor whether it is in use. -/
theorem History.one (h : History s) (htree : Tree s') {p : ProcIdx} {pr : Proc}
    (hprocs : s'.procs = Function.update s.procs p pr)
    (hfree : pr.state = .unused ↔ (s.procs p).state = .unused)
    (hpages : (s.procs p).pgtbl.isSome = true → pr.pgtbl.isSome = true)
    (hpid : pr.state ≠ .unused → pr.pid = (s.procs p).pid) (huid : s'.uid = s.uid)
    (hborn : s'.born = s.born) (hexits : ∀ x ∈ s.exits, x ∈ s'.exits) (hwaits : s'.waits = s.waits)
    (hexiting : ∀ q status, s'.phase q = .exiting status →
      s.phase q = .exiting status ∨ (s.uid q, status) ∈ s'.exits)
    (hzombie : ∀ status, pr.state = .zombie status → (s.procs p).state = .zombie status) :
    History s' := by
  have hself : s'.procs p = pr := by rw [hprocs, Function.update_self]
  have hother : ∀ q, q ≠ p → s'.procs q = s.procs q := fun q hq => by
    rw [hprocs, Function.update_of_ne hq]
  refine h.frame htree (fun q => ?_) (fun q hq => ?_) (fun q hq => ?_) huid hborn hexits hwaits
    (fun q status _ => hexiting q status) (fun q status hq => ?_)
  · by_cases hqp : q = p
    · rw [hqp, hself]
      exact hfree
    · rw [hother q hqp]
  · by_cases hqp : q = p
    · rw [hqp] at hq
      rw [hqp, hself]
      exact hpages hq
    · rwa [hother q hqp]
  · by_cases hqp : q = p
    · rw [hqp, hself] at hq ⊢
      exact hpid hq
    · rw [hother q hqp]
  · by_cases hqp : q = p
    · rw [hqp, hself] at hq
      exact .inl (hqp ▸ hzombie status hq)
    · rw [hother q hqp] at hq
      exact .inl hq

/-- A sleeper is woken, and it keeps its pid. -/
theorem Woken.unused {a b : ProcState} (h : Woken a b) : b = .unused ↔ a = .unused := by
  rw [← ProcState.kind_unused, h.kind, ProcState.kind_unused]

theorem Woken.of_zombie {a : ProcState} {status : Int32} (h : Woken a (.zombie status)) :
    a = .zombie status := by
  rcases h with h | ⟨-, h⟩
  · exact h.symm
  · cases h

/-- A new process, with a number that nobody has had. -/
theorem History.fork (h : History s) (htree : Tree s') {np : ProcIdx} {pr : Proc}
    (hfree : (s.procs np).state = .unused) (hprocs : s'.procs = Function.update s.procs np pr)
    (hstate : pr.state = .runnable) (hpages : pr.pgtbl.isSome = true) (hpid : pr.pid = s.nextPid)
    (hphase : s'.phase = Function.update s.phase np .user)
    (huid : s'.uid = Function.update s.uid np s.born.length)
    (hborn : s'.born = s.born ++ [s.nextPid]) (hexits : s'.exits = s.exits)
    (hwaits : s'.waits = s.waits) : History s' := by
  have hself : s'.procs np = pr := by rw [hprocs, Function.update_self]
  have hother : ∀ q, q ≠ np → s'.procs q = s.procs q := fun q hq => by
    rw [hprocs, Function.update_of_ne hq]
  have huself : s'.uid np = s.born.length := by rw [huid, Function.update_self]
  have huother : ∀ q, q ≠ np → s'.uid q = s.uid q := fun q hq => by
    rw [huid, Function.update_of_ne hq]
  -- numbers given out before are smaller
  have hlt : ∀ {u : Nat} {x : UInt32}, s.born[u]? = some x → u < s.born.length := fun hu =>
    (List.getElem?_eq_some_iff.mp hu).1
  have hgrow : ∀ {u : Nat} {x : UInt32}, s.born[u]? = some x → s'.born[u]? = some x := fun hu => by
    rw [hborn, List.getElem?_append_left (hlt hu)]
    exact hu
  refine ⟨htree, fun p hp => ?_, fun p hp => ?_, fun p q hp hq he => ?_, fun p hp r hr => ?_,
    fun p status hp hph => ?_, fun p status hz => ?_, fun r hr => ?_, ?_⟩
  · by_cases hpn : p = np
    · rw [hpn, hself]
      exact hpages
    · rw [hother p hpn] at hp ⊢
      exact h.pages p hp
  · by_cases hpn : p = np
    · rw [hpn, hself, huself, hpid, hborn]
      exact List.getElem?_concat_length
    · rw [hother p hpn] at hp ⊢
      rw [huother p hpn]
      exact hgrow (h.born p hp)
  · by_cases hpn : p = np
    · by_cases hqn : q = np
      · rw [hpn, hqn]
      · rw [hother q hqn] at hq
        rw [hpn, huself, huother q hqn] at he
        have := hlt (h.born q hq)
        omega
    · rw [hother p hpn] at hp
      by_cases hqn : q = np
      · rw [hqn, huself, huother p hpn] at he
        have := hlt (h.born p hp)
        omega
      · rw [hother q hqn] at hq
        rw [huother p hpn, huother q hqn] at he
        exact h.apart p q hp hq he
  · rw [hwaits] at hr
    by_cases hpn : p = np
    · rw [hpn, huself]
      exact (hlt (h.returned r hr).1).ne
    · rw [hother p hpn] at hp
      rw [huother p hpn]
      exact h.here p hp r hr
  · rw [hphase] at hph
    have hpn : p ≠ np := by
      rintro rfl
      rw [Function.update_self] at hph
      cases hph
    rw [Function.update_of_ne hpn] at hph
    rw [hother p hpn] at hp
    rw [huother p hpn, hexits]
    exact h.exiting p status hp hph
  · have hpn : p ≠ np := by
      rintro rfl
      rw [hself, hstate] at hz
      cases hz
    rw [hother p hpn] at hz
    rw [huother p hpn, hexits]
    exact h.zombie p status hz
  · rw [hwaits] at hr
    rw [hexits]
    exact ⟨hgrow (h.returned r hr).1, (h.returned r hr).2⟩
  · rw [hwaits]
    exact h.once

/-- `wait` returns a zombie, and its slot is free. -/
theorem History.reap (h : History s) (htree : Tree s') {p q : ProcIdx} {status : Int32}
    (hz : (s.procs q).state = .zombie status)
    (hq : (s'.procs q).state = .unused)
    (hsame : ∀ r, r ≠ q → (s'.procs r).state = (s.procs r).state ∧
      (s'.procs r).pid = (s.procs r).pid ∧ (s'.procs r).pgtbl.isSome = (s.procs r).pgtbl.isSome)
    (hphase : ∀ r status, s'.phase r = .exiting status → s.phase r = .exiting status)
    (huid : s'.uid = s.uid) (hborn : s'.born = s.born) (hexits : s'.exits = s.exits)
    (hwaits : s'.waits = s.waits ++ [⟨p, s.uid q, (s.procs q).pid, status⟩]) : History s' := by
  have hused : (s.procs q).state ≠ .unused := by rw [hz]; simp
  have hne : ∀ r, (s'.procs r).state ≠ .unused → r ≠ q ∧ (s.procs r).state ≠ .unused := by
    intro r hr
    have hrq : r ≠ q := by
      rintro rfl
      exact hr hq
    exact ⟨hrq, by rwa [(hsame r hrq).1] at hr⟩
  refine ⟨htree, fun r hr => ?_, fun r hr => ?_, fun r r' hr hr' he => ?_, fun r hr x hx => ?_,
    fun r st hr hph => ?_, fun r st hst => ?_, fun x hx => ?_, ?_⟩
  · obtain ⟨hrq, hr⟩ := hne r hr
    rw [(hsame r hrq).2.2]
    exact h.pages r hr
  · obtain ⟨hrq, hr⟩ := hne r hr
    rw [hborn, huid, (hsame r hrq).2.1]
    exact h.born r hr
  · rw [huid] at he
    exact h.apart r r' (hne r hr).2 (hne r' hr').2 he
  · obtain ⟨hrq, hr⟩ := hne r hr
    rw [hwaits, List.mem_append, List.mem_singleton] at hx
    rw [huid]
    rcases hx with hx | rfl
    · exact h.here r hr x hx
    · exact fun he => hrq (h.apart q r hused hr he).symm
  · rw [huid, hexits]
    exact h.exiting r st (hne r hr).2 (hphase r st hph)
  · obtain ⟨hrq, -⟩ := hne r (by rw [hst]; simp)
    rw [(hsame r hrq).1] at hst
    rw [huid, hexits]
    exact h.zombie r st hst
  · rw [hwaits, List.mem_append, List.mem_singleton] at hx
    rw [hborn, hexits]
    rcases hx with hx | rfl
    · exact h.returned x hx
    · exact ⟨h.born q hused, h.zombie q status hz⟩
  · rw [hwaits, List.map_append, List.nodup_append]
    refine ⟨h.once, List.nodup_singleton _, fun a ha b hb hab => ?_⟩
    obtain ⟨x, hx, rfl⟩ := List.mem_map.mp ha
    rw [List.map_singleton, List.mem_singleton] at hb
    exact h.here q hused x hx (hab.trans hb)

variable [DecidableEq κ]

theorem History.step (h : History s) {a : Event κ} (hs : s.Step a s') : History s' := by
  have htree := h.tree.step hs
  have hused : ∀ {c p}, s.cpus c = some p → (s.procs p).state ≠ .unused := fun hc => by
    rw [h.tree.running.state _ _ hc]
    simp
  have hphase : ∀ {p : ProcIdx} {ph : Phase}, (∀ status, ph ≠ .exiting status) →
      ∀ q status, Function.update s.phase p ph q = .exiting status →
        s.phase q = .exiting status := by
    intro p ph hph q status hq
    by_cases hqp : q = p
    · rw [hqp, Function.update_self] at hq
      exact absurd hq (hph status)
    · rwa [Function.update_of_ne hqp] at hq
  -- a process gives up its processor
  have hstop : ∀ {c p state}, s.cpus c = some p → Tree (s.stop c p state) →
      state ≠ .unused → (∀ status, state ≠ .zombie status) → History (s.stop c p state) :=
    fun hc ht hne hz => h.one ht rfl (iff_of_false hne (hused hc)) id (fun _ => rfl) rfl rfl
      (fun _ hx => hx) rfl (fun _ _ hph => .inl hph) (fun status he => absurd he (hz status))
  cases Move.of_step hs with
  | none => exact h
  | @forkFail c p np stack copy hc hp hnp _ =>
      exact h.one htree rfl (iff_of_true rfl (Kernel.state_freeProc hnp)) id
        (fun hne => absurd rfl hne) rfl rfl (fun _ hx => hx) rfl (fun _ _ hph => .inl hph) (fun _ he => by cases he)
  | @fork c p np stack cwd hc hp hnp hpg _ =>
      exact h.fork htree (Kernel.state_freeProc hnp) rfl rfl hpg rfl rfl rfl rfl rfl rfl
  | @exit c p status hc hp hne =>
      refine h.one htree rfl Iff.rfl id (fun _ => rfl) rfl rfl
        (fun x hx => List.mem_append_left _ hx) rfl (fun q st hph => ?_) (fun _ he => he)
      by_cases hqp : q = p
      · subst hqp
        simp only [Kernel.setPhase, Function.update_self] at hph
        cases hph
        exact .inr (List.mem_append_right _ (List.mem_singleton_self _))
      · simp only [Kernel.setPhase, Function.update_of_ne hqp] at hph
        exact .inl hph
  | wait hc hp _ =>
      exact h.frame htree (fun _ => Iff.rfl) (fun _ => id) (fun _ _ => rfl) rfl rfl
        (fun _ hx => hx) rfl
        (fun q status _ hph => .inl (hphase (fun _ he => by cases he) q status hph))
        (fun _ _ hz => .inl hz)
  | @die c p status hc hp =>
      refine h.frame htree (fun q => ?_) (fun q hq => ?_) (fun q _ => ?_) rfl rfl (fun _ hx => hx)
        rfl (fun _ _ _ hph => .inl hph) (fun q st hz => ?_)
      · by_cases hqp : q = p
        · subst hqp
          refine iff_of_false ?_ (hused hc)
          show (s.die q status q).state ≠ .unused
          rw [(Kernel.die_self q status).1]
          simp
        · exact (Kernel.die_woken status hqp).unused
      · obtain ⟨state, parent, heq, -⟩ := Kernel.die_eq (s := s) p q status
        show (s.die p status q).pgtbl.isSome = true
        rw [heq]
        exact hq
      · obtain ⟨state, parent, heq, -⟩ := Kernel.die_eq (s := s) p q status
        show (s.die p status q).pid = _
        rw [heq]
      · have hz : (s.die p status q).state = .zombie st := hz
        by_cases hqp : q = p
        · subst hqp
          rw [(Kernel.die_self q status).1] at hz
          cases hz
          exact .inr (h.exiting q status (hused hc) hp)
        · have hw := Kernel.die_woken (s := s) status hqp
          rw [hz] at hw
          exact .inl hw.of_zombie
  | @reap c p q ptr status stack mem hc hp hq hst _ _ =>
      have hqp : q ≠ p := by
        rintro rfl
        cases hst.symm.trans (h.tree.running.state c q hc)
      refine h.reap htree hst ?_ (fun r hrq => ?_)
        (fun r st hph => hphase (fun _ he => by cases he) r st hph) rfl rfl rfl rfl
      · simp [Kernel.setPhase, Kernel.setProc, Function.update_of_ne hqp, Kernel.reaped]
      · by_cases hrp : r = p
        · subst hrp
          simp [Kernel.setPhase, Kernel.setProc, Function.update_of_ne hrq]
        · simp [Kernel.setPhase, Kernel.setProc, Function.update_of_ne hrp,
            Function.update_of_ne hrq]
  | noChild hc hp _ =>
      exact h.frame htree (fun _ => Iff.rfl) (fun _ => id) (fun _ _ => rfl) rfl rfl
        (fun _ hx => hx) rfl
        (fun q status _ hph => .inl (hphase (fun _ he => by cases he) q status hph))
        (fun _ _ hz => .inl hz)
  | waitSleep hc => exact hstop hc htree (by simp) (by simp)
  | sleep hc => exact hstop hc htree (by simp) (by simp)
  | yield hc => exact hstop hc htree (by simp) (by simp)
  | work hc hp =>
      exact h.one htree rfl Iff.rfl (fun _ => rfl) (fun _ => rfl) rfl rfl (fun _ hx => hx) rfl
        (fun _ _ hph => .inl hph) (fun _ he => he)
  | @kill pid q hq =>
      obtain ⟨state, hw, hmarked⟩ := (s.procs q).marked_eq
      refine h.one htree rfl ?_ (fun hpg => ?_) (fun _ => ?_) rfl rfl (fun _ hx => hx) rfl
        (fun _ _ hph => .inl hph) (fun status he => ?_)
      · rw [hmarked]
        exact hw.unused
      · rw [hmarked]
        exact hpg
      · rw [hmarked]
      · rw [hmarked] at he
        have he : state = .zombie status := he
        rw [he] at hw
        exact hw.of_zombie
  | @wakeup addr =>
      refine h.frame htree (fun q => (wakeup1_woken ..).unused) (fun q hq => ?_) (fun q _ => ?_) rfl
        rfl (fun _ hx => hx) rfl (fun _ _ _ hph => .inl hph) (fun q status hz => ?_)
      · obtain ⟨state, heq, -⟩ := wakeup1_eq s.procs (.other addr) q
        show (wakeup1 s.procs (.other addr) q).pgtbl.isSome = true
        rw [heq]
        exact hq
      · obtain ⟨state, heq, -⟩ := wakeup1_eq s.procs (.other addr) q
        show (wakeup1 s.procs (.other addr) q).pid = _
        rw [heq]
      · have hw := wakeup1_woken s.procs (.other addr) q
        rw [show (wakeup1 s.procs (.other addr) q).state = .zombie status from hz] at hw
        exact .inl hw.of_zombie
  | @schedule c p hc hp =>
      refine h.one htree rfl (iff_of_false (by simp) (by rw [hp]; simp)) id (fun _ => rfl) rfl rfl
        (fun _ hx => hx) rfl (fun _ _ hph => .inl hph) (fun _ he => by cases he)

omit [DecidableEq κ] in
theorem Kernel.Init.history (h : s.Init) : History s := by
  obtain ⟨stack, mem, hinit⟩ := h.first
  have hused : ∀ p, (s.procs p).state ≠ .unused → p = initProc := by
    intro p hp
    by_contra hne
    rw [h.others p hne] at hp
    exact hp rfl
  refine ⟨h.tree, fun p hp => by rw [hused p hp, hinit]; rfl, fun p hp => ?_, fun p q hp hq _ => ?_, fun p _ r hr => ?_, fun p status _ hph => ?_,
    fun p status hz => ?_, fun r hr => ?_, ?_⟩
  · rw [hused p hp, h.uid, h.born, hinit]
    rfl
  · rw [hused p hp, hused q hq]
  · rw [h.waits] at hr
    cases hr
  · rw [h.phase] at hph
    cases hph
  · have hp := hused p (by rw [hz]; simp)
    rw [hp, hinit] at hz
    cases hz
  · rw [h.waits] at hr
    cases hr
  · rw [h.waits]
    exact List.nodup_nil

theorem History.of_reach (h : Reach Kernel.Init Kernel.Step s) : History s :=
  Reach.invariant (I := History) (fun _ hs => hs.history) (fun _ _ _ hi hs => hi.step hs) h

/-- The turn of the loop in which `wait1` finds a zombie. -/
theorem History.reaps (h : History s) {c : κ} {p q : ProcIdx} {ptr : Nat}
    (hc : s.cpus c = some p) (hp : s.phase p = .waiting ptr) (hq : s.zombieChild p = some q)
    (hs : s.Step (.on c .run) s') :
    ∃ status m, (s.procs q).state = .zombie status ∧ (s.procs p).pgtbl = some m ∧
      (s'.procs p).pgtbl = some (Kernel.deliver m ptr status) ∧
      s'.waits = s.waits ++ [⟨p, s.uid q, (s.procs q).pid, status⟩] := by
  have hrunning := h.tree.running.state c p hc
  obtain ⟨m, hm⟩ := Option.isSome_iff_exists.mp (h.pages p (by rw [hrunning]; simp))
  simp only [Kernel.Step, Kernel.step, hc, Kernel.act, hp, Kernel.scan, hq] at hs
  split at hs
  · next status stack mem hst _ _ =>
      have hpq : p ≠ q := by
        rintro rfl
        cases hst.symm.trans hrunning
      cases hs
      refine ⟨status, m, hst, hm, ?_, rfl⟩
      simp [Kernel.setPhase, Kernel.setProc, Function.update_of_ne hpq, hm]
  · cases hs

/-- **Exit status delivery.** What `wait` has returned is the pid and the status
of a process that called `exit`, and no process has been returned twice. A
`wait` that returns one takes a child of its caller; the caller finds in its
memory what it expects exactly if the status was at its pointer before (at
address 0 for a null pointer). -/
theorem wait_returns (h : Reach Kernel.Init Kernel.Step s) :
    (∀ r ∈ s.waits, s.born[r.uid]? = some r.pid ∧ (r.uid, r.status) ∈ s.exits) ∧
    (s.waits.map Returned.uid).Nodup ∧
    (∀ c p ptr q s', s.cpus c = some p → s.phase p = .waiting ptr → s.zombieChild p = some q →
      s.Step (.on c .run) s' →
      ∃ status m m', (s.procs q).state = .zombie status ∧ (s.procs q).parent = some p ∧
        s'.waits = s.waits ++ [⟨p, s.uid q, (s.procs q).pid, status⟩] ∧
        (s.procs p).pgtbl = some m ∧ (s'.procs p).pgtbl = some m' ∧
        (Delivered m m' ptr status ↔ WordIs m ptr status)) := by
  have hist := History.of_reach h
  refine ⟨hist.returned, hist.once, fun c p ptr q s' hc hp hq hs => ?_⟩
  obtain ⟨status, m, hst, hm, hm', hwaits⟩ := hist.reaps hc hp hq hs
  exact ⟨status, m, Kernel.deliver m ptr status, hst, (Kernel.zombieChild_some hq).1, hwaits, hm, hm',
    delivered_iff m ptr status⟩

end History

/-! ## A child that exits with status 5 -/

/-- The child runs and is about to become a zombie; its parent can run. -/
theorem reach_exiting : ∃ s : Kernel Unit, Reach Kernel.Init Kernel.Step s ∧
    s.cpus () = some 1 ∧ s.phase 0 = .user ∧ s.phase 1 = .exiting 5 ∧
    (s.procs 0).state = .runnable ∧ (s.procs 0).size = 4096 ∧
    (s.procs 0).pgtbl = some (fun _ => 0) ∧ (s.procs 1).parent = some 0 ∧
    (s.procs 1).kstack.isSome = true ∧ (s.procs 1).pgtbl.isSome = true := by
  obtain ⟨s, hs, hc, hp, hnp, hpg, hcwd, -, -, hsize⟩ := reach_ready
  obtain ⟨s₁, hfork, hprocs, hcpus, hphase⟩ :=
    Kernel.step_fork hc hp hnp (by rw [hpg]; rfl) hcwd 8
  have hc₁ : s₁.cpus () = some 0 := by rw [hcpus]; exact hc
  have hp₁ : s₁.phase 0 = .user := by rw [hphase, Function.update_of_ne (by decide)]; exact hp
  have hq₁ : s₁.phase 1 = .user := by rw [hphase, Function.update_self]
  have h₀ : s₁.procs 0 = s.procs 0 := by rw [hprocs, Function.update_of_ne (by decide)]
  have h₁ : s₁.procs 1 = forked s 0 1 8 1 := by rw [hprocs, Function.update_self]
  -- the parent yields, the child runs and calls `exit`
  have hyield : s₁.Step (.on () .yield) (s₁.stop () 0 .runnable) := by
    simp only [Kernel.Step, Kernel.step, hc₁, Kernel.act]
  obtain ⟨s₂, hs₂, hcpus₂, hphase₂, hrest⟩ : ∃ s₂,
      replay Kernel.step (s₁.stop () 0 .runnable) [.schedule () 1, .on () (.exit 5)] = some s₂ ∧
      s₂.cpus () = some 1 ∧ s₂.phase = Function.update s₁.phase 1 (.exiting 5) ∧
      s₂.procs 0 = { s.procs 0 with state := .runnable } ∧
      s₂.procs 1 = { forked s 0 1 8 1 with
        state := .running, files := fun _ => none, cwd := none } := by
    simp [replay, Kernel.step, Kernel.stop, Kernel.setProc, Kernel.act, Kernel.exit,
      Kernel.setPhase, h₀, h₁, hq₁, forked, initProc]
  refine ⟨s₂, Reach.replay (fun _ _ _ h => h) ((hs.step hfork).step hyield) hs₂, hcpus₂, ?_, ?_, ?_⟩
  · rw [hphase₂, Function.update_of_ne (by decide)]
    exact hp₁
  · rw [hphase₂, Function.update_self]
  · rw [hrest.1, hrest.2]
    exact ⟨rfl, hsize, hpg, rfl, rfl, by simp [forked, hpg]⟩

/-- The parent is in `wait(8)` and its child is a zombie. -/
theorem reach_waiting : ∃ s : Kernel Unit, Reach Kernel.Init Kernel.Step s ∧
    s.cpus () = some 0 ∧ s.phase 0 = .waiting 8 ∧ s.zombieChild 0 = some 1 ∧
    (s.procs 0).pgtbl = some (fun _ => 0) ∧ (s.procs 1).state = .zombie 5 ∧
    (s.procs 1).kstack.isSome = true ∧ (s.procs 1).pgtbl.isSome = true := by
  obtain ⟨s, hs, hc, hp₀, hp₁, hst, hsize, hmem, hpar, hstack, hpg⟩ := reach_exiting
  obtain ⟨s₁, hdie, hs₁⟩ : ∃ s₁, s.Step (.on () .run) s₁ ∧
      s₁ = { s with procs := s.die 1 5, cpus := Function.update s.cpus () none } := by
    simp only [Kernel.Step, Kernel.step, hc, Kernel.act, hp₁]
    exact ⟨_, rfl, rfl⟩
  -- the parent goes on as it was, the child is a zombie
  obtain ⟨state₀, parent₀, h₀, -⟩ := Kernel.die_eq (s := s) 1 0 5
  obtain ⟨state₁, parent₁, h₁, -⟩ := Kernel.die_eq (s := s) 1 1 5
  have hstate₀ : state₀ = .runnable := by
    have hw := Kernel.die_woken (s := s) (p := 1) (q := 0) 5 (by decide)
    rw [h₀, hst] at hw
    rcases hw with hw | ⟨-, hw⟩ <;> exact hw
  have hself := Kernel.die_self (s := s) 1 5
  rw [h₁, hpar, ite_self] at hself
  obtain ⟨rfl, rfl⟩ : state₁ = .zombie 5 ∧ parent₁ = some 0 := hself
  subst hstate₀
  obtain ⟨s₂, hs₂, hcpus₂, hphase₂, hprocs₀, hprocs₁⟩ : ∃ s₂,
      replay Kernel.step s₁ [.schedule () 0, .on () (.wait 8)] = some s₂ ∧
      s₂.cpus () = some 0 ∧ s₂.phase 0 = .waiting 8 ∧
      s₂.procs 0 = { s.procs 0 with state := .running, parent := parent₀ } ∧
      s₂.procs 1 = { s.procs 1 with state := .zombie 5, parent := some 0 } := by
    simp [replay, Kernel.step, Kernel.setProc, Kernel.act, Kernel.setPhase, hs₁, h₀, h₁, hp₀, hsize,
      fetchPtrMut, userRegionEnd]
  refine ⟨s₂, Reach.replay (fun _ _ _ h => h) (hs.step hdie) hs₂, hcpus₂, hphase₂, ?_, ?_, ?_⟩
  · unfold Kernel.zombieChild
    rw [first_succ (by simp [hprocs₀, ProcState.isZombie]), first_zero]
    · rfl
    · show (s₂.isChild 0 1 && (s₂.procs 1).state.isZombie) = true
      simp [Kernel.isChild, hprocs₁, Proc.initialized, ProcState.isZombie]
  · rw [hprocs₀]
    exact hmem
  · rw [hprocs₁]
    exact ⟨rfl, hstack, hpg⟩

/-- A turn of the loop gets past the panics. -/
theorem reach_reaped : ∃ s s' : Kernel Unit, Reach Kernel.Init Kernel.Step s ∧
    s.Step (.on () .run) s' ∧ s.cpus () = some 0 ∧ s.phase 0 = .waiting 8 ∧
    s.zombieChild 0 = some 1 ∧ (s.procs 0).pgtbl = some (fun _ => 0) ∧
    (s.procs 1).state = .zombie 5 := by
  obtain ⟨s, hs, hc, hp, hq, hmem, hst, hstack, hpg⟩ := reach_waiting
  obtain ⟨stack, hstack⟩ := Option.isSome_iff_exists.mp hstack
  obtain ⟨m, hpg⟩ := Option.isSome_iff_exists.mp hpg
  have hstep : ∃ s', s.Step (.on () .run) s' := by
    simp only [Kernel.Step, Kernel.step, hc, Kernel.act, hp, Kernel.scan, hq, hst, hstack, hpg]
    exact ⟨_, rfl⟩
  obtain ⟨s', hstep⟩ := hstep
  exact ⟨s, s', hs, hstep, hc, hp, hq, hmem, hst⟩

/-- The child with status 5 has been returned. -/
theorem wait_returns_child : ∃ s : Kernel Unit, Reach Kernel.Init Kernel.Step s ∧
    ∃ r ∈ s.waits, r.status = 5 ∧ (r.uid, r.status) ∈ s.exits := by
  obtain ⟨s, s', hs, hstep, hc, hp, hq, -, hst⟩ := reach_reaped
  obtain ⟨status, -, -, hst', -, hwaits, -⟩ := (wait_returns hs).2.2 () 0 8 1 s' hc hp hq hstep
  obtain rfl : status = 5 := by
    rw [hst] at hst'
    cases hst'
    rfl
  have hmem : (⟨0, s.uid 1, (s.procs 1).pid, 5⟩ : Returned) ∈ s'.waits := by
    rw [hwaits]
    exact List.mem_append_right _ (List.mem_singleton_self _)
  exact ⟨s', hs.step hstep, _, hmem, rfl, ((wait_returns (hs.step hstep)).1 _ hmem).2⟩

/-- The status of a child that exits with 5 does not get to address 8. -/
theorem status_not_delivered : ∃ s s' : Kernel Unit, Reach Kernel.Init Kernel.Step s ∧
    s.cpus () = some 0 ∧ s.phase 0 = .waiting 8 ∧ s.zombieChild 0 = some 1 ∧
    (s.procs 1).state = .zombie 5 ∧ s.Step (.on () .run) s' ∧
    ∃ m', (s'.procs 0).pgtbl = some m' ∧ ¬WordIs m' 8 5 := by
  obtain ⟨s, s', hs, hstep, hc, hp, hq, hmem, hst⟩ := reach_reaped
  have hist := History.of_reach hs
  obtain ⟨status, m, -, hm, hm', -⟩ := hist.reaps hc hp hq hstep
  obtain rfl : (fun _ => 0) = m := Option.some.inj (hmem.symm.trans hm)
  refine ⟨s, s', hs, hc, hp, hq, hst, hstep, _, hm', fun hw => ?_⟩
  have hzero : (0 : UInt8) = word 5 0 := hw 0 (by decide)
  cases hzero

end Rxv64.Procs
