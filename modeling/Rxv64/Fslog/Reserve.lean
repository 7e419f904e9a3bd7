import Mathlib.Algebra.Order.BigOperators.Group.Finset
import Rxv64.Fslog.Protocol

/-!
# Fslog.Reserve — the space reservation of `op::begin`

`op::begin` counts whole reservations of `MAXOPBLOCKS` against `LOGSIZE`,
while `Log::is_full` refuses the block that would fill the last slot of the
log area. The two limits differ, and this module says by how much: what an
admission may promise at most for `fslog::write` never to run out of room.
-/

namespace Rxv64.Fslog

open Runs

/-- How many distinct block numbers the open operation of `p` has logged. -/
def used (s : Sys) (p : Pid) : Nat := (s.hist.logged p).dedup.length

/-- The claim every operation makes on its caller: at most `MAXOPBLOCKS`
distinct block numbers are passed to `fslog::write`. -/
def WithinBudget (s : Sys) : Pid × Act → Prop
  | (p, .write b) => (b :: s.hist.logged p).dedup.length ≤ maxOpBlocks
  | _ => True

/-- The processes inside an operation. -/
def IsOpen (s : Sys) (ops : Finset Pid) : Prop := ∀ p, p ∈ ops ↔ s.pc p = .inOp

/-- What the open operations may still log. -/
def unused (s : Sys) (ops : Finset Pid) : Nat := ∑ p ∈ ops, (maxOpBlocks - used s p)

/-- An admission by `op::begin` is covered when the log's length, the unused
part of the open reservations and the new reservation together leave the
log area two blocks: the header, and the slot that `is_full` keeps free. -/
def Covered (s : Sys) : Pid × Act → Prop
  | (_, .tryBegin) => admits s.state s.log = true →
      ∀ ops, IsOpen s ops → s.log.len + unused s ops + maxOpBlocks + 2 ≤ logSize
  | _ => True

/-- The log area is the one `mkfs` writes: `nlog = LOGSIZE`. -/
structure MkfsInit (s : Sys) : Prop extends Init s where
  nlog : s.log.size = 511

/-- Runs in which every operation keeps to its budget. -/
def BudgetReachable : Sys → Prop := Reach MkfsInit (Guarded WithinBudget Step)

/-- Runs in which, besides, every admission is covered. -/
def CoveredReachable : Sys → Prop :=
  Reach MkfsInit (Guarded (fun s l => WithinBudget s l ∧ Covered s l) Step)

/-! ## The reservation invariant -/

structure Reserved (ops : Finset Pid) (s : Sys) : Prop where
  excl : Excl ops s
  grouped : Grouped s
  size : s.log.size = 511
  room : s.log.len + unused s ops + 2 ≤ logSize

theorem Reserved.init {s : Sys} (h : MkfsInit s) : Reserved ∅ s where
  excl := Excl.init h.toInit
  grouped := Grouped.init h.toInit
  size := h.nlog
  room := by
    have h2 : 2 ≤ logSize := by decide
    simpa [Log.len, h.log, unused] using h2

theorem unused_insert {s s' : Sys} {ops : Finset Pid} {p : Pid} (hp : p ∉ ops)
    (hnew : s'.hist.logged p = []) (hold : ∀ q ∈ ops, s'.hist.logged q = s.hist.logged q) :
    unused s' (insert p ops) = unused s ops + maxOpBlocks := by
  have h1 : maxOpBlocks - used s' p = maxOpBlocks := by simp [used, hnew]
  have h2 : unused s' ops = unused s ops :=
    Finset.sum_congr rfl fun q hq => by rw [used, used, hold q hq]
  rw [unused, Finset.sum_insert hp, h1, ← h2, unused]
  omega

theorem unused_erase_le (s : Sys) (ops : Finset Pid) (p : Pid) :
    unused s (ops.erase p) ≤ unused s ops :=
  Finset.sum_le_sum_of_subset (Finset.erase_subset p ops)

/-- One more logged block of `p`: either it was logged before, or the
reservation of `p` shrinks by one. -/
theorem unused_log {s s' : Sys} {ops : Finset Pid} {p : Pid} {b : UInt64} (hp : p ∈ ops)
    (hlog : s'.hist.logged = Function.update s.hist.logged p (b :: s.hist.logged p))
    (hbudget : (b :: s.hist.logged p).dedup.length ≤ maxOpBlocks) :
    (b ∈ s.hist.logged p ∧ unused s' ops = unused s ops) ∨
      (b ∉ s.hist.logged p ∧ unused s' ops + 1 = unused s ops) := by
  have hrest : ∑ q ∈ ops.erase p, (maxOpBlocks - used s' q)
      = ∑ q ∈ ops.erase p, (maxOpBlocks - used s q) :=
    Finset.sum_congr rfl fun q hq => by
      rw [used, used, hlog, Function.update_of_ne (Finset.ne_of_mem_erase hq)]
  have hself : used s' p = (b :: s.hist.logged p).dedup.length := by
    rw [used, hlog, Function.update_self]
  have hsplit := Finset.add_sum_erase ops (fun q => maxOpBlocks - used s q) hp
  have hsplit' := Finset.add_sum_erase ops (fun q => maxOpBlocks - used s' q) hp
  by_cases hb : b ∈ s.hist.logged p
  · left
    refine ⟨hb, ?_⟩
    have hsame : used s' p = used s p := by rw [hself, List.dedup_cons_of_mem hb, used]
    rw [unused, unused, ← hsplit, ← hsplit', hrest, hsame]
  · right
    refine ⟨hb, ?_⟩
    rw [List.dedup_cons_of_notMem hb, List.length_cons] at hself hbudget
    simp only [used] at hself hsplit
    rw [unused, unused, ← hsplit', hrest]
    simp only [used] at hsplit ⊢
    omega

theorem Reserved.notFull {ops : Finset Pid} {s : Sys} (h : Reserved ops s) :
    s.log.isFull = false := by
  apply decide_eq_false
  have := h.room
  rw [h.size]
  simp only [logSize, maxOpBlocks] at *
  have : ((511 : UInt64) - 1).toNat = 510 := by decide
  omega

theorem logWrite_fields {s s' : Sys} {p : Pid} {b : UInt64} (hw : logWrite s p b = .ok s') :
    s'.pc = s.pc ∧ s'.state = s.state ∧ s'.log.size = s.log.size ∧
      s'.hist.logged = Function.update s.hist.logged p (b :: s.hist.logged p) ∧
      (b ∈ s.log.header ∧ s'.log = s.log ∨
        b ∉ s.log.header ∧ s'.log.header = s.log.header ++ [b]) := by
  obtain ⟨log, hlog, rfl⟩ := logWrite_cases hw
  obtain ⟨-, -, -, hins⟩ := write_cases hlog
  rcases Log.insert_cases hins with ⟨hm, rfl⟩ | ⟨hm, -, hh, -, -, hz⟩
  · exact ⟨rfl, rfl, rfl, rfl, .inl ⟨hm, rfl⟩⟩
  · exact ⟨rfl, rfl, hz, rfl, .inr ⟨hm, hh⟩⟩

theorem Reserved.logWrite {ops : Finset Pid} {s s' : Sys} (h : Reserved ops s) {p : Pid}
    {b : UInt64} (hp : s.pc p = .inOp)
    (hbudget : (b :: s.hist.logged p).dedup.length ≤ maxOpBlocks)
    (hw : logWrite s p b = .ok s') : Reserved ops s' := by
  obtain ⟨hpc, hst, hz, hlogged, hheader⟩ := logWrite_fields hw
  have hroom := h.room
  have hexcl : Excl ops s' := by
    refine ⟨?_, ?_, ?_, ?_, ?_⟩
    · rw [hpc]; exact h.excl.mem
    · rw [hst]; exact h.excl.card
    · rw [hst]; exact h.excl.quiet
    · rw [hpc, hst]; exact h.excl.running
    · rw [hpc]; exact h.excl.unique
  refine ⟨hexcl, h.grouped.logWrite h.excl hp hw, hz.trans h.size, ?_⟩
  rcases unused_log ((h.excl.mem p).mpr hp) hlogged hbudget with ⟨hb, hu⟩ | ⟨-, hu⟩
  · -- a block the operation has logged before is in the header already
    have hin : b ∈ s.log.header := (h.grouped.opened p hp).2 b hb
    rcases hheader with ⟨-, hl⟩ | ⟨hnot, -⟩
    · rw [hu, hl]
      exact hroom
    · exact absurd hin hnot
  · have hlen : s'.log.len ≤ s.log.len + 1 := by
      rcases hheader with ⟨-, hl⟩ | ⟨-, hl⟩
      · rw [hl]
        omega
      · simp [Log.len, hl]
    omega

theorem unused_commitStep (s : Sys) (ops : Finset Pid) (p : Pid) (ph : Phase) :
    unused (commitStep s p ph) ops = unused s ops := by
  cases ph with
  | install tail =>
      simp only [commitStep]
      split <;> rfl
  | _ => rfl

theorem Reserved.step {ops : Finset Pid} {s s' : Sys} (h : Reserved ops s) {p : Pid}
    {a : Act} (hbudget : WithinBudget s (p, a)) (hcov : Covered s (p, a))
    (hs : Fslog.step s p a = some (.ok s')) : ∃ ops', Reserved ops' s' := by
  have hg := h.grouped.step h.excl hs
  have hroom := h.room
  rcases step_cases hs with ⟨-, hp, rfl⟩ | ⟨rfl, hp, rfl⟩ | ⟨b, rfl, hp, hw⟩ |
    ⟨-, hp, hend⟩ | ⟨ph, -, hp, rfl⟩
  · exact ⟨ops, h.excl.move rfl rfl (by simp [hp]) (by simp) (by simp), hg, h.size, hroom⟩
  · unfold tryBegin at hg ⊢
    split
    · next hadm =>
        obtain ⟨ops', he'⟩ := h.excl.tryBegin hp
        simp only [tryBegin, hadm, if_true] at he' hg
        have hops : ops' = insert p ops := by
          ext q
          rw [he'.mem q, Finset.mem_insert, h.excl.mem q]
          by_cases hqp : q = p
          · subst hqp
            simp
          · simp [hqp]
        subst hops
        have hpn : p ∉ ops := by rw [h.excl.mem p, hp]; simp
        refine ⟨_, he', hg, h.size, ?_⟩
        rw [unused_insert (s := s) hpn (by simp) fun q hq => by
          have : q ≠ p := fun hqp => hpn (hqp ▸ hq)
          simp [this]]
        have := hcov hadm ops h.excl.mem
        simp only at this ⊢
        omega
    · exact ⟨ops, h⟩
  · exact ⟨ops, h.logWrite hp hbudget hw⟩
  · have he := h.excl.endOp hp hend
    have hle := unused_erase_le s ops p
    obtain ⟨-, ⟨-, rfl⟩ | ⟨-, rfl⟩⟩ := endOp_cases hend
    · exact ⟨_, he, hg, h.size, by simp only [unused, used] at *; omega⟩
    · exact ⟨_, he, hg, h.size, by simp only [unused, used] at *; omega⟩
  · have he := h.excl.commitStep hp
    refine ⟨ops, he, hg, ?_, ?_⟩
    · cases ph <;> simp only [commitStep] <;> first | exact h.size | (split <;> exact h.size)
    · rw [unused_commitStep]
      have hlen : (Fslog.commitStep s p ph).log.len ≤ s.log.len := by
        cases ph with
        | install tail =>
            simp only [commitStep]
            split <;> exact Nat.le_refl _
        | clear => exact Nat.zero_le _
        | _ => exact Nat.le_refl _
      omega

/-- **Log space.** With the log area of `mkfs`, in every run in which each
operation logs at most `MAXOPBLOCKS` distinct blocks and every admission
is covered, no `fslog::write` finds the log full, whether its block is new
or already in the log. -/
theorem log_never_full (s : Sys) (h : CoveredReachable s) (p : Pid) (b : UInt64) :
    step s p (.write b) ≠ some (.error "transaction too big") := by
  obtain ⟨ops, hr⟩ : ∃ ops, Reserved ops s :=
    Reach.invariant (I := fun s => ∃ ops, Reserved ops s) (fun _ h => ⟨∅, Reserved.init h⟩)
      (fun _ _ _ ⟨_, h⟩ hs => h.step hs.1.1 hs.1.2 hs.2) h
  intro hstep
  unfold step at hstep
  split at hstep
  · cases hstep
  · cases hstep
  · next b' hpc =>
      have hw := Option.some.inj hstep
      unfold logWrite write at hw
      rw [hr.notFull, if_neg (by simp)] at hw
      split at hw
      · next e he =>
          have hmsg : e = "transaction too big" := Except.error.inj hw
          subst hmsg
          split at he
          · exact absurd (Except.error.inj he) (by decide)
          · unfold Log.insert at he
            split at he
            · cases he
            · split at he
              · cases he
              · exact absurd (Except.error.inj he) (by decide)
      · cases hw
  · next ha _ => cases ha
  · cases hstep
  · cases hstep

theorem boot_mkfsInit : MkfsInit boot := ⟨boot_init, rfl⟩

/-! ## Two blocks more -/

/-- The test that `op::begin` would have to make: two blocks more. -/
def Roomy (s : Sys) : Pid × Act → Prop
  | (_, .tryBegin) => s.log.len + (s.state.outstanding + 1) * maxOpBlocks + 2 ≤ logSize
  | _ => True

instance (s : Sys) (l : Pid × Act) : Decidable (WithinBudget s l) :=
  match l with
  | (p, .write b) => inferInstanceAs (Decidable ((b :: s.hist.logged p).dedup.length ≤ maxOpBlocks))
  | (_, .begin) | (_, .tryBegin) | (_, .endOp) | (_, .commit) => .isTrue trivial

instance (s : Sys) (l : Pid × Act) : Decidable (Roomy s l) :=
  match l with
  | (_, .tryBegin) =>
      inferInstanceAs (Decidable (s.log.len + (s.state.outstanding + 1) * maxOpBlocks + 2 ≤ logSize))
  | (_, .begin) | (_, .write _) | (_, .endOp) | (_, .commit) => .isTrue trivial

theorem unused_le (s : Sys) (ops : Finset Pid) : unused s ops ≤ ops.card * maxOpBlocks :=
  Finset.sum_le_card_nsmul ops _ maxOpBlocks fun _ _ => Nat.sub_le _ _

theorem Roomy.covered {s : Sys} {ops : Finset Pid} {l : Pid × Act} (he : Excl ops s)
    (h : Roomy s l) : Covered s l := by
  obtain ⟨p, a⟩ := l
  cases a with
  | tryBegin =>
      intro _ ops' hops'
      have hops : ops' = ops := by
        ext q
        rw [hops' q, he.mem q]
      have hroom : s.log.len + (s.state.outstanding + 1) * maxOpBlocks + 2 ≤ logSize := h
      have hle := unused_le s ops
      rw [he.card] at hle
      rw [hops, Nat.succ_mul] at *
      omega
  | _ => trivial

/-- With that test every admission is covered. -/
theorem coveredReachable_of_roomy {s : Sys}
    (h : Reach MkfsInit (Guarded (fun s l => WithinBudget s l ∧ Roomy s l) Step) s) :
    CoveredReachable s := by
  induction h with
  | init h => exact .init h
  | step h hs ih =>
      have hreach : Reachable _ :=
        h.invariant (I := Reachable) (fun _ hi => .init hi.toInit) fun _ _ _ hi hs => hi.step hs.2
      obtain ⟨ops, he, -⟩ := hreach.grouped
      exact ih.step ⟨⟨hs.1.1, hs.1.2.covered he⟩, hs.2⟩

/-- Three operations; the third begins when the first two have logged three blocks. -/
def threeOperations : List (Pid × Act) :=
  [(1, .begin), (1, .tryBegin), (1, .write 600), (2, .begin), (2, .tryBegin), (2, .write 601),
    (1, .write 602), (2, .write 600), (3, .begin), (3, .tryBegin), (3, .write 603)]

theorem log_never_full_threeOperations :
    ∃ s, CoveredReachable s ∧ s.state.outstanding = 3 ∧ s.log.header = [600, 601, 602, 603] ∧
      ∀ p b, step s p (.write b) ≠ some (.error "transaction too big") := by
  have hrun : (replay (guarded (fun s l => WithinBudget s l ∧ Roomy s l) next) boot threeOperations).map
      (fun s => (s.state.outstanding, s.log.header)) = some (3, [600, 601, 602, 603]) := by
    decide +kernel
  obtain ⟨s, hs, hall⟩ := Option.map_eq_some_iff.mp hrun
  obtain ⟨hout, hheader⟩ := Prod.mk.inj hall
  have hreach : CoveredReachable s :=
    coveredReachable_of_roomy (Reach.replay (guarded_step next_step) (.init boot_mkfsInit) hs)
  exact ⟨s, hreach, hout, hheader, log_never_full s hreach⟩

/-! ## An uncovered admission

Seven operations that were all admitted while 63 blocks of an eighth, ended
one were in the log, and that use their whole reservation. -/

/-- The log lists `600, 601, ...`; processes from `lo` up to `hi` are inside
an operation that has logged nothing, those from `hi` on are idle. -/
structure Stage (lo hi out n : Nat) (s : Sys) : Prop where
  reach : BudgetReachable s
  size : s.log.size = 511
  header : s.log.header = blocksFrom600 n
  state : s.state = ⟨out, false⟩
  fresh : ∀ p, lo ≤ p → p < hi → s.pc p = .inOp ∧ s.hist.logged p = []
  idle : ∀ p, hi ≤ p → s.pc p = .idle

theorem Stage.boot : Stage 0 0 0 0 boot :=
  ⟨Reach.init boot_mkfsInit, rfl, rfl, rfl, fun _ _ h => absurd h (Nat.not_lt_zero _),
    fun _ _ => rfl⟩

theorem Stage.admit {lo hi out n : Nat} {s : Sys} (h : Stage lo hi out n s)
    (hfit : n + (out + 1) * maxOpBlocks ≤ logSize) : ∃ s', Stage lo (hi + 1) (out + 1) n s' := by
  have hr1 : BudgetReachable (s.setPc hi .begin) :=
    Reach.step (a := (hi, .begin)) h.reach
      ⟨trivial, by simp [Step, step, h.idle hi (Nat.le_refl _)]⟩
  have hr2 : BudgetReachable (tryBegin (s.setPc hi .begin) hi) :=
    Reach.step (a := (hi, .tryBegin)) hr1 ⟨trivial, by simp [Step, step, Sys.setPc]⟩
  have hadm : admits (s.setPc hi .begin).state (s.setPc hi .begin).log = true := by
    have hlen : (blocksFrom600 n).length = n := by simp [blocksFrom600]
    simp only [admits, Sys.setPc, h.state, Log.len, h.header, hlen]
    simpa using hfit
  rw [tryBegin, if_pos hadm] at hr2
  refine ⟨_, hr2, h.size, h.header, by simp [Sys.setPc, h.state], fun p h1 h2 => ?_,
    fun p hp => ?_⟩
  · by_cases hph : p = hi
    · subst hph
      simp
    · simpa [Sys.setPc, hph] using h.fresh p h1 (by omega)
  · have hph : p ≠ hi := by omega
    simpa [Sys.setPc, hph] using h.idle p (by omega)

theorem blocksFrom600_succ (n : Nat) :
    blocksFrom600 (n + 1) = blocksFrom600 n ++ [UInt64.ofNat (600 + n)] := by
  simp [blocksFrom600, List.range_succ]

theorem not_mem_blocksFrom600 {n : Nat} (h : n < 511) :
    UInt64.ofNat (600 + n) ∉ blocksFrom600 n := by
  have hnd := blocksFrom600_nodup (Nat.succ_le_of_lt h)
  rw [Nat.succ_eq_add_one, blocksFrom600_succ] at hnd
  exact fun hm => List.disjoint_of_nodup_append hnd hm (by simp)

/-- While process `lo` logs: it has logged `k` distinct blocks. -/
structure Logging (lo hi out n k : Nat) (s : Sys) : Prop where
  stage : Stage (lo + 1) hi out n s
  inOp : s.pc lo = .inOp
  logged : (s.hist.logged lo).dedup.length = k
  below : ∀ b ∈ s.hist.logged lo, b ∈ blocksFrom600 n

theorem Stage.logging {lo hi out n : Nat} {s : Sys} (h : Stage lo hi out n s) (hlo : lo < hi) :
    Logging lo hi out n 0 s := by
  obtain ⟨hin, hnil⟩ := h.fresh lo (Nat.le_refl _) hlo
  exact ⟨⟨h.reach, h.size, h.header, h.state, fun p h1 h2 => h.fresh p (by omega) h2, h.idle⟩,
    hin, by simp [hnil], by simp [hnil]⟩

theorem Logging.withinBudget {lo hi out n k : Nat} {s : Sys} (h : Logging lo hi out n k s)
    (hk : k < maxOpBlocks) (hn : n < 511) :
    WithinBudget s (lo, .write (UInt64.ofNat (600 + n))) := by
  have hnew : UInt64.ofNat (600 + n) ∉ s.hist.logged lo := fun hm =>
    not_mem_blocksFrom600 hn (h.below _ hm)
  show (List.dedup _).length ≤ _
  rw [List.dedup_cons_of_notMem hnew, List.length_cons, h.logged]
  omega

theorem Logging.log {lo hi out n k : Nat} {s : Sys} (h : Logging lo hi out n k s)
    (hout : 1 ≤ out) (hk : k < maxOpBlocks) (hn : n < 510) :
    ∃ s', Logging lo hi out (n + 1) (k + 1) s' := by
  have hlen : s.log.len = n := by simp [Log.len, h.stage.header, blocksFrom600]
  have hnew : UInt64.ofNat (600 + n) ∉ s.hist.logged lo := fun hm =>
    not_mem_blocksFrom600 (by omega) (h.below _ hm)
  have hfull : s.log.isFull = false := by
    apply decide_eq_false
    have : ((511 : UInt64) - 1).toNat = 510 := by decide
    rw [hlen, h.stage.size]
    simp only [logSize, maxOpBlocks]
    omega
  obtain ⟨log, hins, hh, -, -, hz⟩ := Log.insert_of_not_mem
    (l := s.log) (b := UInt64.ofNat (600 + n))
    (by rw [h.stage.header]; exact not_mem_blocksFrom600 (by omega))
    (by rw [hlen]; simp only [logSize, maxOpBlocks]; omega)
  have hw : write s.state s.log (UInt64.ofNat (600 + n)) = .ok log := by
    rw [write, hfull, if_neg (by simp), if_neg (by rw [h.stage.state]; exact Nat.not_lt.mpr hout),
      hins]
  have hr : BudgetReachable { s with
      log
      hist := { s.hist with
        logged := Function.update s.hist.logged lo
          (UInt64.ofNat (600 + n) :: s.hist.logged lo) } } :=
    Reach.step (a := (lo, .write (UInt64.ofNat (600 + n)))) h.stage.reach
      ⟨h.withinBudget hk (by omega), by simp only [Step, step, h.inOp, logWrite, hw]⟩
  have hheader : log.header = blocksFrom600 (n + 1) := by
    rw [hh, h.stage.header, blocksFrom600_succ]
  refine ⟨_, ⟨hr, hz.trans h.stage.size, hheader, h.stage.state, fun p h1 h2 => ?_,
    h.stage.idle⟩, h.inOp, ?_, fun b hb => ?_⟩
  · have hne : p ≠ lo := by omega
    simpa [hne] using h.stage.fresh p h1 h2
  · simp only [Function.update_self]
    rw [List.dedup_cons_of_notMem hnew, List.length_cons, h.logged]
  · simp only [Function.update_self, List.mem_cons] at hb
    rw [blocksFrom600_succ, List.mem_append, List.mem_singleton]
    rcases hb with rfl | hb
    · exact .inr rfl
    · exact .inl (h.below b hb)

theorem Logging.logs {lo hi out n k : Nat} {s : Sys} (h : Logging lo hi out n k s)
    (hout : 1 ≤ out) (j : Nat) (hk : k + j ≤ maxOpBlocks)
    (hn : n + j ≤ 510) : ∃ s', Logging lo hi out (n + j) (k + j) s' := by
  induction j with
  | zero => exact ⟨s, h⟩
  | succ j ih =>
      obtain ⟨s₁, h₁⟩ := ih (by omega) (by omega)
      exact h₁.log hout (by omega) (by omega)

theorem Stage.logs {lo hi out n : Nat} {s : Sys} (h : Stage lo hi out n s) (hout : 1 ≤ out)
    (hlo : lo < hi) (j : Nat) (hj : j ≤ maxOpBlocks) (hn : n + j ≤ 510) :
    ∃ s', Stage (lo + 1) hi out (n + j) s' := by
  obtain ⟨s', h'⟩ := (h.logging hlo).logs hout j (by omega) hn
  exact ⟨s', h'.stage⟩

theorem Logging.leave {lo hi out n k : Nat} {s : Sys} (h : Logging lo hi (out + 2) n k s)
    (hlo : lo < hi) : ∃ s', Stage (lo + 1) hi (out + 1) n s' := by
  refine ⟨{ s with
    state := { s.state with outstanding := s.state.outstanding - 1 }
    pc := Function.update s.pc lo .idle
    hist := { s.hist with ended := s.hist.record lo :: s.hist.ended } },
    Reach.step (a := (lo, .endOp)) h.stage.reach ⟨trivial, ?_⟩, h.stage.size, h.stage.header,
    by simp [h.stage.state], fun p h1 h2 => ?_, fun p hp => ?_⟩
  · simp [Step, step, h.inOp, endOp, h.stage.state]
  · have hne : p ≠ lo := by omega
    simpa [hne] using h.stage.fresh p h1 h2
  · have hne : p ≠ lo := by omega
    simpa [hne] using h.stage.idle p hp

/-- Seven operations that each log at most `MAXOPBLOCKS` distinct blocks and
were all admitted by `op::begin`: the last block of the seventh does not
fit, because `is_full` counts the header block and `op::begin` does not. -/
theorem log_full_within_budget :
    ∃ s p b, BudgetReachable s ∧ WithinBudget s (p, .write b) ∧
      step s p (.write b) = some (.error "transaction too big") := by
  obtain ⟨_, h⟩ := Stage.boot.admit (by decide)
  obtain ⟨_, h⟩ := h.admit (by decide)
  obtain ⟨_, h⟩ := (h.logging (by decide)).logs (by decide) 63 (by decide) (by decide)
  obtain ⟨_, h⟩ := h.leave (by decide)
  obtain ⟨_, h⟩ := h.admit (by decide)
  obtain ⟨_, h⟩ := h.admit (by decide)
  obtain ⟨_, h⟩ := h.admit (by decide)
  obtain ⟨_, h⟩ := h.admit (by decide)
  obtain ⟨_, h⟩ := h.admit (by decide)
  obtain ⟨_, h⟩ := h.admit (by decide)
  obtain ⟨_, h⟩ := h.logs (by decide) (by decide) 64 (by decide) (by decide)
  obtain ⟨_, h⟩ := h.logs (by decide) (by decide) 64 (by decide) (by decide)
  obtain ⟨_, h⟩ := h.logs (by decide) (by decide) 64 (by decide) (by decide)
  obtain ⟨_, h⟩ := h.logs (by decide) (by decide) 64 (by decide) (by decide)
  obtain ⟨_, h⟩ := h.logs (by decide) (by decide) 64 (by decide) (by decide)
  obtain ⟨_, h⟩ := h.logs (by decide) (by decide) 64 (by decide) (by decide)
  obtain ⟨s, h⟩ := (h.logging (by decide)).logs (by decide) 63 (by decide) (by decide)
  refine ⟨s, _, _, h.stage.reach, h.withinBudget (by decide) (by decide), ?_⟩
  have hfull : s.log.isFull = true := by
    apply decide_eq_true
    rw [Log.len, h.stage.header, h.stage.size]
    simp only [blocksFrom600, List.length_map, List.length_range]
    decide
  simp [step, h.inOp, logWrite, write, hfull]

end Rxv64.Fslog
