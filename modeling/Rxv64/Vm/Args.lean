import Rxv64.Vm.Fetch
import Rxv64.Vm.Stack

/-!
# Vm.Args — argument vectors through `exec`

`sysfile::exec` collects arguments until it finds a null pointer or has as many
as it can take. `exec` puts the pointers on the new stack without a null pointer
behind them, so the next reader goes on into the last string.
-/

namespace Rxv64.Vm

open Prog Runs

/-! ## The system call -/

/-- The memory that a process sees. -/
def Mem.bytes (m : Mem) (root : Frame) : Bytes := fun v => (m.byte root v).getD 0

/-- `&mem[..pos]`. -/
def Bytes.slice (mem : Bytes) (span : Span) : List (BitVec 8) :=
  (List.range span.len).map fun i => mem (span.start + i)

/-- What `exec` sets in the user context. -/
structure Regs where
  rip : Nat
  rdi : Nat
  rsi : Nat
  rsp : Nat

/-- `exec`. -/
def exec (p : ProcIdx) (args : List (List (BitVec 8))) (readi : FileData) : SysM Regs :=
  if maxArg < args.length then throw "exec: too many arguments"
  else do
    let kpgtbl ← gets Sys.kpgtbl
    let (pgtbl, entry, size) ← vm (loadProgram kpgtbl readi)
    let (argv, sp, _) ← vm (onErr (setupArgs pgtbl args) (dropTable pgtbl))
    let self ← proc p
    setProc p { self with pgtbl := some pgtbl, size, execed := true }
    match self.pgtbl with
    | none => pure ⟨entry, args.length, argv, sp⟩
    | some previous => do
        vm (dropTable previous)
        pure ⟨entry, args.length, argv, sp⟩

/-- `sysfile::exec`, behind the path. -/
def sysExec (p : ProcIdx) (argsPtr : Nat) (readi : FileData) : SysM Regs := do
  let self ← proc p
  match self.pgtbl with
  | none => abort "pgtbl"
  | some root => do
      let mem ← gets fun s => s.mem.bytes root
      match execArgs self.size mem argsPtr with
      | .error m => abort m
      | .ok (.error e) => throw e
      | .ok (.ok args) => exec p (args.map mem.slice) readi

/-- The strings that the loop of `sysfile::exec` finds. -/
def readArgs (size : Nat) (mem : Bytes) (argsPtr : Nat) :
    Checked (Except String (List (List (BitVec 8)))) :=
  match execArgs size mem argsPtr with
  | .error m => .error m
  | .ok (.error e) => .ok (.error e)
  | .ok (.ok args) => .ok (.ok (args.map mem.slice))

/-- An argument vector with a null pointer at its end. -/
structure UserVector (m : Mem) (root : Frame) (size argsPtr : Nat)
    (args : List (List (BitVec 8))) : Prop where
  pointer : ∀ (k : Nat) (arg : List (BitVec 8)), args[k]? = some arg → ∃ u, u ≠ 0 ∧
    fetchUsize size (m.bytes root) (argsPtr + k * 8) = .ok (some u) ∧
    fetchStr size (m.bytes root) u = .ok (some ⟨u, arg.length⟩) ∧
    (∀ i < arg.length, m.byte root (u + i) = arg[i]?) ∧ m.byte root (u + arg.length) = some 0
  null : fetchUsize size (m.bytes root) (argsPtr + args.length * 8) = .ok (some 0)

variable {size argsPtr n k : Nat} {mem : Bytes} {m : Mem} {root : Frame} {spans : List Span}
  {args : List (List (BitVec 8))} {arg : List (BitVec 8)} {s : Sys} {l : List Frame} {p : ProcIdx}
  {file : List (BitVec 8)} {fails : Nat → Nat → Option String} {env : Env}

/-! ## Walking -/

/-- The pointers from the `k`-th on lead to these strings. -/
def Points (size : Nat) (mem : Bytes) (argsPtr k : Nat) (spans : List Span) : Prop :=
  ∀ (j : Nat) (span : Span), spans[j]? = some span → span.start ≠ 0 ∧
    fetchUsize size mem (argsPtr + (k + j) * 8) = .ok (some span.start) ∧
    fetchStr size mem span.start = .ok (some span)

/-- The rest of a walk, behind strings that have been found. -/
def after (spans : List Span) : Checked (Except String (List Span)) →
    Checked (Except String (List Span))
  | .ok (.ok rest) => .ok (.ok (spans ++ rest))
  | r => r

theorem walkArgs_append (hend : argsPtr + (k + spans.length) * 8 < 2 ^ 64)
    (hk : k + spans.length ≤ maxArg) (h : Points size mem argsPtr k spans) :
    walkArgs size mem argsPtr (spans.length + n) k =
      after spans (walkArgs size mem argsPtr n (k + spans.length)) := by
  induction spans generalizing k with
  | nil =>
      rw [List.length_nil, Nat.zero_add, Nat.add_zero]
      cases walkArgs size mem argsPtr n k with
      | error e => rfl
      | ok r => cases r <;> rfl
  | cons span spans ih =>
      obtain ⟨hne, hword, hstr⟩ := h 0 span rfl
      rw [List.length_cons] at hend hk ⊢
      have hmul : mulChk k 8 = .ok (k * 8) := if_pos (by omega)
      have hadd : addChk argsPtr (k * 8) = .ok (argsPtr + k * 8) := if_pos (by omega)
      have hrest : Points size mem argsPtr (k + 1) spans := by
        intro j span' hj
        obtain ⟨h₁, h₂, h₃⟩ := h (j + 1) span' hj
        rw [show k + (j + 1) = k + 1 + j by omega] at h₂
        exact ⟨h₁, h₂, h₃⟩
      have hgo : k < maxArg ∧ span.start ≠ 0 := ⟨by omega, hne⟩
      rw [show spans.length + 1 + n = spans.length + n + 1 by omega, walkArgs]
      simp only [hmul, hadd, bind, Except.bind, Nat.add_zero] at hword ⊢
      rw [hword]
      simp only [if_pos hgo, hstr]
      rw [ih (by omega) (by omega) hrest, show k + 1 + spans.length = k + (spans.length + 1) by omega]
      cases walkArgs size mem argsPtr n (k + (spans.length + 1)) with
      | error e => rfl
      | ok r => cases r <;> rfl

theorem walkArgs_stop {ptr : Nat} (hend : argsPtr + k * 8 < 2 ^ 64)
    (hword : fetchUsize size mem (argsPtr + k * 8) = .ok (some ptr))
    (hstop : ¬(k < maxArg ∧ ptr ≠ 0)) : walkArgs size mem argsPtr (n + 1) k = .ok (.ok []) := by
  have hmul : mulChk k 8 = .ok (k * 8) := if_pos (by omega)
  have hadd : addChk argsPtr (k * 8) = .ok (argsPtr + k * 8) := if_pos hend
  rw [walkArgs]
  simp only [hmul, hadd, bind, Except.bind, hword, if_neg hstop]
  rfl

/-- A walk that goes on finds another string, or something wrong. -/
theorem walkArgs_go {ptr : Nat} (hend : argsPtr + k * 8 < 2 ^ 64)
    (hword : fetchUsize size mem (argsPtr + k * 8) = .ok (some ptr))
    (hgo : k < maxArg ∧ ptr ≠ 0) : walkArgs size mem argsPtr (n + 1) k ≠ .ok (.ok []) := by
  have hmul : mulChk k 8 = .ok (k * 8) := if_pos (by omega)
  have hadd : addChk argsPtr (k * 8) = .ok (argsPtr + k * 8) := if_pos hend
  rw [walkArgs]
  simp only [hmul, hadd, bind, Except.bind, hword, if_pos hgo]
  cases fetchStr size mem ptr with
  | error e =>
      intro h
      cases h
  | ok o =>
      cases o with
      | none =>
          intro h
          cases h
      | some arg =>
          dsimp only
          cases walkArgs size mem argsPtr n (k + 1) with
          | error e =>
              intro h
              cases h
          | ok r =>
              cases r with
              | error e =>
                  intro h
                  cases h
              | ok rest =>
                  intro h
                  cases h

theorem walkArgs_none (hend : argsPtr + k * 8 < 2 ^ 64)
    (hword : fetchUsize size mem (argsPtr + k * 8) = .ok none) :
    walkArgs size mem argsPtr (n + 1) k = .ok (.error "bad argv") := by
  have hmul : mulChk k 8 = .ok (k * 8) := if_pos (by omega)
  have hadd : addChk argsPtr (k * 8) = .ok (argsPtr + k * 8) := if_pos hend
  rw [walkArgs]
  simp only [hmul, hadd, bind, Except.bind, hword]
  rfl

/-! ## What the memory holds -/

theorem bytes_of_byte {v : Nat} {b : BitVec 8} (h : m.byte root v = some b) :
    m.bytes root v = b := by
  rw [Mem.bytes, h]
  rfl

theorem slice_bytes {u : Nat} (h : ∀ i < arg.length, m.byte root (u + i) = arg[i]?) :
    (m.bytes root).slice ⟨u, arg.length⟩ = arg := by
  refine List.ext_getElem (by simp [Bytes.slice]) fun i h₁ h₂ => ?_
  simp only [Bytes.slice, List.getElem_map, List.getElem_range]
  exact bytes_of_byte ((h i h₂).trans (List.getElem?_eq_getElem h₂))

theorem word_bytes {u v : Nat} (h : m.word root v = some u) : (m.bytes root).word v = u := by
  unfold Mem.word at h
  unfold Bytes.word Mem.bytes
  simp only [List.range, List.range.loop, List.foldr, Option.bind_eq_bind, Option.bind_eq_some_iff,
    Option.pure_def, Option.some.injEq] at h ⊢
  obtain ⟨b₀, h₀, w₀, ⟨b₁, h₁, w₁, ⟨b₂, h₂, w₂, ⟨b₃, h₃, w₃, ⟨b₄, h₄, w₄, ⟨b₅, h₅, w₅, ⟨b₆, h₆, w₆,
    ⟨b₇, h₇, w₇, rfl, rfl⟩, rfl⟩, rfl⟩, rfl⟩, rfl⟩, rfl⟩, rfl⟩, rfl⟩ := h
  rw [h₀, h₁, h₂, h₃, h₄, h₅, h₆, h₇]
  rfl

/-- Where a string ends. -/
theorem position_eq_some {off len pos : Nat} :
    position mem off len = some pos ↔
      pos < len ∧ mem (off + pos) = 0 ∧ ∀ i < pos, mem (off + i) ≠ 0 := by
  induction len generalizing off pos with
  | zero => simp [position]
  | succ len ih =>
      unfold position
      by_cases hz : mem off = 0
      · rw [if_pos hz]
        constructor
        · intro h
          cases h
          exact ⟨Nat.succ_pos len, hz, fun i hi => absurd hi (Nat.not_lt_zero i)⟩
        · rintro ⟨-, -, hpos⟩
          rcases Nat.eq_zero_or_pos pos with rfl | hlt
          · rfl
          · exact absurd hz (hpos 0 hlt)
      · rw [if_neg hz, Option.map_eq_some_iff]
        constructor
        · rintro ⟨q, hq, rfl⟩
          obtain ⟨hlt, hend, hbefore⟩ := ih.mp hq
          refine ⟨Nat.succ_lt_succ hlt, ?_, fun i hi => ?_⟩
          · rw [show off + (q + 1) = off + 1 + q by omega]
            exact hend
          · obtain _ | i := i
            · exact hz
            · rw [show off + (i + 1) = off + 1 + i by omega]
              exact hbefore i (Nat.lt_of_succ_lt_succ hi)
        · rintro ⟨hlt, hend, hbefore⟩
          obtain _ | q := pos
          · exact absurd hend hz
          · refine ⟨q, ih.mpr ⟨Nat.lt_of_succ_lt_succ hlt, ?_, fun i hi => ?_⟩, rfl⟩
            · rw [show off + 1 + q = off + (q + 1) by omega]
              exact hend
            · rw [show off + 1 + i = off + (i + 1) by omega]
              exact hbefore (i + 1) (Nat.succ_lt_succ hi)

end Rxv64.Vm
