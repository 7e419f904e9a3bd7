import Rxv64.Vm.Programs

/-!
# Vm.Fetch — user pointers in system calls

`is_user_addr`, `user_region_end` and the `fetch_*` of `kernel/src/proc.rs`, and
the walk over `argv` of `kernel/src/sysfile.rs`. Addresses and lengths are any
64-bit values. Arithmetic is that of a build with overflow checks, where an
overflow is a panic. A slice is never at address 0: that would be a null
reference, and `Some` of one is `None`. (This is the release build; one with
debug assertions stops where such a slice is made, so that it fetches nothing
there either.)
-/

namespace Rxv64.Vm

open Runs

/-- The result, or the message of a panic. -/
abbrev Checked := Except String

def addChk (a b : Nat) : Checked Nat :=
  if a + b < 2 ^ 64 then .ok (a + b) else .error "attempt to add with overflow"

def subChk (a b : Nat) : Checked Nat :=
  if b ≤ a then .ok (a - b) else .error "attempt to subtract with overflow"

def mulChk (a b : Nat) : Checked Nat :=
  if a * b < 2 ^ 64 then .ok (a * b) else .error "attempt to multiply with overflow"

/-- What the memory holds at each address. -/
abbrev Bytes := Nat → BitVec 8

/-- `ptr::read_unaligned` of a word. -/
def Bytes.word (mem : Bytes) (a : Nat) : Nat :=
  (List.range 8).foldr (fun i w => (mem (a + i)).toNat + 256 * w) 0

/-- A slice: where it starts and how long it is. -/
structure Span where
  start : Nat
  len : Nat
  deriving DecidableEq, Repr

/-- `Some` of a slice at `off`. -/
def sliceAt (off len : Nat) : Option Span := if off = 0 then none else some ⟨off, len⟩

/-- `is_user_addr`. -/
def isUserAddr (size va : Nat) : Bool := va < size || (userStack ≤ va && va < userEnd)

/-- `user_region_end`. -/
def userRegionEnd (size va : Nat) : Option Nat :=
  if isUserAddr size va then some (if va < size then size else userEnd) else none

/-- `fetch_usize`. -/
def fetchUsize (size : Nat) (mem : Bytes) (off : Nat) : Checked (Option Nat) :=
  match userRegionEnd size off with
  | none => pure none
  | some rend => do
      if (← subChk rend off) < 8 then pure none else pure (some (mem.word off))

/-- `mem.iter().position(|b| *b == 0)`, for `len` bytes. -/
def position (mem : Bytes) (off : Nat) : Nat → Option Nat
  | 0 => none
  | len + 1 => if mem off = 0 then some 0 else (position mem (off + 1) len).map (· + 1)

/-- `fetch_str`. -/
def fetchStr (size : Nat) (mem : Bytes) (off : Nat) : Checked (Option Span) :=
  match userRegionEnd size off with
  | none => pure none
  | some rend => do
      let len ← subChk rend off
      pure ((position mem off len).bind (sliceAt off))

/-- `fetch_slice`. -/
def fetchSlice (size off len : Nat) : Checked (Option Span) :=
  match userRegionEnd size off with
  | none => pure none
  | some rend => do
      if (← subChk rend off) < len then pure none else pure (sliceAt off len)

/-- `fetch_slice_mut`. -/
def fetchSliceMut (size off len : Nat) : Checked (Option Span) := fetchSlice size off len

/-- `fetch_ptr_mut`, for a type of `sizeOf` bytes. -/
def fetchPtrMut (size sizeOf off len : Nat) : Checked (Option Nat) :=
  match userRegionEnd size off with
  | none => pure none
  | some rend => do
      let bytes ← mulChk len sizeOf
      if (← subChk rend off) < bytes then pure none else pure (some off)

/-- The walk over `argv` in `sysfile::exec`, from argument `k` on; `n` turns are
left. -/
def walkArgs (size : Nat) (mem : Bytes) (argsPtr : Nat) : Nat → Nat →
    Checked (Except String (List Span))
  | 0, _ => pure (.ok [])
  | n + 1, k => do
      let uargp ← addChk argsPtr (← mulChk k 8)
      match ← fetchUsize size mem uargp with
      | none => pure (.error "bad argv")
      | some ptr =>
          if k < maxArg ∧ ptr ≠ 0 then do
            match ← fetchStr size mem ptr with
            | none => pure (.error "bad argument")
            | some arg => do
                match ← walkArgs size mem argsPtr n (k + 1) with
                | .error e => pure (.error e)
                | .ok args => pure (.ok (arg :: args))
          else pure (.ok [])

/-- The arguments of `sysfile::exec`. -/
def execArgs (size : Nat) (mem : Bytes) (argsPtr : Nat) : Checked (Except String (List Span)) :=
  walkArgs size mem argsPtr (maxArg + 1) 0

/-! ## Where the ranges lie -/

/-- A range below the size or in the stack, that does not wrap around. -/
def Inside (size : Nat) (span : Span) : Prop :=
  span.start + span.len < 2 ^ 64 ∧
  (span.start + span.len ≤ size ∨ (userStack ≤ span.start ∧ span.start + span.len ≤ userEnd))

/-- No panic, and what was fetched is as said. -/
def Fetches {α : Type} (r : Checked (Option α)) (Q : α → Prop) : Prop :=
  ∃ o, r = .ok o ∧ ∀ a ∈ o, Q a

variable {size off len rend n k : Nat} {mem : Bytes} {s : Sys}

/-- The region of an address: it ends after the address, and everything up to
there is inside. -/
theorem userRegionEnd_some (h : userRegionEnd size off = some rend) (hsize : size ≤ userEnd) :
    off < rend ∧ ∀ len, len ≤ rend - off → Inside size ⟨off, len⟩ := by
  unfold userRegionEnd isUserAddr at h
  have hend : userEnd < 2 ^ 64 := by decide
  split at h
  · next haddr =>
    simp only [Bool.or_eq_true, decide_eq_true_eq, Bool.and_eq_true] at haddr
    cases h
    split
    · refine ⟨by assumption, fun len hlen => ⟨?_, .inl ?_⟩⟩
      · simp only
        omega
      · simp only
        omega
    · next hge =>
      have hst := haddr.resolve_left hge
      refine ⟨hst.2, fun len hlen => ⟨?_, .inr ⟨hst.1, ?_⟩⟩⟩
      · simp only
        omega
      · simp only
        omega
  · cases h

theorem sliceAt_eq_some {span : Span} : sliceAt off len = some span ↔ off ≠ 0 ∧ span = ⟨off, len⟩ := by
  unfold sliceAt
  split
  · next h0 => simp [h0]
  · next h0 => simp [h0, eq_comm]

theorem sliceAt_of_pos (h : 0 < off) : sliceAt off len = some ⟨off, len⟩ := if_neg (Nat.ne_of_gt h)

theorem subChk_le {a b : Nat} (h : b ≤ a) : subChk a b = .ok (a - b) := if_pos h

theorem fetchUsize_inside (hsize : size ≤ userEnd) :
    Fetches (fetchUsize size mem off) fun v => v = mem.word off ∧ Inside size ⟨off, 8⟩ := by
  unfold fetchUsize
  cases hr : userRegionEnd size off with
  | none => exact ⟨none, rfl, fun _ ha => by cases ha⟩
  | some rend =>
      obtain ⟨hlt, hin⟩ := userRegionEnd_some hr hsize
      simp only [subChk_le (Nat.le_of_lt hlt)]
      by_cases hlen : rend - off < 8
      · refine ⟨none, if_pos hlen, fun _ ha => by cases ha⟩
      · refine ⟨some (mem.word off), if_neg hlen, fun a ha => ?_⟩
        cases ha
        exact ⟨rfl, hin 8 (Nat.not_lt.mp hlen)⟩

theorem position_lt {pos : Nat} (h : position mem off len = some pos) : pos < len := by
  induction len generalizing off pos with
  | zero => cases h
  | succ len ih =>
      unfold position at h
      split at h
      · cases h
        exact Nat.succ_pos len
      · obtain ⟨pos', hpos', rfl⟩ := Option.map_eq_some_iff.mp h
        exact Nat.succ_lt_succ (ih hpos')

/-- The string and its NUL. -/
theorem fetchStr_inside (hsize : size ≤ userEnd) :
    Fetches (fetchStr size mem off) fun span =>
      span.start = off ∧ Inside size ⟨off, span.len + 1⟩ := by
  unfold fetchStr
  cases hr : userRegionEnd size off with
  | none => exact ⟨none, rfl, fun _ ha => by cases ha⟩
  | some rend =>
      obtain ⟨hlt, hin⟩ := userRegionEnd_some hr hsize
      simp only [subChk_le (Nat.le_of_lt hlt)]
      refine ⟨_, rfl, fun a ha => ?_⟩
      obtain ⟨pos, hpos, hspan⟩ := Option.bind_eq_some_iff.mp ha
      obtain ⟨-, rfl⟩ := sliceAt_eq_some.mp hspan
      exact ⟨rfl, hin (pos + 1) (position_lt hpos)⟩

theorem fetchSlice_inside (hsize : size ≤ userEnd) :
    Fetches (fetchSlice size off len) fun span => span = ⟨off, len⟩ ∧ Inside size ⟨off, len⟩ := by
  unfold fetchSlice
  cases hr : userRegionEnd size off with
  | none => exact ⟨none, rfl, fun _ ha => by cases ha⟩
  | some rend =>
      obtain ⟨hlt, hin⟩ := userRegionEnd_some hr hsize
      simp only [subChk_le (Nat.le_of_lt hlt)]
      by_cases hlen : rend - off < len
      · exact ⟨none, if_pos hlen, fun _ ha => by cases ha⟩
      · refine ⟨sliceAt off len, if_neg hlen, fun a ha => ?_⟩
        exact ⟨(sliceAt_eq_some.mp ha).2, hin len (Nat.not_lt.mp hlen)⟩

theorem fetchPtrMut_inside {sizeOf : Nat} (hsize : size ≤ userEnd) (hmul : len * sizeOf < 2 ^ 64) :
    Fetches (fetchPtrMut size sizeOf off len) fun ptr =>
      ptr = off ∧ Inside size ⟨off, len * sizeOf⟩ := by
  unfold fetchPtrMut
  cases hr : userRegionEnd size off with
  | none => exact ⟨none, rfl, fun _ ha => by cases ha⟩
  | some rend =>
      obtain ⟨hlt, hin⟩ := userRegionEnd_some hr hsize
      have hmul : mulChk len sizeOf = .ok (len * sizeOf) := if_pos hmul
      simp only [subChk_le (Nat.le_of_lt hlt), hmul]
      by_cases hlen : rend - off < len * sizeOf
      · exact ⟨none, if_pos hlen, fun _ ha => by cases ha⟩
      · refine ⟨some off, if_neg hlen, fun a ha => ?_⟩
        cases ha
        exact ⟨rfl, hin (len * sizeOf) (Nat.not_lt.mp hlen)⟩

/-- The walk only goes on from a pointer that was fetched, so that the next one
does not wrap. -/
theorem walkArgs_inside {argsPtr : Nat} (hsize : size ≤ userEnd) (hk : argsPtr + k * 8 < 2 ^ 64) :
    ∃ r, walkArgs size mem argsPtr n k = .ok r ∧
      ∀ args, r = .ok args → ∀ arg ∈ args, Inside size ⟨arg.start, arg.len + 1⟩ := by
  induction n generalizing k with
  | zero =>
      refine ⟨.ok [], rfl, fun args hargs arg harg => ?_⟩
      cases hargs
      cases harg
  | succ n ih =>
      have hmul : mulChk k 8 = .ok (k * 8) := if_pos (by omega)
      have hadd : addChk argsPtr (k * 8) = .ok (argsPtr + k * 8) := if_pos hk
      have hfetch : Fetches (fetchUsize size mem (argsPtr + k * 8)) _ := fetchUsize_inside hsize
      obtain ⟨o, ho, hword⟩ := hfetch
      simp only [walkArgs, hmul, hadd, ho, bind, Except.bind]
      cases o with
      | none => exact ⟨_, rfl, fun args hargs => by cases hargs⟩
      | some ptr =>
          by_cases hgo : k < maxArg ∧ ptr ≠ 0
          · simp only [if_pos hgo]
            have hfetch : Fetches (fetchStr size mem ptr) _ := fetchStr_inside hsize
            obtain ⟨o', ho', hstr⟩ := hfetch
            simp only [ho']
            cases o' with
            | none => exact ⟨_, rfl, fun args hargs => by cases hargs⟩
            | some arg =>
                have hnext : argsPtr + (k + 1) * 8 < 2 ^ 64 := by
                  have := (hword ptr rfl).2.1
                  simp only at this
                  omega
                obtain ⟨r, hr, hrest⟩ := ih hnext
                simp only [hr]
                cases r with
                | error e => exact ⟨_, rfl, fun args hargs => by cases hargs⟩
                | ok args =>
                    refine ⟨_, rfl, fun args' hargs a ha => ?_⟩
                    cases hargs
                    obtain ⟨hstart, hin⟩ := hstr arg rfl
                    rcases List.mem_cons.mp ha with rfl | ha
                    · rw [hstart]
                      exact hin
                    · exact hrest args rfl a ha
          · simp only [if_neg hgo]
            refine ⟨_, rfl, fun args hargs arg harg => ?_⟩
            cases hargs
            cases harg

/-- A range without its last byte. -/
theorem Inside.shorten {span : Span} {start : Nat} (h : Inside size ⟨start, span.len + 1⟩)
    (hs : span.start = start) : Inside size span := by
  unfold Inside at h ⊢
  simp only at h
  omega

theorem Fetches.imp {α : Type} {r : Checked (Option α)} {Q R : α → Prop} (h : Fetches r Q)
    (hQ : ∀ a, Q a → R a) : Fetches r R := by
  obtain ⟨o, ho, hq⟩ := h
  exact ⟨o, ho, fun a ha => hQ a (hq a ha)⟩

theorem Fetches.of_ok {α : Type} {r : Checked (Option α)} {Q : α → Prop} (h : Fetches r Q) {a : α}
    (hr : r = .ok (some a)) : Q a := by
  obtain ⟨o, ho, hq⟩ := h
  rw [hr] at ho
  cases ho
  exact hq a rfl

/-- **User pointers are checked**: in every reachable state, for all addresses
and lengths, what a system call fetches lies in the process's memory or in its
stack, and no arithmetic overflows. -/
theorem user_pointers_checked (h : Reach Sys.Init Sys.Step s) (p : ProcIdx) (mem : Bytes) (len : Nat)
    {off : Nat} (hoff : off < 2 ^ 64) :
    (s.procs p).size ≤ userEnd ∧
    Fetches (fetchUsize (s.procs p).size mem off) (fun _ => Inside (s.procs p).size ⟨off, 8⟩) ∧
    Fetches (fetchStr (s.procs p).size mem off) (fun span => Inside (s.procs p).size span) ∧
    Fetches (fetchSlice (s.procs p).size off len) (fun span => Inside (s.procs p).size span) ∧
    Fetches (fetchSliceMut (s.procs p).size off len) (fun span => Inside (s.procs p).size span) ∧
    (∀ n, n = 1 ∨ n = 2 → Fetches (fetchPtrMut (s.procs p).size 4 off n)
      fun ptr => Inside (s.procs p).size ⟨ptr, n * 4⟩) ∧
    ∃ r, execArgs (s.procs p).size mem off = .ok r ∧
      ∀ args, r = .ok args → ∀ arg ∈ args, Inside (s.procs p).size arg := by
  obtain ⟨l, hown⟩ := owns_of_reach h
  have hsize := (hown.fit p).size
  have hslice : Fetches (fetchSlice (s.procs p).size off len)
      fun span => Inside (s.procs p).size span :=
    (fetchSlice_inside hsize).imp fun span hspan => hspan.1 ▸ hspan.2
  refine ⟨hsize, (fetchUsize_inside hsize).imp fun _ hv => hv.2,
    (fetchStr_inside hsize).imp fun span hspan => hspan.2.shorten hspan.1, hslice, hslice,
    fun n hn => ?_, ?_⟩
  · have hmul : n * 4 < 2 ^ 64 := by omega
    exact (fetchPtrMut_inside hsize hmul).imp fun ptr hptr => hptr.1 ▸ hptr.2
  · obtain ⟨r, hr, hargs⟩ := walkArgs_inside (n := maxArg + 1) (k := 0) hsize
      (by omega : off + 0 * 8 < 2 ^ 64)
    exact ⟨r, hr, fun args ha arg harg => (hargs args ha arg harg).shorten rfl⟩

/-- The first process after an `exec` and an `sbrk`: its last eight bytes below
the end of the heap, and those at the end of its stack. -/
theorem user_pointers_checked_grown : ∃ s, Reach Sys.Init Sys.Step s ∧
    (s.procs initProc).size = pageSize ∧
    fetchSlice (s.procs initProc).size (userEnd - 8) 8 = .ok (some ⟨userEnd - 8, 8⟩) ∧
    Inside (s.procs initProc).size ⟨userEnd - 8, 8⟩ ∧
    Inside (s.procs initProc).size ⟨pageSize - 8, 8⟩ := by
  obtain ⟨s, -, -, hreach, -, -, hsize, -⟩ := grown_run
  have hsteps : Reach Sys.Init Sys.Step s := hreach.mono fun _ _ _ hs => hs.2
  have hstack : fetchSlice (s.procs initProc).size (userEnd - 8) 8 =
      .ok (some ⟨userEnd - 8, 8⟩) := by
    rw [hsize]
    decide
  have hheap : fetchSlice (s.procs initProc).size (pageSize - 8) 8 =
      .ok (some ⟨pageSize - 8, 8⟩) := by
    rw [hsize]
    decide
  have hat {off : Nat} (hoff : off < 2 ^ 64)
      (hf : fetchSlice (s.procs initProc).size off 8 = .ok (some ⟨off, 8⟩)) :
      Inside (s.procs initProc).size ⟨off, 8⟩ :=
    (user_pointers_checked hsteps initProc (fun _ => 0) 8 hoff).2.2.2.1.of_ok hf
  exact ⟨s, hsteps, hsize, hstack, hat (by decide) hstack, hat (by decide) hheap⟩

end Rxv64.Vm
