import Rxv64.Vm.Args

/-!
# Vm.Vector — the vector that `exec` leaves

The reader of `sysfile::exec` stops at a null pointer or behind `MAXARG` of them.
`exec` writes no null pointer, so what stops the reader of the new vector is the
count or the last string.
-/

namespace Rxv64.Vm

open Prog Runs Radix

variable {size argsPtr argv sp n k : Nat} {mem : Bytes} {A : Set Frame} {m m' : Mem} {root : Frame}
  {spans : List Span} {args : List (List (BitVec 8))} {arg : List (BitVec 8)} {uargs : List Nat}
  {s : Sys} {l : List Frame} {p : ProcIdx} {file : List (BitVec 8)}
  {fails : Nat → Nat → Option String} {env : Env}

/-! ## The caller's vector -/

theorem fetchUsize_bound {off v : Nat} (hsize : size ≤ userEnd)
    (h : fetchUsize size mem off = .ok (some v)) : off + 8 < 2 ^ 64 := by
  obtain ⟨o, ho, hin⟩ : Fetches (fetchUsize size mem off) _ := fetchUsize_inside hsize
  rw [h] at ho
  cases ho
  exact (hin v rfl).2.1

/-- Where the reader stops. -/
theorem UserVector.stops (hv : UserVector m root size argsPtr args) :
    ∃ ptr, fetchUsize size (m.bytes root) (argsPtr + (args.take maxArg).length * 8) = .ok (some ptr) ∧
      ¬((args.take maxArg).length < maxArg ∧ ptr ≠ 0) := by
  rw [List.length_take]
  by_cases hn : args.length ≤ maxArg
  · rw [Nat.min_eq_right hn]
    exact ⟨0, hv.null, fun hgo => hgo.2 rfl⟩
  · rw [Nat.min_eq_left (by omega)]
    obtain ⟨u, -, hword, -⟩ := hv.pointer maxArg _ (List.getElem?_eq_getElem (by omega))
    exact ⟨u, hword, fun hgo => Nat.lt_irrefl _ hgo.1⟩

/-- The reader finds the arguments, as many as it can take. -/
theorem execArgs_vector (hsize : size ≤ userEnd) (hv : UserVector m root size argsPtr args) :
    ∃ spans, execArgs size (m.bytes root) argsPtr = .ok (.ok spans) ∧
      spans.map (m.bytes root).slice = args.take maxArg := by
  have hall : ∀ k, ∃ u, ∀ arg, args[k]? = some arg → u ≠ 0 ∧
      fetchUsize size (m.bytes root) (argsPtr + k * 8) = .ok (some u) ∧
      fetchStr size (m.bytes root) u = .ok (some ⟨u, arg.length⟩) ∧
      ∀ i < arg.length, m.byte root (u + i) = arg[i]? := by
    intro k
    cases harg : args[k]? with
    | none => exact ⟨0, fun arg ha => (by cases ha)⟩
    | some arg =>
        obtain ⟨u, hne, hword, hstr, hbytes, -⟩ := hv.pointer k arg harg
        refine ⟨u, fun a ha => ?_⟩
        cases ha
        exact ⟨hne, hword, hstr, hbytes⟩
  choose us hus using hall
  have htake : ∀ (j : Nat) (arg : List (BitVec 8)), (args.take maxArg)[j]? = some arg →
      args[j]? = some arg := by
    intro j arg hj
    rw [List.getElem?_take] at hj
    split at hj
    · exact hj
    · cases hj
  let spans := (args.take maxArg).mapIdx fun k arg => (⟨us k, arg.length⟩ : Span)
  have hspan : ∀ (j : Nat) (span : Span), spans[j]? = some span →
      ∃ arg, (args.take maxArg)[j]? = some arg ∧ span = ⟨us j, arg.length⟩ := by
    intro j span hj
    rw [List.getElem?_mapIdx, Option.map_eq_some_iff] at hj
    obtain ⟨arg, harg, rfl⟩ := hj
    exact ⟨arg, harg, rfl⟩
  have hlen : spans.length = (args.take maxArg).length := List.length_mapIdx
  have hmax : spans.length ≤ maxArg := by
    rw [hlen, List.length_take]
    exact Nat.min_le_left _ _
  have hpoints : Points size (m.bytes root) argsPtr 0 spans := by
    intro j span hj
    obtain ⟨arg, harg, rfl⟩ := hspan j span hj
    obtain ⟨hne, hword, hstr, -⟩ := hus j arg (htake j arg harg)
    rw [Nat.zero_add]
    exact ⟨hne, hword, hstr⟩
  obtain ⟨ptr, hword, hstop⟩ := hv.stops
  rw [← hlen] at hword hstop
  have hbound := fetchUsize_bound hsize hword
  refine ⟨spans, ?_, List.ext_getElem? fun j => ?_⟩
  · have hwalk : walkArgs size (m.bytes root) argsPtr (spans.length + (maxArg - spans.length + 1)) 0 =
        after spans (walkArgs size (m.bytes root) argsPtr (maxArg - spans.length + 1)
          (0 + spans.length)) := walkArgs_append (by omega) (by omega) hpoints
    rw [Nat.zero_add, walkArgs_stop (by omega) hword hstop,
      show spans.length + (maxArg - spans.length + 1) = maxArg + 1 by omega] at hwalk
    rw [execArgs, hwalk, after, List.append_nil]
  · rw [List.getElem?_map, List.getElem?_mapIdx]
    cases harg : (args.take maxArg)[j]? with
    | none => rfl
    | some arg =>
        obtain ⟨-, -, -, hbytes⟩ := hus j arg (htake j arg harg)
        exact congrArg some (slice_bytes hbytes)

/-! ## The new vector -/

theorem fetchUsize_stack {off : Nat} (hsize : size ≤ userStack) (hlow : userStack ≤ off)
    (hend : off + 8 ≤ userEnd) : fetchUsize size mem off = .ok (some (mem.word off)) := by
  have haddr : isUserAddr size off = true := by
    simp only [isUserAddr, Bool.or_eq_true, decide_eq_true_eq, Bool.and_eq_true]
    omega
  have hregion : userRegionEnd size off = some userEnd := by
    rw [userRegionEnd, if_pos haddr, if_neg (by omega)]
  simp only [fetchUsize, hregion, subChk_le (show off ≤ userEnd by omega), bind, Except.bind]
  rw [if_neg (by omega)]
  rfl

theorem fetchUsize_end (hsize : size ≤ userStack) : fetchUsize size mem userEnd = .ok none := by
  have haddr : isUserAddr size userEnd = false := by
    simp only [isUserAddr, Bool.or_eq_false_iff, decide_eq_false_iff_not, Bool.and_eq_false_iff]
    have hlt : userStack < userEnd := by decide
    omega
  have hregion : userRegionEnd size userEnd = none := by
    rw [userRegionEnd, haddr]
    rfl
  simp only [fetchUsize, hregion]
  rfl

/-- A string on the stack is found as it is. -/
theorem fetchStr_stack {u : Nat} (hsize : size ≤ userStack) (hlow : userStack ≤ u)
    (hend : u + arg.length < userEnd) (hbytes : ∀ i < arg.length, m.byte root (u + i) = arg[i]?)
    (hnul : m.byte root (u + arg.length) = some 0) (hzero : (0 : BitVec 8) ∉ arg) :
    fetchStr size (m.bytes root) u = .ok (some ⟨u, arg.length⟩) := by
  have haddr : isUserAddr size u = true := by
    simp only [isUserAddr, Bool.or_eq_true, decide_eq_true_eq, Bool.and_eq_true]
    omega
  have hregion : userRegionEnd size u = some userEnd := by
    rw [userRegionEnd, if_pos haddr, if_neg (by omega)]
  have hpos : position (m.bytes root) u (userEnd - u) = some arg.length := by
    refine position_eq_some.mpr ⟨by omega, bytes_of_byte hnul, fun i hi hz => ?_⟩
    have hbyte := bytes_of_byte ((hbytes i hi).trans (List.getElem?_eq_getElem hi))
    rw [hbyte] at hz
    exact hzero (hz ▸ List.getElem_mem hi)
  have hpos' : 0 < u := Nat.lt_of_lt_of_le (by decide) hlow
  simp only [fetchStr, hregion, subChk_le (show u ≤ userEnd by omega), bind, Except.bind, hpos,
    Option.bind_some, sliceAt_of_pos hpos']
  rfl

theorem word_ne_zero {off : Nat} (h : mem off ≠ 0) : mem.word off ≠ 0 := by
  have hbyte : (mem off).toNat ≠ 0 := fun hz => h (BitVec.eq_of_toNat_eq hz)
  unfold Bytes.word
  simp only [List.range, List.range.loop, List.foldr, Nat.add_zero]
  omega

/-- The strings that the pointers on the stack lead to. -/
def stackSpans (uargs : List Nat) (args : List (List (BitVec 8))) : List Span :=
  List.zipWith (fun u arg => ⟨u, arg.length⟩) uargs args

theorem getElem?_stackSpans {j : Nat} {span : Span}
    (hj : (stackSpans uargs args)[j]? = some span) :
    ∃ u arg, uargs[j]? = some u ∧ args[j]? = some arg ∧ span = ⟨u, arg.length⟩ := by
  unfold stackSpans at hj
  rw [List.getElem?_zipWith] at hj
  split at hj
  · next u arg hu harg =>
    cases hj
    exact ⟨u, arg, hu, harg, rfl⟩
  · cases hj

theorem Stacked.length_spans (hst : Stacked m root args argv sp uargs) :
    (stackSpans uargs args).length = args.length := by
  rw [stackSpans, List.length_zipWith, hst.strings.length, Nat.min_self]

theorem Stacked.points (hst : Stacked m root args argv sp uargs) (hsize : size ≤ userStack)
    (hzero : ∀ arg ∈ args, (0 : BitVec 8) ∉ arg) :
    Points size (m.bytes root) argv 0 (stackSpans uargs args) := by
  intro j span hj
  obtain ⟨u, arg, hu, harg, rfl⟩ := getElem?_stackSpans hj
  obtain ⟨-, hlow, habove, hend, hbytes, hnul⟩ := hst.strings.get harg hu
  have hlt : j < args.length := (List.getElem?_eq_some_iff.mp harg).1
  have hpad := hst.padding
  have hst' := hst.low
  have hbelow : userStack ≤ argv := by
    split at hpad <;> omega
  refine ⟨?_, ?_, ?_⟩
  · have hpos : 0 < userStack := by decide
    show u ≠ 0
    omega
  · rw [Nat.zero_add, fetchUsize_stack hsize (by omega) (by omega),
      word_bytes (by rw [Nat.mul_comm]; exact hst.pointers j u hu)]
  · exact fetchStr_stack hsize hlow hend hbytes hnul (hzero arg (List.mem_of_getElem? harg))

theorem Stacked.slices (hst : Stacked m root args argv sp uargs) :
    (stackSpans uargs args).map (m.bytes root).slice = args := by
  refine List.ext_getElem (by rw [List.length_map, hst.length_spans]) fun j h₁ h₂ => ?_
  rw [List.length_map] at h₁
  obtain ⟨u, arg, hu, harg, hspan⟩ := getElem?_stackSpans (List.getElem?_eq_getElem h₁)
  rw [List.getElem_map, hspan, slice_bytes (hst.strings.get harg hu).2.2.2.2.1]
  exact (List.getElem?_eq_some_iff.mp harg).2.symm

/-- What the reader finds behind the pointers: no word, or that of the last string. -/
theorem Stacked.behind (hst : Stacked m root args argv sp uargs) (hsize : size ≤ userStack)
    (hzero : ∀ arg ∈ args, (0 : BitVec 8) ∉ arg) :
    (args = [] ∧ fetchUsize size (m.bytes root) (argv + args.length * 8) = .ok none) ∨
    ∃ last ptr, args.getLast? = some last ∧
      fetchUsize size (m.bytes root) (argv + args.length * 8) = .ok (some ptr) ∧
      (ptr = 0 ↔ last = []) := by
  have hlow : userStack ≤ argv := by
    have hpad := hst.padding
    have hsp := hst.low
    split at hpad <;> omega
  cases hlast : args.getLast? with
  | none =>
      have hnil : args = [] := List.getLast?_eq_none_iff.mp hlast
      subst hnil
      have hspace := hst.strings.space
      rw [List.map_nil, List.sum_nil, List.length_nil] at hspace
      refine .inl ⟨rfl, ?_⟩
      rw [List.length_nil, show argv + 0 * 8 = userEnd by omega]
      exact fetchUsize_end hsize
  | some last =>
      obtain ⟨htop, hbytes, hnul⟩ := hst.strings.last hlast
      have hroom : 8 ≤ argSpace last := by
        have hgt := argSpace_gt last
        have hmod := argSpace_mod last
        omega
      rw [Nat.mul_comm] at htop hbytes hnul
      refine .inr ⟨last, _, rfl, fetchUsize_stack hsize (by omega) (by omega), ?_⟩
      constructor
      · intro hword
        by_contra hne
        have hpos : 0 < last.length := List.length_pos_iff.mpr hne
        have hbyte := bytes_of_byte ((hbytes 0 hpos).trans (List.getElem?_eq_getElem hpos))
        have hfirst : m.bytes root (argv + args.length * 8) ≠ 0 := by
          intro hz
          rw [Nat.add_zero, hz] at hbyte
          exact hzero last (List.mem_of_getLast? hlast) (hbyte ▸ List.getElem_mem hpos)
        exact word_ne_zero hfirst hword
      · rintro rfl
        refine word_bytes (word_of_bytes (by decide) fun i hi => ?_)
        rw [hnul i (Nat.zero_le i) (by omega)]
        simp

/-- **The new vector is read back** just when it is full, or its last string is empty. -/
theorem Stacked.readArgs_iff (hst : Stacked m root args argv sp uargs) (hsize : size ≤ userStack)
    (hzero : ∀ arg ∈ args, (0 : BitVec 8) ∉ arg) (hn : args.length ≤ maxArg) :
    readArgs size (m.bytes root) argv = .ok (.ok args) ↔
      args.length = maxArg ∨ args.getLast? = some [] := by
  have hlen := hst.length_spans
  have hspace := hst.strings.le
  have hend : userEnd < 2 ^ 64 := by decide
  -- the pointers come first, whatever is behind them
  have hwalk : execArgs size (m.bytes root) argv = after (stackSpans uargs args)
      (walkArgs size (m.bytes root) argv (maxArg - args.length + 1) args.length) := by
    have happend := walkArgs_append (n := maxArg - args.length + 1) (by omega) (by omega)
      (hst.points hsize hzero)
    rw [hlen, Nat.zero_add,
      show args.length + (maxArg - args.length + 1) = maxArg + 1 by omega] at happend
    exact happend
  have hall : ∀ rest, (stackSpans uargs args ++ rest).map (m.bytes root).slice = args ↔ rest = [] := by
    intro rest
    rw [List.map_append, hst.slices, List.append_right_eq_self, List.map_eq_nil_iff]
  have hread : readArgs size (m.bytes root) argv = .ok (.ok args) ↔
      walkArgs size (m.bytes root) argv (maxArg - args.length + 1) args.length = .ok (.ok []) := by
    rw [readArgs, hwalk]
    cases walkArgs size (m.bytes root) argv (maxArg - args.length + 1) args.length with
    | error e => exact ⟨fun h => (by cases h), fun h => (by cases h)⟩
    | ok r =>
        cases r with
        | error e => exact ⟨fun h => (by cases h), fun h => (by cases h)⟩
        | ok rest =>
            rw [after]
            dsimp only
            rw [Except.ok.injEq, Except.ok.injEq, hall, Except.ok.injEq, Except.ok.injEq]
  rw [hread]
  rcases hst.behind hsize hzero with ⟨rfl, hnone⟩ | ⟨last, ptr, hlast, hword, hptr⟩
  · rw [walkArgs_none (by omega) hnone]
    constructor
    · intro h
      cases h
    · rintro (h | h)
      · cases h
      · cases h
  · rw [hlast, Option.some.injEq]
    by_cases hgo : args.length < maxArg ∧ ptr ≠ 0
    · refine iff_of_false (walkArgs_go (by omega) hword hgo) ?_
      rintro (h | h)
      · omega
      · exact hgo.2 (hptr.mpr h)
    · refine iff_of_true (walkArgs_stop (by omega) hword hgo) ?_
      by_cases hfull : args.length = maxArg
      · exact .inl hfull
      · refine .inr (hptr.mp ?_)
        by_contra hne
        exact hgo ⟨by omega, hne⟩

/-! ## `exec` -/

/-- No image reaches up to the stack: there are not that many pages. -/
theorem NewImage.below (hn : NewImage m root size) (h : OwnTable A m root l) :
    pageRoundUp size ≤ userStack - pageSize := by
  by_contra hbig
  have hmap : ∀ v, 0 ≤ v → v ≤ userEnd - 1 → ∃ e, m.entryFor root v = some e := by
    intro v _ hv
    refine (hn.mapped v (Nat.lt_of_le_of_lt hv (by decide))).mpr ?_
    by_cases hst : userStack ≤ v
    · exact .inr hst
    · refine .inl ?_
      simp only [pageRoundUp, pageSize, userStack] at hbig hst ⊢
      omega
  have hcard := h.card_range (Nat.zero_le _) (by decide) hmap
  revert hcard
  decide

theorem NewImage.gap (hn : NewImage m root size) (h : OwnTable A m root l) : Gap m root := by
  have hbelow := hn.below h
  have hnone : ¬∃ e, m.entryFor root (userStack - pageSize) = some e := by
    rw [hn.mapped _ (by decide)]
    have hst : ¬userStack ≤ userStack - pageSize := by decide
    omega
  unfold Gap
  cases he : m.entryFor root (userStack - pageSize) with
  | none => rfl
  | some e => exact absurd ⟨e, he⟩ hnone

/-- Writes elsewhere. -/
theorem byte_same {B : Set Frame} {v : Nat} (hsame : Same B m m')
    (hout : ∀ g ∈ m.foot 4 UserHalf root, g ∉ B) (hv : v < userEnd) :
    m'.byte root v = m.byte root v := by
  have hentry : m'.entryFor root v = m.entryFor root v :=
    entryFor_congr (fun g hg => hsame g (hout g (nodes_subset_foot hg))) hv
  rw [Mem.byte, Mem.byte, hentry]
  cases he : m.entryFor root v with
  | none => rfl
  | some e =>
      have hfoot : e.frame ∈ m.foot 4 UserHalf root :=
        walk_mem_foot (length_digits 4 v).le (head_userHalf hv) (walk_entryFor he)
      rw [Option.map_some, Option.map_some, hsame e.frame (hout _ hfoot)]

/-- A table that was beside the free list is still there. -/
theorem Own.beside {B : Set Frame} {l' : List Frame} (h : OwnTable B m root l) (hpool : Pool {g | g ∈ l} m' l')
    (hsame : Same {g | g ∈ l} m m') :
    OwnTable {g | g ∈ m.foot 4 UserHalf root ∨ g ∈ l'} m' root l' := by
  have hnodes : ∀ g ∈ m.nodes 4 UserHalf root, m'.pages g = m.pages g := fun g hg =>
    hsame g (h.apart g (nodes_subset_foot hg))
  have hfoot : m'.foot 4 UserHalf root = m.foot 4 UserHalf root := foot_frame hnodes
  refine ⟨⟨hpool.chain, hpool.nodup, fun g hg => .inr hg⟩,
    h.tree.congr fun g hg => heap_eq (hnodes g hg), fun g hg => ?_, fun g hg hl => ?_⟩
  · rw [hfoot] at hg
    exact .inl hg
  · rw [hfoot] at hg
    exact h.apart g hg (hpool.mem g hl)

theorem Stacked.frame (hst : Stacked m root args argv sp uargs)
    (heq : ∀ v, v < userEnd → m'.byte root v = m.byte root v) :
    Stacked m' root args argv sp uargs := by
  have hle := hst.strings.le
  refine ⟨hst.strings.frame fun v _ hv => heq v hv, fun k u hu => ?_, hst.aligned, hst.padding,
    hst.low⟩
  have hk : k < args.length := by
    rw [← hst.strings.length]
    exact (List.getElem?_eq_some_iff.mp hu).1
  have hword : m'.word root (argv + 8 * k) = m.word root (argv + 8 * k) := by
    unfold Mem.word
    simp only [List.range, List.range.loop, List.foldr]
    rw [heq _ (by omega), heq _ (by omega), heq _ (by omega), heq _ (by omega), heq _ (by omega),
      heq _ (by omega), heq _ (by omega), heq _ (by omega)]
  rw [hword]
  exact hst.pointers k u hu

/-- What `exec` leaves to the new program. -/
theorem exec_stacked {prev : Frame} (h : Owns s l) (hprev : (s.procs p).pgtbl = some prev)
    (hfile : file.length < 2 ^ 64) (hshort : ∀ arg ∈ args, arg.length + 1 ≤ userStack) :
    Sat (exec p args (fileReadi file fails) env s)
      (fun r s' => args.length ≤ maxArg ∧ ∃ root sp uargs, (s'.procs p).pgtbl = some root ∧
        (s'.procs p).size ≤ userStack ∧ Stacked s'.mem root args r.rsi sp uargs)
      (fun _ _ => True) (fun _ => True) := by
  unfold exec
  refine Sat.ite (fun _ => Sat.throw True.intro) fun hn => Sat.gets ?_
  have hpool : Pool {g | g ∈ l} s.mem l := ⟨h.pool.chain, h.pool.nodup, fun _ hg => hg⟩
  refine Sat.bind ((vm_sat (loadProgram_spec hpool hfile)).imp (fun _ _ hq => hq)
    (fun _ _ _ => True.intro) (fun _ hx => hx.elim)) (fun _ _ he => he) ?_
  rintro ⟨root, entry, size⟩ s₁ ⟨m₁, rfl, hsame₁, ⟨l₁, hown₁⟩, hnew⟩
  dsimp only at hown₁ hnew ⊢
  have hbelow := hnew.below hown₁
  have hsetup : Sat (setupArgs root args env m₁) _ _ _ :=
    setupArgs_spec hown₁ (hnew.gap hown₁) hshort (Nat.not_lt.mp hn) hnew.empty
  have hundone : Sat (onErr (setupArgs root args) (dropTable root) env m₁) _ (fun _ _ => True)
      (fun _ => True) := Sat.onErr (hsetup.imp (fun _ _ hq => hq) (fun _ _ he => he)
    (fun _ hx => hx.elim)) fun _ m' he => (dropTable_spec he.1).imp (fun _ _ _ => True.intro)
      (fun _ _ _ => True.intro) (fun _ hx => hx.elim)
  refine Sat.bind ((vm_sat hundone).imp (fun _ _ hq => hq) (fun _ _ _ => True.intro)
    (fun _ _ => True.intro)) (fun _ _ he => he) ?_
  rintro ⟨argv, sp, uargs⟩ s₂ ⟨m₂, rfl, hst, hpoked⟩
  dsimp only at hst ⊢
  refine Sat.gets (Sat.modify ?_)
  dsimp only
  rw [hprev]
  -- the table before shares no page with the new one
  have hsame₂ : Same {g | g ∈ l} s.mem m₂ := hsame₁.trans hpoked.2.1
  have hold : OwnTable _ m₂ prev l₁ := (h.ownTable (o := .table p) hprev).beside hpoked.1.pool hsame₂
  refine Sat.bind ((vm_sat (dropTable_spec hold)).imp (fun _ _ hq => hq) (fun _ _ _ => True.intro)
    (fun _ hx => hx.elim)) (fun _ _ he => he) ?_
  rintro - s₃ ⟨m₃, rfl, l₃, -, hsame₃⟩
  refine Sat.pure ⟨Nat.not_lt.mp hn, root, sp, uargs, ?_, ?_, ?_⟩
  · simp [Sys.setProc]
  · have hle := le_pageRoundUp size
    have hpage : userStack - pageSize ≤ userStack := Nat.sub_le _ _
    simp only [Sys.setProc, Function.update_self]
    omega
  · refine hst.frame fun v hv => byte_same hsame₃ (fun g hg hin => ?_) hv
    rcases hin with hin | hin
    · have hl : g ∈ l := hpoked.1.sub g hg
      exact (h.ownTable (o := .table p) hprev).apart g hin hl
    · exact hpoked.1.apart g hg hin

/-! ## From one vector to the next -/

theorem Checked.of_bind {α β : Type} {x : Checked α} {f : α → Checked β} {b : β}
    (h : (x >>= f) = .ok b) : ∃ a, x = .ok a ∧ f a = .ok b := by
  cases x with
  | error e => cases h
  | ok a => exact ⟨a, rfl, h⟩

/-- The reader never takes more. -/
theorem walkArgs_length (hk : k ≤ maxArg) (h : walkArgs size mem argsPtr n k = .ok (.ok spans)) :
    spans.length + k ≤ maxArg := by
  induction n generalizing k spans with
  | zero =>
      cases h
      rw [List.length_nil, Nat.zero_add]
      exact hk
  | succ n ih =>
      rw [walkArgs] at h
      obtain ⟨off, -, h⟩ := Checked.of_bind h
      obtain ⟨uargp, -, h⟩ := Checked.of_bind h
      obtain ⟨_ | ptr, -, h⟩ := Checked.of_bind h
      · cases h
      dsimp only at h
      by_cases hgo : k < maxArg ∧ ptr ≠ 0
      · rw [if_pos hgo] at h
        obtain ⟨_ | arg, -, h⟩ := Checked.of_bind h
        · cases h
        obtain ⟨_ | rest, hrest, h⟩ := Checked.of_bind h
        · cases h
        cases h
        have hle := ih hgo.1 hrest
        rw [List.length_cons]
        omega
      · rw [if_neg hgo] at h
        cases h
        rw [List.length_nil, Nat.zero_add]
        exact hk

theorem readArgs_length (h : readArgs size mem argsPtr = .ok (.ok args)) : args.length ≤ maxArg := by
  unfold readArgs at h
  split at h
  · cases h
  · cases h
  · next hrun =>
    cases h
    rw [List.length_map]
    exact walkArgs_length (Nat.zero_le _) hrun

/-- What the reader took for a string is one. -/
theorem UserVector.strings (hv : UserVector m root size argsPtr args) (hsize : size ≤ userEnd)
    (hmem : arg ∈ args) (h : OwnTable A m root l) : UserString arg ∧ (0 : BitVec 8) ∉ arg := by
  obtain ⟨k, hk⟩ := List.getElem?_of_mem hmem
  obtain ⟨u, -, -, hstr, hbytes, hnul⟩ := hv.pointer k arg hk
  obtain ⟨o, ho, hin⟩ : Fetches (fetchStr size (m.bytes root) u) _ := fetchStr_inside hsize
  rw [hstr] at ho
  cases ho
  have hend := (hin _ rfl).2.2
  dsimp only at hend
  refine ⟨⟨A, m, root, l, u, h, by omega, hbytes, hnul⟩, fun hzero => ?_⟩
  -- the search would have stopped before
  unfold fetchStr at hstr
  split at hstr
  · cases hstr
  · next rend _ =>
    obtain ⟨len, -, hpos⟩ := Checked.of_bind hstr
    obtain ⟨pos, hpos, hspan⟩ := Option.bind_eq_some_iff.mp (Except.ok.inj hpos)
    cases (sliceAt_eq_some.mp hspan).2
    obtain ⟨i, hi, hget⟩ := List.getElem_of_mem hzero
    refine (position_eq_some.mp hpos).2.2 i hi ?_
    rw [bytes_of_byte ((hbytes i hi).trans (List.getElem?_eq_getElem hi)), hget]

/-- Arguments that were found are handed to `exec`. -/
theorem sysExec_eq {prev : Frame} {readi : FileData} (hprev : (s.procs p).pgtbl = some prev)
    (hspans : execArgs (s.procs p).size (s.mem.bytes prev) argsPtr = .ok (.ok spans)) :
    sysExec p argsPtr readi env s =
      exec p (spans.map (s.mem.bytes prev).slice) readi env s := by
  have hproc : proc p env s = .ok (s.procs p) s := rfl
  have hmem : (gets fun s : Sys => s.mem.bytes prev) env s = .ok (s.mem.bytes prev) s := rfl
  unfold sysExec
  rw [bind_ok hproc, hprev]
  dsimp only
  rw [bind_ok hmem, hspans]

/-- What the new program finds of the arguments of the old one. -/
theorem sysExec_stacked {prev : Frame} {r : Regs} {s' : Sys} (hreach : Reach Sys.Init Sys.Step s)
    (hprev : (s.procs p).pgtbl = some prev)
    (hv : UserVector s.mem prev (s.procs p).size argsPtr args) (hfile : file.length < 2 ^ 64)
    (hok : sysExec p argsPtr (fileReadi file fails) env s = .ok r s') :
    (∀ arg ∈ args, (0 : BitVec 8) ∉ arg) ∧ ∃ root sp uargs, (s'.procs p).pgtbl = some root ∧
      (s'.procs p).size ≤ userStack ∧ Stacked s'.mem root (args.take maxArg) r.rsi sp uargs := by
  obtain ⟨l, hown⟩ := owns_of_reach hreach
  have hsize := (hown.fit p).size
  have htable := hown.ownTable (o := .table p) hprev
  obtain ⟨spans, hspans, hslices⟩ := execArgs_vector hsize hv
  have hshort : ∀ arg ∈ args.take maxArg, arg.length + 1 ≤ userStack := fun arg harg =>
    (hv.strings hsize (List.mem_of_mem_take harg) htable).1.short
  rw [sysExec_eq hprev hspans, hslices] at hok
  have hexec : Sat (exec p (args.take maxArg) (fileReadi file fails) env s) _ _ _ :=
    exec_stacked hown hprev hfile hshort
  exact ⟨fun arg harg => (hv.strings hsize harg htable).2, (hexec.of_ok hok).2⟩

/-- **The arguments arrive** just when there are `MAXARG` of them, or fewer and the last one is
empty. -/
theorem argv_survives_iff {prev : Frame} {r : Regs} {s' : Sys} (hreach : Reach Sys.Init Sys.Step s)
    (hprev : (s.procs p).pgtbl = some prev)
    (hv : UserVector s.mem prev (s.procs p).size argsPtr args) (hfile : file.length < 2 ^ 64)
    (hok : sysExec p argsPtr (fileReadi file fails) env s = .ok r s') :
    ∃ root, (s'.procs p).pgtbl = some root ∧
      (readArgs (s'.procs p).size (s'.mem.bytes root) r.rsi = .ok (.ok args) ↔
        args.length = maxArg ∨ (args.length < maxArg ∧ args.getLast? = some [])) := by
  obtain ⟨hzero, root, sp, uargs, hroot, hsmall, hst⟩ := sysExec_stacked hreach hprev hv hfile hok
  refine ⟨root, hroot, ?_⟩
  by_cases hfew : args.length ≤ maxArg
  · rw [List.take_of_length_le hfew] at hst
    rw [hst.readArgs_iff hsmall hzero hfew]
    constructor
    · rintro (hfull | hempty)
      · exact .inl hfull
      · by_cases hfull : args.length = maxArg
        · exact .inl hfull
        · exact .inr ⟨by omega, hempty⟩
    · rintro (hfull | hempty)
      · exact .inl hfull
      · exact .inr hempty.2
  · refine iff_of_false (fun hread => hfew (readArgs_length hread)) ?_
    rintro (hfull | hempty)
    · omega
    · omega

/-- A page with the vector at 8 and the string "a" at 24. -/
def vectorPage : Page := fun k => if k.val = 1 then 24 else if k.val = 3 then 0x61 else 0

/-- What makes that page a vector. -/
def Holds (m : Mem) (root : Frame) (size : Nat) : Prop :=
  fetchUsize size (m.bytes root) 8 = .ok (some 24) ∧
  fetchUsize size (m.bytes root) 16 = .ok (some 0) ∧
  fetchStr size (m.bytes root) 24 = .ok (some ⟨24, 1⟩) ∧
  m.byte root 24 = some 0x61 ∧ m.byte root 25 = some 0

instance (m : Mem) (root : Frame) (size : Nat) : Decidable (Holds m root size) :=
  inferInstanceAs (Decidable (_ ∧ _ ∧ _ ∧ _ ∧ _))

theorem Holds.vector (h : Holds m root size) : UserVector m root size 8 [[0x61]] := by
  obtain ⟨hword, hnull, hstr, hbyte, hnul⟩ := h
  refine ⟨fun k arg harg => ?_, hnull⟩
  obtain ⟨hk, hget⟩ := List.getElem?_eq_some_iff.mp harg
  obtain rfl : k = 0 := Nat.lt_one_iff.mp hk
  cases hget
  refine ⟨24, by decide, hword, hstr, fun i hi => ?_, hnul⟩
  obtain rfl : i = 0 := Nat.lt_one_iff.mp hi
  exact hbyte

/-- The stack of a loaded program can be used. -/
theorem loadProgram_stack {kpgtbl : Frame} (h : Pool A m l) (hfile : file.length < 2 ^ 64) :
    Sat (loadProgram kpgtbl (fileReadi file fails) env m) (fun r m' => StackMapped m' r.1)
      (fun _ _ => True) (fun _ => False) := by
  refine Sat.seq (dupKern_spec h) fun r m₁ hr => ?_
  cases r with
  | none => exact Sat.throw True.intro
  | some root =>
      obtain ⟨l₁, -, hown, -, -⟩ := hr
      refine Sat.onErr (Sat.bind (loadImage_spec hfile hown) (fun _ _ he => he) ?_) ?_
      · rintro ⟨entry, size⟩ m₂ ⟨⟨l₂, hown₂, hsame₂⟩, -⟩
        refine Sat.bind (allocUser_bytes hown₂) (fun _ _ he => he.after hsame₂) ?_
        rintro - m₃ ⟨-, -, -, hcleared⟩
        exact Sat.pure hcleared.stack
      · rintro e m₂ ⟨l₂, hown₂, -⟩
        exact (dropTable_spec hown₂).imp (fun _ _ _ => True.intro) (fun _ _ _ => True.intro)
          (fun _ hx => hx)

/-- A program that can be loaded is started when its arguments have room. -/
theorem exec_returns {prev : Frame} {loaded : Frame × Nat × Nat} {E : String → Sys → Prop}
    {X : String → Prop} (h : Owns s l) (hprev : (s.procs p).pgtbl = some prev)
    (hfile : file.length < 2 ^ 64)
    (hload : loadProgram s.kpgtbl (fileReadi file fails) env s.mem = .ok loaded m)
    (hn : args.length ≤ maxArg) (hshort : ∀ arg ∈ args, arg.length + 1 ≤ userStack)
    (hroom : stackSize args ≤ userEnd - userStack) :
    Sat (exec p args (fileReadi file fails) env s) (fun _ _ => True) E X := by
  have hpool : Pool {g | g ∈ l} s.mem l := ⟨h.pool.chain, h.pool.nodup, fun _ hg => hg⟩
  have hmap := (loadProgram_stack hpool hfile).of_ok hload
  obtain ⟨hsame₁, ⟨l₁, hown₁⟩, hnew⟩ := (loadProgram_spec hpool hfile).of_ok hload
  obtain ⟨root, entry, size⟩ := loaded
  dsimp only at hmap hown₁ hnew
  have hvm : vm (loadProgram s.kpgtbl (fileReadi file fails)) env s =
      .ok (root, entry, size) { s with mem := m } := by
    unfold vm Prog.zoom
    rw [hload]
  unfold exec
  refine Sat.ite (fun hlt => absurd hn (Nat.not_le.mpr hlt)) fun _ => Sat.gets ?_
  refine Sat.bind_ok hvm ?_
  have hreturns : Sat (setupArgs root args env m) (fun _ m' => Poked {g | g ∈ l} m m' root l₁)
      (fun _ _ => False) (fun _ => False) :=
    ((setupArgs_spec hown₁ (hnew.gap hown₁) hshort hn hnew.empty).and
      (setupArgs_returns (E := fun _ _ => False) (X := fun _ => False) hown₁ hmap hroom)).imp
        (fun _ _ hq => hq.1.2) (fun _ _ he => he.2) (fun _ hx => hx.1)
  have hsetup : Sat (onErr (setupArgs root args) (dropTable root) env m)
      (fun _ m' => Poked {g | g ∈ l} m m' root l₁) (fun _ _ => False) (fun _ => False) :=
    Sat.onErr hreturns fun _ _ he => he.elim
  refine Sat.bind ((vm_sat hsetup).imp (fun _ _ hq => hq) (fun _ _ he => ?_) (fun _ hx => hx.elim))
    (fun _ _ he => he) ?_
  · obtain ⟨_, -, hno⟩ := he
    exact hno.elim
  rintro ⟨argv, sp, uargs⟩ s₂ ⟨m₂, rfl, hpoked⟩
  refine Sat.gets (Sat.modify ?_)
  dsimp only
  rw [hprev]
  have hold : OwnTable _ m₂ prev l₁ := (h.ownTable (o := .table p) hprev).beside hpoked.1.pool
    (hsame₁.trans hpoked.2.1)
  refine Sat.bind ((vm_sat (dropTable_spec hold)).imp (fun _ _ hq => hq) (fun _ _ he => ?_)
    (fun _ hx => hx.elim)) (fun _ _ he => he) fun _ _ _ => Sat.pure True.intro
  obtain ⟨_, -, hno⟩ := he
  exact hno.elim

theorem awake_exec (p : ProcIdx) (args : List (List (BitVec 8))) (readi : FileData) :
    Awake (exec p args readi) := by
  refine Awake.ite .throw (.gets fun k => (awake_loadProgram k readi).zoom.bind fun r => ?_)
  refine ((awake_setupArgs _ _).onErr (awake_dropTable _)).zoom.bind fun o => .gets fun self =>
    Awake.modify.bind fun _ => ?_
  cases self.pgtbl with
  | none => exact .pure
  | some previous => exact (awake_dropTable _).zoom.bind fun _ => .pure


/-- Pages for two programs. -/
abbrev enoughPages : List Frame := (List.range 24).map (BitVec.ofNat 35)

/-- The first process calls `exec` with the one argument "a". -/
theorem vector_exec : ∃ s prev r s', Reach Sys.Init Sys.Step s ∧
    (s.procs initProc).pgtbl = some prev ∧
    UserVector s.mem prev (s.procs initProc).size 8 [[0x61]] ∧
    sysExec initProc 8 (fileReadi tinyElf fun _ _ => none) .willing s = .ok r s' := by
  have hrun : ((procInit vectorPage .willing (Sys.boot enoughPages)).result?.bind fun o =>
      (o.2.procs initProc).pgtbl.bind fun prev =>
        (loadProgram o.2.kpgtbl (fileReadi tinyElf fun _ _ => none) .willing o.2.mem).result?.map
          fun _ => decide (Holds o.2.mem prev (o.2.procs initProc).size)) = some true := by
    decide +kernel
  obtain ⟨⟨⟨⟩, s⟩, hinit, hrun⟩ := Option.bind_eq_some_iff.mp hrun
  obtain ⟨prev, hprev, hrun⟩ := Option.bind_eq_some_iff.mp hrun
  obtain ⟨⟨loaded, m⟩, hload, hholds⟩ := Option.map_eq_some_iff.mp hrun
  have hreach : Reach Sys.Init Sys.Step s := .init
    ⟨Sys.boot enoughPages, .willing, vectorPage, Sys.boot_ok (by decide),
      Outcome.result?_eq_some.mp hinit⟩
  obtain ⟨l, hown⟩ := owns_of_reach hreach
  have hv := (of_decide_eq_true hholds).vector
  obtain ⟨spans, hspans, hslices⟩ := execArgs_vector (hown.fit initProc).size hv
  have hexec : Sat (exec initProc [[0x61]] (fileReadi tinyElf fun _ _ => none) .willing s)
      (fun _ _ => True) (fun _ _ => False) (fun _ => False) :=
    exec_returns hown hprev (by decide +kernel) (Outcome.result?_eq_some.mp hload) (by decide)
      (by decide) (by decide)
  obtain ⟨r, s', hok, -⟩ := hexec.returns (awake_exec _ _ _ _ _)
  refine ⟨s, prev, r, s', hreach, hprev, hv, ?_⟩
  rw [sysExec_eq hprev hspans, hslices]
  exact hok

/-- The argument "a" does not come back. -/
theorem argv_lost : ∃ s prev r s', Reach Sys.Init Sys.Step s ∧
    (s.procs initProc).pgtbl = some prev ∧
    UserVector s.mem prev (s.procs initProc).size 8 [[0x61]] ∧
    sysExec initProc 8 (fileReadi tinyElf fun _ _ => none) .willing s = .ok r s' ∧
    ∃ root, (s'.procs initProc).pgtbl = some root ∧
      readArgs (s'.procs initProc).size (s'.mem.bytes root) r.rsi ≠ .ok (.ok [[0x61]]) := by
  obtain ⟨s, prev, r, s', hreach, hprev, hv, hok⟩ := vector_exec
  obtain ⟨hzero, root, sp, uargs, hroot, hsmall, hst⟩ :=
    sysExec_stacked hreach hprev hv (by decide +kernel) hok
  refine ⟨s, prev, r, s', hreach, hprev, hv, hok, root, hroot, fun hread => ?_⟩
  rcases (hst.readArgs_iff hsmall hzero (by decide)).mp hread with hfull | hempty
  · revert hfull
    decide
  · revert hempty
    decide

theorem argv_survives_one : ∃ s r s' root, Reach Sys.Init Sys.Step s ∧
    sysExec initProc 8 (fileReadi tinyElf fun _ _ => none) .willing s = .ok r s' ∧
    (s'.procs initProc).pgtbl = some root ∧
    (readArgs (s'.procs initProc).size (s'.mem.bytes root) r.rsi = .ok (.ok [[0x61]]) ↔
      [[0x61]].length = maxArg ∨
        ([[0x61]].length < maxArg ∧ [([0x61] : List (BitVec 8))].getLast? = some [])) := by
  obtain ⟨s, prev, r, s', hreach, hprev, hv, hok⟩ := vector_exec
  obtain ⟨root, hroot, hiff⟩ := argv_survives_iff hreach hprev hv (by decide +kernel) hok
  exact ⟨s, r, s', root, hreach, hok, hroot, hiff⟩

end Rxv64.Vm
