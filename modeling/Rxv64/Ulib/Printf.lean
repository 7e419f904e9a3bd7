import Rxv64.Lib.Numeral
import Rxv64.Lib.Outcome

/-!
# Ulib.Printf — formatted output

`rvdprintf` of `ulib/src/rvdprintf.rs`. Arguments lie in slots of 64 bits; behind the last
one a reader finds whatever is there. `printint` fills a buffer from its end, and its loop
ends at the front of the buffer or when no digits are left, whichever comes first.
-/

namespace Rxv64.Ulib.Printf

open Prog

/-- The arguments and the strings in memory. -/
structure Env where
  args : Nat → UInt64
  cstr : UInt64 → List UInt8

/-- The next argument, and every `write` so far. -/
structure State where
  next : Nat
  out : List (Int32 × List UInt8)

abbrev PrintM := Prog Env State

/-- `next_arg`; a type of 32 bits is the lower half of its slot. -/
def nextArg : PrintM UInt64 := do
  let k ← gets State.next
  modify fun s => { s with next := k + 1 }
  let e ← env
  pure (e.args k)

/-- `next_arg::<i32>`. -/
def argI32 (arg : UInt64) : Int32 := arg.toUInt32.toInt32

def puts (fd : Int32) (bs : List UInt8) : PrintM Unit :=
  modify fun s => { s with out := s.out ++ [(fd, bs)] }

def putc (fd : Int32) (b : UInt8) : PrintM Unit := puts fd [b]

def ascii (c : Char) : UInt8 := UInt8.ofNat c.toNat

inductive Base where
  | octal
  | decimal
  | hex

/-- `base as u64`. -/
def Base.val : Base → UInt64
  | .octal => 8
  | .decimal => 10
  | .hex => 16

/-- `DIGITS`. -/
def digits : List UInt8 :=
  ['0', '1', '2', '3', '4', '5', '6', '7', '8', '9', 'A', 'B', 'C', 'D', 'E', 'F'].map ascii

/-- `DIGITS[k]`. -/
def digit (k : Nat) : PrintM UInt8 :=
  match digits[k]? with
  | some c => pure c
  | none => abort "index out of bounds"

/-- `s = &mut buf[cnt..]; s[0] = c`. -/
def store (buf : List UInt8) (cnt : Nat) (c : UInt8) : PrintM (List UInt8) :=
  if cnt < buf.length then pure (buf.set cnt c) else abort "index out of bounds"

/-- The loop of `printint`: what `s` is in the end. -/
def printintLoop (b : UInt64) : (cnt : Nat) → (buf : List UInt8) → UInt64 → PrintM (List UInt8)
  | 0, buf, x => do
      let c ← digit (x % b).toNat
      store buf 0 c
  | cnt + 1, buf, x => do
      let c ← digit (x % b).toNat
      let buf ← store buf (cnt + 1) c
      if x / b ≠ 0 then printintLoop b cnt buf (x / b) else pure (buf.drop (cnt + 1))

def printint (fd : Int32) (x : UInt64) (base : Base) : PrintM Unit := do
  let s ← printintLoop base.val 31 (List.replicate 32 (ascii '0')) x
  puts fd s

def printnegint (fd : Int32) (x : UInt64) (base : Base) : PrintM Unit := do
  putc fd (ascii '-')
  printint fd x base

/-- `i64::abs`. -/
def absChk (d : Int64) : PrintM Int64 :=
  if d = Int64.minValue then abort "attempt to negate with overflow" else pure d.abs

/-- What the next byte of the format is. -/
inductive S where
  | normal
  | verb

def printc (fd : Int32) (c : UInt8) : PrintM S :=
  if c = ascii '%' then pure .verb
  else do
    putc fd c
    pure .normal

/-- The `match` of `printv`. -/
def printVerb (fd : Int32) (c : UInt8) : PrintM Unit :=
  if c = ascii '%' then putc fd (ascii '%')
  else if c = ascii 'c' then do
    let arg ← nextArg
    putc fd (arg.toUInt32 &&& 0xFF).toUInt8
  else if c = ascii 'd' then do
    let d := argI32 (← nextArg)
    if d < 0 then do printnegint fd (← absChk d.toInt64).toUInt64 .decimal
    else printint fd d.toInt64.toUInt64 .decimal
  else if c = ascii 'o' then do printint fd (← nextArg) .octal
  else if c = ascii 'p' ∨ c = ascii 'x' then do printint fd (← nextArg) .hex
  else if c = ascii 's' then do
    let s ← nextArg
    if s = 0 then puts fd ("(null)".toList.map ascii)
    else do
      let e ← env
      puts fd (e.cstr s)
  else do
    putc fd (ascii '%')
    putc fd c

def printv (fd : Int32) (c : UInt8) : PrintM S := do
  printVerb fd c
  pure .normal

/-- The loop of `rvdprintf`. -/
def printAll (fd : Int32) : S → List UInt8 → PrintM Unit
  | _, [] => pure ()
  | .normal, c :: fmt => do printAll fd (← printc fd c) fmt
  | .verb, c :: fmt => do printAll fd (← printv fd c) fmt

def rvdprintf (fd : Int32) (fmt : List UInt8) : PrintM Unit := printAll fd .normal fmt

/-! ## Numbers as text -/

/-- The digit that a character is; capital letters from ten on. -/
def digitVal (c : UInt8) : Option Nat :=
  if ascii '0' ≤ c ∧ c ≤ ascii '9' then some (c.toNat - 48)
  else if ascii 'A' ≤ c ∧ c ≤ ascii 'F' then some (c.toNat - 55)
  else none

/-- The character of a digit. -/
def digitChar (d : Nat) : UInt8 := digits.getD d 0

/-- A string that stands for `n` in base `b`, without a leading zero but for the number zero. -/
structure Canonical (b n : Nat) (s : List UInt8) : Prop where
  value : Numeral.read digitVal b s = some n
  leading : s.head? = some (ascii '0') → n = 0 ∧ s = [ascii '0']

/-- The number that a decimal string with a sign stands for. -/
def readInt : List UInt8 → Option Int
  | [] => none
  | c :: s => if c = ascii '-' then (Numeral.read digitVal 10 s).map fun n : Nat => -(n : Int)
      else (Numeral.read digitVal 10 (c :: s)).map fun n : Nat => (n : Int)

variable {fd : Int32} {e : Env} {s : State} {b x : UInt64} {base : Base} {n k : Nat} {c : UInt8}
  {buf : List UInt8}

theorem digitVal_digitChar : ∀ d < 16, digitVal (digitChar d) = some d := by decide

theorem Base.bounds (base : Base) : 8 ≤ base.val.toNat ∧ base.val.toNat ≤ 16 := by
  cases base <;> decide

/-- The numeral of a value in one of the bases. -/
abbrev numeral (base : Base) (n : Nat) : List UInt8 := Numeral.write digitChar base.val.toNat n

theorem canonical_numeral (base : Base) (n : Nat) : Canonical base.val.toNat n (numeral base n) := by
  obtain ⟨hlo, hhi⟩ := base.bounds
  have hval : ∀ d < base.val.toNat, digitVal (digitChar d) = some d := fun d hd =>
    digitVal_digitChar d (by omega)
  refine ⟨Numeral.read_write (by omega) hval n, fun hhead => ?_⟩
  have hzero : n = 0 := Numeral.head_write (by omega) hval hhead
  subst hzero
  exact ⟨rfl, Numeral.write_small (by omega)⟩

/-! ## `printint` -/

theorem digit_eq (h : k < 16) : digit k e s = .ok (digitChar k) s := by
  have hlen : k < digits.length := h
  rw [digit, digitChar, List.getD_eq_getElem?_getD, List.getElem?_eq_getElem hlen]
  rfl

theorem store_eq (h : k < buf.length) : store buf k c e s = .ok (buf.set k c) s := by
  rw [store, if_pos h]
  rfl

theorem drop_set (h : k < buf.length) : (buf.set k c).drop k = c :: buf.drop (k + 1) := by
  rw [List.drop_eq_getElem_cons (by rwa [List.length_set]), List.getElem_set_self,
    List.drop_set_of_lt (Nat.lt_succ_self k)]

/-- **The loop writes the numeral** in front of what is behind `cnt`, if there is room. -/
theorem printintLoop_eq (base : Base) (cnt : Nat) {buf : List UInt8} {x : UInt64}
    (hcnt : cnt < buf.length) (hroom : x.toNat < base.val.toNat ^ (cnt + 1)) :
    printintLoop base.val cnt buf x e s =
      .ok (numeral base x.toNat ++ buf.drop (cnt + 1)) s := by
  obtain ⟨hlo, hhi⟩ := base.bounds
  have hmod : ∀ x : UInt64, (x % base.val).toNat = x.toNat % base.val.toNat :=
    fun x => UInt64.toNat_mod x base.val
  have hdigit : ∀ x : UInt64, (x % base.val).toNat < 16 := fun x => by
    have := Nat.mod_lt x.toNat (show 0 < base.val.toNat by omega)
    rw [hmod]
    omega
  induction cnt generalizing buf x with
  | zero =>
      have hsmall : x.toNat < base.val.toNat := by simpa using hroom
      rw [printintLoop, bind_ok (digit_eq (hdigit x)), store_eq hcnt, numeral,
        Numeral.write_small hsmall, hmod, Nat.mod_eq_of_lt hsmall]
      exact congrArg (Outcome.ok · s) (drop_set hcnt)
  | succ cnt ih =>
      have hdiv : (x / base.val).toNat = x.toNat / base.val.toNat := UInt64.toNat_div x base.val
      rw [printintLoop, bind_ok (digit_eq (hdigit x)), bind_ok (store_eq hcnt)]
      by_cases hmore : base.val.toNat ≤ x.toNat
      · have hne : x / base.val ≠ 0 := by
          intro hz
          have hnat := congrArg UInt64.toNat hz
          rw [hdiv] at hnat
          exact Nat.div_ne_zero_iff.mpr ⟨by omega, hmore⟩ hnat
        have hless : (x / base.val).toNat < base.val.toNat ^ (cnt + 1) := by
          rw [hdiv, Nat.div_lt_iff_lt_mul (by omega), ← Nat.pow_succ]
          exact hroom
        rw [if_pos hne, ih (by rw [List.length_set]; omega) hless, drop_set hcnt, hdiv, hmod,
          numeral, numeral, Numeral.write_step (by omega) hmore, List.append_assoc]
        rfl
      · have hz : x / base.val = 0 := by
          apply UInt64.toNat_inj.mp
          rw [hdiv]
          exact Nat.div_eq_of_lt (by omega)
        rw [if_neg (by simp [hz]), drop_set hcnt, numeral, Numeral.write_small (by omega), hmod,
          Nat.mod_eq_of_lt (by omega)]
        rfl

/-- 22 octal digits are the most. -/
theorem printint_eq (fd : Int32) (x : UInt64) (base : Base) (e : Env) (s : State) :
    printint fd x base e s = .ok () { s with out := s.out ++ [(fd, numeral base x.toNat)] } := by
  have hroom : x.toNat < base.val.toNat ^ 32 :=
    calc x.toNat < 2 ^ 64 := x.toNat_lt
      _ ≤ 8 ^ 32 := by decide
      _ ≤ base.val.toNat ^ 32 := Nat.pow_le_pow_left base.bounds.1 32
  have hloop : printintLoop base.val 31 (List.replicate 32 (ascii '0')) x e s =
      .ok (numeral base x.toNat) s := by
    rw [printintLoop_eq base 31 (by decide) hroom]
    exact congrArg (Outcome.ok · s) (List.append_nil _)
  rw [printint, bind_ok hloop]
  rfl

theorem length_numeral (x : UInt64) (base : Base) : (numeral base x.toNat).length ≤ 22 := by
  obtain ⟨hlo, hhi⟩ := base.bounds
  refine Numeral.length_write (by omega) ?_
  calc x.toNat < 2 ^ 64 := x.toNat_lt
    _ ≤ 8 ^ 22 := by decide
    _ ≤ base.val.toNat ^ 22 := Nat.pow_le_pow_left hlo 22

/-! ## `%d` -/

/-- The decimal numeral of an integer. -/
def signed (d : Int) : List UInt8 :=
  if d < 0 then ascii '-' :: numeral .decimal d.natAbs else numeral .decimal d.toNat

theorem toNat_abs {d : Int32} (h : d.toInt < 0) : d.toInt64.abs.toUInt64.toNat = d.toInt.natAbs := by
  have hint : d.toInt64.toBitVec.toInt = d.toInt := d.toInt_toInt64
  have hlow := d.le_toInt
  have habs : d.toInt64.abs.toUInt64.toNat = d.toInt64.toBitVec.abs.toNat := rfl
  rw [BitVec.toInt_eq_msb_cond] at hint
  rw [habs, BitVec.toNat_abs]
  cases hmsb : d.toInt64.toBitVec.msb with
  | true =>
      rw [hmsb, if_pos rfl] at hint
      rw [if_pos rfl]
      omega
  | false =>
      rw [hmsb, if_neg Bool.false_ne_true] at hint
      omega

theorem toNat_nonneg {d : Int32} (h : ¬d.toInt < 0) :
    d.toInt64.toUInt64.toNat = d.toInt.toNat := by
  have hle : (0 : Int64) ≤ d.toInt64 := by
    rw [Int64.le_iff_toInt_le, Int32.toInt_toInt64, Int64.toInt_zero]
    omega
  rw [Int64.toNat_toUInt64_of_le hle, Int64.toNatClampNeg, Int32.toInt_toInt64]

theorem absChk_eq {d : Int32} : absChk d.toInt64 e s = .ok d.toInt64.abs s := by
  have hne : d.toInt64 ≠ Int64.minValue := by
    intro hmin
    have hint := congrArg Int64.toInt hmin
    rw [Int32.toInt_toInt64] at hint
    have hlow := d.le_toInt
    rw [hint] at hlow
    revert hlow
    decide
  rw [absChk, if_neg hne]
  rfl

theorem nextArg_eq : nextArg e s = .ok (e.args s.next) { s with next := s.next + 1 } := rfl

/-- A signed number is written with its sign in front of its digits. -/
theorem readInt_signed (d : Int) : readInt (signed d) = some d := by
  have hdec : Base.decimal.val.toNat = 10 := by decide
  have hread : ∀ n, Numeral.read digitVal 10 (numeral .decimal n) = some n := fun n =>
    hdec ▸ (canonical_numeral .decimal n).value
  unfold signed
  split
  · next hneg =>
    rw [readInt, if_pos rfl, hread, Option.map_some]
    exact congrArg some (by omega)
  · next hpos =>
    cases hnum : numeral .decimal d.toNat with
    | nil => exact absurd hnum (Numeral.write_ne_nil (by decide))
    | cons c ds =>
        have hc : c ≠ ascii '-' := by
          obtain ⟨k, hk, rfl⟩ := Numeral.mem_write (by decide)
            (hnum ▸ List.mem_cons_self : c ∈ numeral .decimal d.toNat)
          intro hminus
          have hval := digitVal_digitChar k (Nat.lt_of_lt_of_le hk (Base.bounds .decimal).2)
          rw [hminus] at hval
          cases hval
        rw [readInt, if_neg hc, ← hnum, hread, Option.map_some]
        exact congrArg some (by omega)

/-! ## What is written -/

/-- From `s` to `s'` this text went to `fd`, and `n` arguments were taken. -/
def Prints (fd : Int32) (s : State) (n : Nat) (text : List UInt8) (s' : State) : Prop :=
  ∃ ws : List (List UInt8), s' = ⟨s.next + n, s.out ++ ws.map fun w => (fd, w)⟩ ∧ ws.flatten = text

theorem Prints.refl : Prints fd s 0 [] s := by
  refine ⟨[], ?_, rfl⟩
  rw [List.map_nil, List.append_nil]
  rfl

theorem Prints.trans {s₁ s₂ : State} {m : Nat} {t t' : List UInt8} (h : Prints fd s n t s₁)
    (h' : Prints fd s₁ m t' s₂) : Prints fd s (n + m) (t ++ t') s₂ := by
  obtain ⟨ws, rfl, rfl⟩ := h
  obtain ⟨ws', rfl, rfl⟩ := h'
  refine ⟨ws ++ ws', ?_, List.flatten_append⟩
  rw [List.map_append, ← List.append_assoc, Nat.add_assoc]

/-- One `write`. -/
theorem Prints.one (text : List UInt8) : Prints fd s 0 text { s with out := s.out ++ [(fd, text)] } :=
  ⟨[text], rfl, by simp⟩

theorem Prints.arg : Prints fd s 1 [] { s with next := s.next + 1 } := by
  refine ⟨[], ?_, rfl⟩
  rw [List.map_nil, List.append_nil]

/-- Code that writes this text and takes so many arguments. -/
def Writes (fd : Int32) (e : Env) (s : State) (p : PrintM Unit) (n : Nat) (text : List UInt8) : Prop :=
  ∃ s', p e s = .ok () s' ∧ Prints fd s n text s'

theorem writes_puts (bs : List UInt8) : Writes fd e s (puts fd bs) 0 bs := ⟨_, rfl, .one bs⟩

theorem writes_printint (x : UInt64) (base : Base) :
    Writes fd e s (printint fd x base) 0 (numeral base x.toNat) :=
  ⟨_, printint_eq fd x base e s, .one _⟩

theorem Writes.seq {p q : PrintM Unit} {m : Nat} {t t' : List UInt8} (hp : Writes fd e s p n t)
    (hq : ∀ s, Writes fd e s q m t') : Writes fd e s (p >>= fun _ => q) (n + m) (t ++ t') := by
  obtain ⟨s₁, hp, h⟩ := hp
  obtain ⟨s₂, hq, h'⟩ := hq s₁
  exact ⟨s₂, (bind_ok hp).trans hq, h.trans h'⟩

/-- Code that takes an argument first. -/
theorem Writes.arg {f : UInt64 → PrintM Unit} {t : List UInt8}
    (h : Writes fd e { s with next := s.next + 1 } (f (e.args s.next)) 0 t) :
    Writes fd e s (nextArg >>= f) 1 t := by
  obtain ⟨s', hf, h⟩ := h
  exact ⟨s', (bind_ok nextArg_eq).trans hf, Prints.arg.trans h⟩

/-- The sign goes out first, in a `write` of its own. -/
theorem writes_signed (d : Int32) : Writes fd e s
    (if d < 0 then do printnegint fd (← absChk d.toInt64).toUInt64 .decimal
      else printint fd d.toInt64.toUInt64 .decimal) 0 (signed d.toInt) := by
  by_cases hneg : d < 0
  · have hint : d.toInt < 0 := Int32.lt_iff_toInt_lt.mp hneg
    have hsign : Writes fd e s (printnegint fd d.toInt64.abs.toUInt64 .decimal) 0
        ([ascii '-'] ++ numeral .decimal d.toInt64.abs.toUInt64.toNat) :=
      (writes_puts [ascii '-']).seq fun _ => writes_printint _ _
    rw [if_pos hneg, signed, if_pos hint, ← toNat_abs hint]
    obtain ⟨s', hrun, h⟩ := hsign
    exact ⟨s', (bind_ok absChk_eq).trans hrun, h⟩
  · have hint : ¬d.toInt < 0 := fun h => hneg (Int32.lt_iff_toInt_lt.mpr h)
    rw [if_neg hneg, signed, if_neg hint, ← toNat_nonneg hint]
    exact writes_printint _ _

/-- How many arguments a verb takes. -/
def takes (c : UInt8) : Nat :=
  if c = ascii 'c' ∨ c = ascii 'd' ∨ c = ascii 'o' ∨ c = ascii 'p' ∨ c = ascii 'x' ∨ c = ascii 's'
  then 1 else 0

/-- What a verb writes. -/
def verbText (e : Env) (c : UInt8) (arg : UInt64) : List UInt8 :=
  if c = ascii '%' then [ascii '%']
  else if c = ascii 'c' then [(arg.toUInt32 &&& 0xFF).toUInt8]
  else if c = ascii 'd' then signed (argI32 arg).toInt
  else if c = ascii 'o' then numeral .octal arg.toNat
  else if c = ascii 'p' ∨ c = ascii 'x' then numeral .hex arg.toNat
  else if c = ascii 's' then if arg = 0 then "(null)".toList.map ascii else e.cstr arg
  else [ascii '%', c]

theorem writes_verb (c : UInt8) :
    Writes fd e s (printVerb fd c) (takes c) (verbText e c (e.args s.next)) := by
  unfold printVerb verbText
  by_cases hpercent : c = ascii '%'
  · subst hpercent
    exact writes_puts _
  rw [if_neg hpercent, if_neg hpercent]
  by_cases hc : c = ascii 'c'
  · subst hc
    exact Writes.arg (writes_puts _)
  rw [if_neg hc, if_neg hc]
  by_cases hd : c = ascii 'd'
  · subst hd
    exact Writes.arg (writes_signed _)
  rw [if_neg hd, if_neg hd]
  by_cases ho : c = ascii 'o'
  · subst ho
    exact Writes.arg (writes_printint _ _)
  rw [if_neg ho, if_neg ho]
  by_cases hx : c = ascii 'p' ∨ c = ascii 'x'
  · have htakes : takes c = 1 := by
      rcases hx with rfl | rfl
      · rfl
      · rfl
    rw [if_pos hx, if_pos hx, htakes]
    exact Writes.arg (writes_printint _ _)
  rw [if_neg hx, if_neg hx]
  by_cases hs : c = ascii 's'
  · subst hs
    rw [if_pos rfl, if_pos rfl]
    refine Writes.arg ?_
    by_cases hnull : e.args s.next = 0
    · rw [if_pos hnull, if_pos hnull]
      exact writes_puts _
    · rw [if_neg hnull, if_neg hnull]
      exact writes_puts (e := e) _
  · have htakes : takes c = 0 := if_neg (by tauto)
    rw [if_neg hs, if_neg hs, htakes]
    exact (writes_puts [ascii '%']).seq fun _ => writes_puts [c]

/-- The text of a format, from argument `k` on. -/
def render (e : Env) : S → (k : Nat) → List UInt8 → List UInt8
  | _, _, [] => []
  | .normal, k, c :: fmt =>
      if c = ascii '%' then render e .verb k fmt else c :: render e .normal k fmt
  | .verb, k, c :: fmt => verbText e c (e.args k) ++ render e .normal (k + takes c) fmt

/-- The loop, byte by byte of the format. -/
theorem printAll_writes (fmt : List UInt8) (st : S) :
    ∃ n, Writes fd e s (printAll fd st fmt) n (render e st s.next fmt) := by
  induction fmt generalizing st s with
  | nil =>
      refine ⟨0, s, ?_, .refl⟩
      cases st <;> rfl
  | cons c fmt ih =>
      cases st with
      | normal =>
          by_cases hpercent : c = ascii '%'
          · have hc : printc fd c e s = .ok .verb s := by
              rw [printc, if_pos hpercent]
              rfl
            obtain ⟨n, s', hrun, h⟩ := ih .verb
            rw [render, if_pos hpercent]
            exact ⟨n, s', (bind_ok hc).trans hrun, h⟩
          · have hc : printc fd c e s = .ok .normal { s with out := s.out ++ [(fd, [c])] } := by
              rw [printc, if_neg hpercent]
              rfl
            obtain ⟨n, s', hrun, h⟩ := ih .normal
            rw [render, if_neg hpercent]
            exact ⟨0 + n, s', (bind_ok hc).trans hrun, (Prints.one [c]).trans h⟩
      | verb =>
          obtain ⟨s₁, hverb, h₁⟩ := writes_verb c
          have hc : printv fd c e s = .ok .normal s₁ := bind_ok hverb
          have hnext : s₁.next = s.next + takes c := by
            obtain ⟨ws, rfl, -⟩ := h₁
            rfl
          obtain ⟨n, s', hrun, h⟩ := ih .normal
          rw [render, ← hnext]
          exact ⟨takes c + n, s', (bind_ok hc).trans hrun, h₁.trans h⟩

/-- **`rvdprintf` writes the text of its format**, and never panics. -/
theorem rvdprintf_writes (fd : Int32) (fmt : List UInt8) (e : Env) (s : State) :
    ∃ n, Writes fd e s (rvdprintf fd fmt) n (render e .normal s.next fmt) := printAll_writes fmt .normal

/-- **Integers are printed exactly**: `printint` hands the canonical numeral to `puts`, from a
buffer that it never leaves, and what `%d` writes is the integer, the smallest one included. -/
theorem printint_exact :
    (∀ fd x base e s, ∃ ds, printint fd x base e s = .ok () { s with out := s.out ++ [(fd, ds)] } ∧
      Canonical base.val.toNat x.toNat ds ∧ ds.length ≤ 32) ∧
    ∀ fd e s, ∃ text, Writes fd e s (printVerb fd (ascii 'd')) 1 text ∧
      readInt text = some (argI32 (e.args s.next)).toInt := by
  refine ⟨fun fd x base e s => ⟨_, printint_eq fd x base e s, canonical_numeral base _, ?_⟩,
    fun fd e s => ⟨_, writes_verb (ascii 'd'), readInt_signed _⟩⟩
  exact Nat.le_trans (length_numeral x base) (by decide)

end Rxv64.Ulib.Printf
