import Mathlib.Data.List.Perm.Subperm
import Rxv64.Lib.Firsts
import Rxv64.Lib.Layout

/-!
# Acpi — the walk over the MADT

`madt::init` of `kernel/src/acpi.rs` and the parsers of its records. The body of the table is a
list of bytes; `Except.error` is a failed assertion or bounds check. A record of length 0 is
read again, so the loop runs on fuel, and `none` means that it still runs.
-/

namespace Rxv64.Acpi

open Layout Firsts

/-- `param::NCPUMAX`. -/
abbrev ncpuMax : Nat := 256

/-- `IOAPICT`. -/
structure IoApic where
  id : UInt32
  globalIntrBase : UInt32
  physAddr : UInt64

/-- `CPUS[..NCPUS]` and `IOAPICS[..NIOAPICS]`. -/
structure Madt where
  cpus : List UInt32
  ioapics : List IoApic

/-- The statics at boot. -/
def Madt.empty : Madt := ⟨[], []⟩

abbrev Record := List UInt8

/-- `data[k]`. -/
def index (data : Record) (k : Nat) : Except String UInt8 :=
  if k < data.length then .ok (data.getD k 0) else .error "index out of bounds"

/-- `arch::read_u32(&data[k..k + 4])`. -/
def readU32 (data : Record) (k : Nat) : Except String UInt32 :=
  if k + 4 ≤ data.length then .ok (UInt32.ofNat (leNat ((data.drop k).take 4)))
  else .error "range end index out of range"

def assert (c : Prop) [Decidable c] (msg : String) : Except String Unit :=
  if c then .ok () else .error msg

/-- A new entry of `CPUS`. -/
def Madt.addCpu (m : Madt) (id : UInt32) : Except String Madt :=
  if id ∈ m.cpus then .ok m
  else if m.cpus.length < ncpuMax then .ok { m with cpus := m.cpus ++ [id] }
  else .error "index out of bounds"

/-- `init_lapic` and `init_lsapic`, which differ in the type they assert. -/
def initApic (typ : UInt8) (data : Record) (m : Madt) : Except String Madt := do
  assert ((← index data 0) = typ) "assertion failed: data[0]"
  assert ((← index data 1).toNat = data.length) "assertion failed: data[1]"
  let apicId := (← index data 3).toUInt32
  let flags ← readU32 data 4
  if flags &&& 1 = 1 then m.addCpu apicId else .ok m

def initLapic (data : Record) (m : Madt) : Except String Madt := initApic 0 data m

def initLsapic (data : Record) (m : Madt) : Except String Madt := initApic 7 data m

def initIoapic (data : Record) (m : Madt) : Except String Madt := do
  assert ((← index data 0) = 1) "assertion failed: data[0]"
  assert ((← index data 1).toNat = data.length) "assertion failed: data[1]"
  let id := (← index data 2).toUInt32
  let physAddr := (← readU32 data 4).toUInt64
  let globalIntrBase ← readU32 data 8
  if m.ioapics.length < ncpuMax then
    .ok { m with ioapics := m.ioapics ++ [⟨id, globalIntrBase, physAddr⟩] }
  else .error "index out of bounds"

/-- The dispatch on the type of a record. -/
def visit (typ : UInt8) (data : Record) (m : Madt) : Except String Madt :=
  if typ = 0 then initLapic data m
  else if typ = 1 then initIoapic data m
  else if typ = 7 then initLsapic data m
  else .ok m

/-- A turn of the loop, at offset `start` of the body. -/
def turn (raw : List UInt8) (start : Nat) (m : Madt) : Except String (Nat × Madt) := do
  assert (start + 1 < raw.length) "assertion failed: start + 1 < raw_tbl.len()"
  let typ ← index raw start
  let len ← index raw (start + 1)
  assert (start + len.toNat ≤ raw.length) "assertion failed: start + len <= raw_tbl.len()"
  let m ← visit typ ((raw.drop start).take len.toNat) m
  .ok (start + len.toNat, m)

/-- The loop of `madt::init`. -/
def initLoop (raw : List UInt8) : (fuel start : Nat) → Madt → Option (Except String Madt)
  | 0, _, _ => none
  | fuel + 1, start, m =>
      if start < raw.length then
        match turn raw start m with
        | .error e => some (.error e)
        | .ok (start, m) => initLoop raw fuel start m
      else some (.ok m)

/-- `madt::init` at boot, for `fuel` turns. -/
def init (raw : List UInt8) (fuel : Nat) : Option (Except String Madt) :=
  initLoop raw fuel 8 Madt.empty

/-! ## Records -/

/-- The length a record of this type has at least: what its parser reads, and for others
what moves the walk on. -/
def needs (typ : UInt8) : Nat :=
  if typ = 0 ∨ typ = 7 then 8 else if typ = 1 then 12 else 1

/-- The walk takes the records off the bytes and leaves the rest. -/
inductive Walks : List UInt8 → List Record → List UInt8 → Prop
  | nil {bytes : List UInt8} : Walks bytes [] bytes
  | snoc {bytes rest : List UInt8} {recs : List Record} {typ len : UInt8} {tail : List UInt8} :
      Walks bytes recs (typ :: len :: tail) → needs typ ≤ len.toNat →
      len.toNat ≤ (typ :: len :: tail).length → rest = (typ :: len :: tail).drop len.toNat →
      Walks bytes (recs ++ [(typ :: len :: tail).take len.toNat]) rest

def isIoapic (r : Record) : Bool := r.head? = some 1

def ioapics (recs : List Record) : Nat := recs.countP isIoapic

/-- A local APIC or SAPIC with the flag `ENABLED`. -/
def enabled (r : Record) : Bool :=
  (r.head? = some 0 || r.head? = some 7) &&
    UInt32.ofNat (leNat ((r.drop 4).take 4)) &&& 1 = 1

def apicId (r : Record) : UInt32 := (r.getD 3 0).toUInt32

/-- The ids of the enabled processors, each where it comes first. -/
def cpuList (recs : List Record) : List UInt32 := ((recs.filter enabled).map apicId).eraseDups

/-- The body is a sequence of records of their own lengths. -/
def WellFormed (raw : List UInt8) (recs : List Record) : Prop :=
  Walks (raw.drop 8) recs [] ∧ ∀ r ∈ recs, 2 ≤ r.length

/-- The walk ends, normally or by a panic. -/
def Ends (raw : List UInt8) : Prop := ∃ fuel r, init raw fuel = some r

/-- `visit` on a record by itself. -/
def visitRecord (m : Madt) (r : Record) : Except String Madt := visit (r.headD 0) r m

/-- The walk ends, has visited these records once each and in order, and found their
processors. -/
def EachOnce (raw : List UInt8) (recs : List Record) : Prop :=
  ∃ fuel m, init raw fuel = some (.ok m) ∧
    recs.foldlM visitRecord Madt.empty = .ok m ∧ m.cpus = cpuList recs

/-- The walk comes to a record of length 0 that no parser looks at. -/
def Stuck (raw : List UInt8) : Prop :=
  ∃ recs typ tail, Walks (raw.drop 8) recs (typ :: 0 :: tail) ∧ ioapics recs ≤ ncpuMax ∧
    typ ≠ 0 ∧ typ ≠ 1 ∧ typ ≠ 7

/-! ## One record -/

variable {raw bytes tail rest : List UInt8} {typ len : UInt8} {data : Record} {recs : List Record}
  {m m' : Madt} {start fuel k : Nat}

theorem index_of_lt (h : k < data.length) : index data k = .ok (data.getD k 0) := if_pos h

theorem readU32_of_le (h : k + 4 ≤ data.length) :
    readU32 data k = .ok (UInt32.ofNat (leNat ((data.drop k).take 4))) := if_pos h

theorem readU32_of_lt (h : data.length < k + 4) :
    readU32 data k = .error "range end index out of range" := if_neg (Nat.not_le.mpr h)

/-- A record whose first two bytes are its type and its length. -/
structure Framed (typ len : UInt8) (data : Record) : Prop where
  first : data.getD 0 0 = typ
  second : data.getD 1 0 = len
  length : data.length = len.toNat
  two : 2 ≤ data.length

theorem Framed.head? (h : Framed typ len data) : data.head? = some typ := by
  have htwo := h.two
  have htyp := h.first
  cases data with
  | nil => simp at htwo
  | cons a data =>
      rw [List.getD_cons_zero] at htyp
      rw [htyp]
      rfl

theorem framed_take (htwo : 2 ≤ len.toNat) (hfits : len.toNat ≤ (typ :: len :: tail).length) :
    Framed typ len ((typ :: len :: tail).take len.toNat) := by
  obtain ⟨n, hn⟩ : ∃ n, len.toNat = n + 2 := ⟨len.toNat - 2, by omega⟩
  have hlength : ((typ :: len :: tail).take len.toNat).length = len.toNat := by
    rw [List.length_take]
    omega
  refine ⟨?_, ?_, hlength, by omega⟩
  · rw [hn]
    rfl
  · rw [hn]
    rfl

/-- The tables after a walk over the records. -/
structure Tables (recs : List Record) (m : Madt) : Prop where
  cpus : m.cpus = cpuList recs
  found : m.ioapics.length = ioapics recs
  room : ioapics recs ≤ ncpuMax

theorem tables_empty : Tables [] Madt.empty := ⟨rfl, rfl, Nat.zero_le _⟩

theorem cpuList_snoc (recs : List Record) (r : Record) :
    cpuList (recs ++ [r]) =
      if enabled r then
        if apicId r ∈ cpuList recs then cpuList recs else cpuList recs ++ [apicId r]
      else cpuList recs := by
  unfold cpuList
  by_cases h : enabled r = true
  · rw [if_pos h, List.filter_append, List.filter_cons_of_pos h, List.filter_nil, List.map_append,
      List.map_singleton, eraseDups_snoc]
    simp only [List.mem_eraseDups]
  · rw [if_neg h, List.filter_append, List.filter_cons_of_neg h, List.filter_nil, List.append_nil]

theorem ioapics_snoc (recs : List Record) (r : Record) :
    ioapics (recs ++ [r]) = ioapics recs + if isIoapic r then 1 else 0 := by
  rw [ioapics, List.countP_append, List.countP_singleton]
  rfl

/-- An id is a byte, so there is room for one that is new. -/
theorem cpuList_room {id : UInt8} (h : id.toUInt32 ∉ cpuList recs) :
    (cpuList recs).length < ncpuMax := by
  have hnodup : (id.toUInt32 :: cpuList recs).Nodup := List.nodup_cons.mpr ⟨h, nodup_eraseDups _⟩
  have hbytes : ∀ c ∈ id.toUInt32 :: cpuList recs, c.toNat ∈ List.range 256 := by
    intro c hc
    rw [List.mem_range]
    rcases List.mem_cons.mp hc with rfl | hc
    · simpa using id.toNat_lt
    · rw [cpuList, List.mem_eraseDups, List.mem_map] at hc
      obtain ⟨r, -, rfl⟩ := hc
      simpa [apicId] using (r.getD 3 0).toNat_lt
  have hinj : ((id.toUInt32 :: cpuList recs).map UInt32.toNat).Nodup :=
    hnodup.map fun _ _ heq => UInt32.toNat_inj.mp heq
  have hsub : (id.toUInt32 :: cpuList recs).map UInt32.toNat ⊆ List.range 256 := by
    intro n hn
    obtain ⟨c, hc, rfl⟩ := List.mem_map.mp hn
    exact hbytes c hc
  have hle := (List.Nodup.subperm hinj hsub).length_le
  rw [List.length_map, List.length_cons, List.length_range] at hle
  exact hle

theorem bind_error {α β : Type} {x : Except String α} {f : α → Except String β}
    (h : ∀ a, ∃ e, f a = .error e) : ∃ e, (x >>= f) = .error e := by
  cases x with
  | error e => exact ⟨e, rfl⟩
  | ok a => exact h a

theorem initApic_of_lt (typ : UInt8) (m : Madt) (h : data.length < 8) : ∃ e, initApic typ data m = .error e := by
  refine bind_error fun _ => bind_error fun _ => bind_error fun _ => bind_error fun _ =>
    bind_error fun _ => ?_
  rw [readU32_of_lt (by omega)]
  exact ⟨_, rfl⟩

theorem initIoapic_of_lt (m : Madt) (h : data.length < 12) : ∃ e, initIoapic data m = .error e := by
  refine bind_error fun _ => bind_error fun _ => bind_error fun _ => bind_error fun _ =>
    bind_error fun _ => bind_error fun _ => ?_
  rw [readU32_of_lt (by omega)]
  exact ⟨_, rfl⟩

theorem initApic_of_le (hf : Framed typ len data) (h : 8 ≤ data.length) :
    initApic typ data m =
      if UInt32.ofNat (leNat ((data.drop 4).take 4)) &&& 1 = 1 then m.addCpu (apicId data)
      else .ok m := by
  unfold initApic
  rw [index_of_lt (by omega), index_of_lt (by omega), index_of_lt (by omega), readU32_of_le h,
    hf.first, hf.second, hf.length]
  simp only [assert, bind, Except.bind, if_true]
  rfl

theorem initIoapic_of_le (hf : Framed 1 len data) (h : 12 ≤ data.length) :
    ∃ ioapic, initIoapic data m =
      if m.ioapics.length < ncpuMax then .ok { m with ioapics := m.ioapics ++ [ioapic] }
      else .error "index out of bounds" := by
  unfold initIoapic
  rw [index_of_lt (by omega), index_of_lt (by omega), index_of_lt (by omega),
    readU32_of_le (by omega), readU32_of_le h, hf.first, hf.second, hf.length]
  simp only [assert, bind, Except.bind, if_true]
  exact ⟨_, rfl⟩

/-- What the parsers of processors do with a record that is long enough. -/
theorem Tables.cpu (h : Tables recs m) (hf : Framed typ len data) (hlen : 8 ≤ data.length)
    (htyp : typ = 0 ∨ typ = 7) :
    ∃ m', initApic typ data m = .ok m' ∧ Tables (recs ++ [data]) m' := by
  have hhead := hf.head?
  have hio : isIoapic data = false := by
    rw [isIoapic, hhead]
    rcases htyp with rfl | rfl <;> decide
  have hroom : ioapics (recs ++ [data]) = ioapics recs := by rw [ioapics_snoc, hio]; rfl
  have henabled : enabled data = (UInt32.ofNat (leNat ((data.drop 4).take 4)) &&& 1 = 1 : Bool) := by
    rw [enabled, hhead]
    rcases htyp with rfl | rfl <;> simp
  rw [initApic_of_le hf hlen]
  by_cases hflag : UInt32.ofNat (leNat ((data.drop 4).take 4)) &&& 1 = 1
  · have hcpus := cpuList_snoc recs data
    rw [henabled, decide_eq_true hflag, if_pos rfl] at hcpus
    rw [if_pos hflag, Madt.addCpu, h.cpus]
    by_cases hmem : apicId data ∈ cpuList recs
    · rw [if_pos hmem] at hcpus ⊢
      exact ⟨m, rfl, h.cpus.trans hcpus.symm, h.found.trans hroom.symm, hroom ▸ h.room⟩
    · rw [if_neg hmem] at hcpus
      rw [if_neg hmem, if_pos (cpuList_room hmem)]
      exact ⟨_, rfl, hcpus.symm, h.found.trans hroom.symm, hroom ▸ h.room⟩
  · have hcpus := cpuList_snoc recs data
    rw [henabled, decide_eq_false hflag, if_neg (by decide)] at hcpus
    rw [if_neg hflag]
    exact ⟨m, rfl, h.cpus.trans hcpus.symm, h.found.trans hroom.symm, hroom ▸ h.room⟩

/-- The parser of I/O APICs, which has room for as many as there may be processors. -/
theorem Tables.ioapic (h : Tables recs m) (hf : Framed 1 len data) (hlen : 12 ≤ data.length)
    (hroom : ioapics recs < ncpuMax) :
    ∃ m', initIoapic data m = .ok m' ∧ Tables (recs ++ [data]) m' := by
  have hhead := hf.head?
  have hio : isIoapic data = true := by rw [isIoapic, hhead]; decide
  have hcpu : enabled data = false := by simp [enabled, hhead]
  obtain ⟨ioapic, hrun⟩ := initIoapic_of_le hf hlen (m := m)
  have hcount : ioapics (recs ++ [data]) = ioapics recs + 1 := by rw [ioapics_snoc, hio]; rfl
  have hcpus := cpuList_snoc recs data
  rw [hcpu, if_neg (by decide)] at hcpus
  rw [hrun, if_pos (by rw [h.found]; exact hroom)]
  refine ⟨_, rfl, h.cpus.trans hcpus.symm, ?_, by omega⟩
  rw [hcount, ← h.found, List.length_append, List.length_singleton]

/-- A record of another type is passed over. -/
theorem Tables.other (h : Tables recs m) (hhead : data.head? = some typ) (h0 : typ ≠ 0)
    (h1 : typ ≠ 1) (h7 : typ ≠ 7) : Tables (recs ++ [data]) m := by
  have hio : isIoapic data = false := by simp [isIoapic, hhead, h1]
  have hcpu : enabled data = false := by simp [enabled, hhead, h0, h7]
  have hcount : ioapics (recs ++ [data]) = ioapics recs := by rw [ioapics_snoc, hio]; rfl
  have hcpus := cpuList_snoc recs data
  rw [hcpu, if_neg (by decide)] at hcpus
  exact ⟨h.cpus.trans hcpus.symm, h.found.trans hcount.symm, hcount ▸ h.room⟩

theorem needs_pos (typ : UInt8) : 0 < needs typ := by
  unfold needs
  split
  · decide
  · split <;> decide

/-- A record as long as its type needs is visited, if there is room for it. -/
theorem Tables.visit (h : Tables recs m) (hneeds : needs typ ≤ len.toNat)
    (hfits : len.toNat ≤ (typ :: len :: tail).length)
    (hroom : typ = 1 → ioapics recs < ncpuMax) :
    ∃ m', Acpi.visit typ ((typ :: len :: tail).take len.toNat) m = .ok m' ∧
      Tables (recs ++ [(typ :: len :: tail).take len.toNat]) m' := by
  have hlength : ((typ :: len :: tail).take len.toNat).length = len.toNat := by
    rw [List.length_take]
    omega
  unfold Acpi.visit
  by_cases h0 : typ = 0
  · subst h0
    have h8 : 8 ≤ len.toNat := hneeds
    rw [if_pos rfl]
    exact h.cpu (framed_take (by omega) hfits) (by omega) (.inl rfl)
  · rw [if_neg h0]
    by_cases h1 : typ = 1
    · subst h1
      have h12 : 12 ≤ len.toNat := hneeds
      rw [if_pos rfl]
      exact h.ioapic (framed_take (by omega) hfits) (by omega) (hroom rfl)
    · rw [if_neg h1]
      by_cases h7 : typ = 7
      · subst h7
        have h8 : 8 ≤ len.toNat := hneeds
        rw [if_pos rfl]
        exact h.cpu (framed_take (by omega) hfits) (by omega) (.inr rfl)
      · rw [if_neg h7]
        have hpos := needs_pos typ
        have hhead : ((typ :: len :: tail).take len.toNat).head? = some typ := by
          obtain ⟨n, hn⟩ : ∃ n, len.toNat = n + 1 := ⟨len.toNat - 1, by omega⟩
          rw [hn]
          rfl
        exact ⟨m, rfl, h.other hhead h0 h1 h7⟩

/-- A record that is visited without panic is as long as its type needs, or is empty and
of a type that nobody looks at; and there was room for it. -/
theorem Tables.of_visit (h : Tables recs m) (hfits : len.toNat ≤ (typ :: len :: tail).length)
    (hv : Acpi.visit typ ((typ :: len :: tail).take len.toNat) m = .ok m') :
    (needs typ ≤ len.toNat ∧ (typ = 1 → ioapics recs < ncpuMax)) ∨
      (len = 0 ∧ typ ≠ 0 ∧ typ ≠ 1 ∧ typ ≠ 7 ∧ m' = m) := by
  have hlength : ((typ :: len :: tail).take len.toNat).length = len.toNat := by
    rw [List.length_take]
    omega
  unfold Acpi.visit at hv
  by_cases h0 : typ = 0
  · subst h0
    rw [if_pos rfl, initLapic] at hv
    refine .inl ⟨?_, fun h1 => absurd h1 (by decide)⟩
    by_contra hlt
    have h8 : len.toNat < 8 := Nat.not_le.mp hlt
    obtain ⟨e, he⟩ := initApic_of_lt 0 m (hlength ▸ h8)
    rw [he] at hv
    cases hv
  · rw [if_neg h0] at hv
    by_cases h1 : typ = 1
    · subst h1
      rw [if_pos rfl] at hv
      by_cases hlt : len.toNat < 12
      · obtain ⟨e, he⟩ := initIoapic_of_lt m (hlength ▸ hlt)
        rw [he] at hv
        cases hv
      · refine .inl ⟨Nat.not_lt.mp hlt, fun _ => ?_⟩
        obtain ⟨ioapic, hrun⟩ := initIoapic_of_le (m := m)
          (framed_take (by omega) hfits) (by omega)
        rw [hrun, h.found] at hv
        by_contra hfull
        rw [if_neg hfull] at hv
        cases hv
    · rw [if_neg h1] at hv
      by_cases h7 : typ = 7
      · subst h7
        rw [if_pos rfl, initLsapic] at hv
        refine .inl ⟨?_, fun h1 => absurd h1 (by decide)⟩
        by_contra hlt
        have h8 : len.toNat < 8 := Nat.not_le.mp hlt
        obtain ⟨e, he⟩ := initApic_of_lt 7 m (hlength ▸ h8)
        rw [he] at hv
        cases hv
      · rw [if_neg h7] at hv
        cases hv
        by_cases hz : len = 0
        · exact .inr ⟨hz, h0, h1, h7, rfl⟩
        · have hpos : len.toNat ≠ 0 := fun heq => hz (UInt8.toNat_inj.mp heq)
          refine .inl ⟨?_, fun h => absurd h h1⟩
          rw [needs, if_neg (by simp [h0, h7]), if_neg h1]
          omega

/-! ## The walk -/

/-- A turn at a record with its two header bytes. -/
theorem turn_eq (hdrop : raw.drop start = typ :: len :: tail)
    (hfits : len.toNat ≤ (typ :: len :: tail).length) :
    turn raw start m = (visit typ ((typ :: len :: tail).take len.toNat) m).map
      fun m' => (start + len.toNat, m') := by
  have hlen := congrArg List.length hdrop
  rw [List.length_drop, List.length_cons, List.length_cons] at hlen
  rw [List.length_cons, List.length_cons] at hfits
  have htyp : raw.getD start 0 = typ := by
    rw [List.getD_eq_getElem?_getD, ← Nat.add_zero start, ← List.getElem?_drop, hdrop]
    rfl
  have hnext : raw.getD (start + 1) 0 = len := by
    rw [List.getD_eq_getElem?_getD, ← List.getElem?_drop, hdrop]
    rfl
  unfold turn
  rw [index_of_lt (by omega), index_of_lt (by omega), htyp, hnext, hdrop]
  simp only [assert, bind, Except.bind, if_pos (show start + 1 < raw.length by omega),
    if_pos (show start + len.toNat ≤ raw.length by omega)]
  cases visit typ ((typ :: len :: tail).take len.toNat) m with
  | error e => rfl
  | ok m' => rfl

/-- A turn at a record that does not fit in the body. -/
theorem turn_beyond (hdrop : raw.drop start = typ :: len :: tail)
    (hbig : (typ :: len :: tail).length < len.toNat) : ∃ e, turn raw start m = .error e := by
  have hlen := congrArg List.length hdrop
  rw [List.length_drop, List.length_cons, List.length_cons] at hlen
  rw [List.length_cons, List.length_cons] at hbig
  have hnext : raw.getD (start + 1) 0 = len := by
    rw [List.getD_eq_getElem?_getD, ← List.getElem?_drop, hdrop]
    rfl
  refine bind_error fun _ => bind_error fun _ => ?_
  rw [index_of_lt (by omega), hnext]
  refine ⟨"assertion failed: start + len <= raw_tbl.len()", ?_⟩
  simp only [assert, bind, Except.bind, if_neg (show ¬start + len.toNat ≤ raw.length by omega)]

/-- A turn at the last byte. -/
theorem turn_last (hdrop : raw.drop start = [typ]) : ∃ e, turn raw start m = .error e := by
  have hlen := congrArg List.length hdrop
  rw [List.length_drop, List.length_singleton] at hlen
  refine ⟨"assertion failed: start + 1 < raw_tbl.len()", ?_⟩
  unfold turn
  simp only [assert, bind, Except.bind, if_neg (show ¬start + 1 < raw.length by omega)]

theorem lt_of_drop (hdrop : raw.drop start = typ :: tail) : start < raw.length := by
  have hlen := congrArg List.length hdrop
  rw [List.length_drop, List.length_cons] at hlen
  omega

theorem initLoop_of_error {e : String} (hlt : start < raw.length)
    (hturn : turn raw start m = .error e) : initLoop raw (fuel + 1) start m = some (.error e) := by
  rw [initLoop, if_pos hlt, hturn]

theorem initLoop_of_ok {start' : Nat} (hlt : start < raw.length)
    (hturn : turn raw start m = .ok (start', m')) :
    initLoop raw (fuel + 1) start m = initLoop raw fuel start' m' := by
  rw [initLoop, if_pos hlt, hturn]

theorem visitRecord_take (hpos : 0 < len.toNat) :
    visitRecord m ((typ :: len :: tail).take len.toNat) =
      visit typ ((typ :: len :: tail).take len.toNat) m := by
  obtain ⟨n, hn⟩ : ∃ n, len.toNat = n + 1 := ⟨len.toNat - 1, by omega⟩
  rw [visitRecord, hn]
  rfl

theorem isIoapic_take (hpos : 0 < len.toNat) :
    isIoapic ((typ :: len :: tail).take len.toNat) = decide (typ = 1) := by
  obtain ⟨n, hn⟩ : ∃ n, len.toNat = n + 1 := ⟨len.toNat - 1, by omega⟩
  rw [isIoapic, hn, List.take_succ_cons, List.head?_cons]
  simp

/-- The loop walks, and does what visiting the records one after the other does. -/
theorem Walks.run (hw : Walks (raw.drop 8) recs rest) (hroom : ioapics recs ≤ ncpuMax) :
    ∃ m s, Tables recs m ∧ recs.foldlM visitRecord Madt.empty = .ok m ∧ raw.drop s = rest ∧
      ∀ fuel, init raw (fuel + recs.length) = initLoop raw fuel s m := by
  induction hw with
  | nil => exact ⟨Madt.empty, 8, tables_empty, rfl, rfl, fun _ => rfl⟩
  | @snoc rest recs typ len tail hw hneeds hfits hrest ih =>
      have hpos : 0 < len.toNat := Nat.lt_of_lt_of_le (needs_pos typ) hneeds
      have hcount := ioapics_snoc recs ((typ :: len :: tail).take len.toNat)
      rw [isIoapic_take hpos] at hcount
      obtain ⟨m, s, ht, hfold, hdrop, hrun⟩ := ih (by omega)
      have hfree : typ = 1 → ioapics recs < ncpuMax := by
        intro h1
        rw [decide_eq_true h1, if_pos rfl] at hcount
        omega
      obtain ⟨m', hvisit, ht'⟩ := ht.visit hneeds hfits hfree
      refine ⟨m', s + len.toNat, ht', ?_, ?_, fun fuel => ?_⟩
      · rw [List.foldlM_append, hfold]
        show (List.foldlM visitRecord m [_] : Except String Madt) = _
        rw [List.foldlM_cons, visitRecord_take hpos, hvisit]
        rfl
      · rw [← List.drop_drop, hdrop, hrest]
      · have hturn : turn raw s m = .ok (s + len.toNat, m') := by
          rw [turn_eq hdrop hfits, hvisit]
          rfl
        rw [List.length_append, List.length_singleton, Nat.add_comm recs.length, ← Nat.add_assoc,
          hrun, initLoop_of_ok (lt_of_drop hdrop) hturn]

/-- Visiting the records finds room for the I/O APICs among them. -/
theorem Walks.room (hw : Walks bytes recs rest)
    (hfold : recs.foldlM visitRecord Madt.empty = .ok m) : Tables recs m := by
  induction hw generalizing m with
  | nil =>
      cases hfold
      exact tables_empty
  | @snoc rest recs typ len tail hw hneeds hfits hrest ih =>
      have hpos : 0 < len.toNat := Nat.lt_of_lt_of_le (needs_pos typ) hneeds
      rw [List.foldlM_append] at hfold
      cases hbefore : recs.foldlM visitRecord Madt.empty with
      | error e =>
          rw [hbefore] at hfold
          cases hfold
      | ok m₀ =>
          rw [hbefore] at hfold
          have hlast : (List.foldlM visitRecord m₀ [(typ :: len :: tail).take len.toNat] :
              Except String Madt) = .ok m := hfold
          have hone : visit typ ((typ :: len :: tail).take len.toNat) m₀ = .ok m := by
            rw [List.foldlM_cons, visitRecord_take hpos] at hlast
            cases hvisit : visit typ ((typ :: len :: tail).take len.toNat) m₀ with
            | error e =>
                rw [hvisit] at hlast
                cases hlast
            | ok m₁ =>
                rw [hvisit] at hlast
                exact hlast
          have ht := ih hbefore
          rcases ht.of_visit hfits hone with ⟨-, hfree⟩ | ⟨hzero, -⟩
          · obtain ⟨m₁, hvisit, ht'⟩ := ht.visit hneeds hfits hfree
            rw [hone] at hvisit
            cases hvisit
            exact ht'
          · rw [hzero] at hpos
            exact absurd hpos (by decide)

/-- Every turn moves the walk on, unless it is stuck. -/
theorem ends_or_stuck (n : Nat) (hn : raw.length - start < n)
    (hw : Walks (raw.drop 8) recs (raw.drop start)) (ht : Tables recs m) :
    Stuck raw ∨ ∃ fuel r, initLoop raw fuel start m = some r := by
  induction n generalizing start recs m with
  | zero => omega
  | succ n ih =>
      cases hdrop : raw.drop start with
      | nil =>
          have hend : ¬start < raw.length := by
            rw [List.drop_eq_nil_iff] at hdrop
            omega
          exact .inr ⟨1, .ok m, by rw [initLoop, if_neg hend]⟩
      | cons typ bytes =>
          have hlt := lt_of_drop hdrop
          have hstop : ∀ e, turn raw start m = .error e →
              Stuck raw ∨ ∃ fuel r, initLoop raw fuel start m = some r :=
            fun e he => .inr ⟨1, _, initLoop_of_error hlt he⟩
          cases bytes with
          | nil =>
              obtain ⟨e, he⟩ := turn_last (m := m) hdrop
              exact hstop e he
          | cons len tail =>
              by_cases hfits : len.toNat ≤ (typ :: len :: tail).length
              · cases hvisit : visit typ ((typ :: len :: tail).take len.toNat) m with
                | error e =>
                    refine hstop e ?_
                    rw [turn_eq hdrop hfits, hvisit]
                    rfl
                | ok m' =>
                    have hturn : turn raw start m = .ok (start + len.toNat, m') := by
                      rw [turn_eq hdrop hfits, hvisit]
                      rfl
                    rw [hdrop] at hw
                    rcases ht.of_visit hfits hvisit with ⟨hneeds, hfree⟩ | ⟨hzero, h0, h1, h7, -⟩
                    · obtain ⟨m₁, hvisit', ht'⟩ := ht.visit hneeds hfits hfree
                      rw [hvisit] at hvisit'
                      cases hvisit'
                      have hpos : 0 < len.toNat := Nat.lt_of_lt_of_le (needs_pos typ) hneeds
                      have hw' : Walks (raw.drop 8) _ (raw.drop (start + len.toNat)) :=
                        hw.snoc hneeds hfits (by rw [← List.drop_drop, hdrop])
                      rcases ih (by omega) hw' ht' with hstuck | ⟨fuel, r, hr⟩
                      · exact .inl hstuck
                      · exact .inr ⟨fuel + 1, r, by rw [initLoop_of_ok hlt hturn, hr]⟩
                    · exact .inl ⟨recs, typ, tail, hzero ▸ hw, ht.room, h0, h1, h7⟩
              · obtain ⟨e, he⟩ := turn_beyond (m := m) hdrop (Nat.not_le.mp hfits)
                exact hstop e he

theorem initLoop_mono {r : Except String Madt} (h : initLoop raw fuel start m = some r) (k : Nat) :
    initLoop raw (fuel + k) start m = some r := by
  induction fuel generalizing start m with
  | zero => cases h
  | succ fuel ih =>
      rw [Nat.add_right_comm, initLoop]
      rw [initLoop] at h
      by_cases hlt : start < raw.length
      · rw [if_pos hlt] at h ⊢
        cases hturn : turn raw start m with
        | error e =>
            rw [hturn] at h
            exact h
        | ok r =>
            rw [hturn] at h
            exact ih h
      · rw [if_neg hlt] at h ⊢
        exact h

/-- At a record of length 0 the loop stays where it is. -/
theorem Stuck.runs (h : Stuck raw) : ¬Ends raw := by
  obtain ⟨recs, typ, tail, hw, hroom, h0, h1, h7⟩ := h
  obtain ⟨m, s, -, -, hdrop, hrun⟩ := hw.run hroom
  have hturn : turn raw s m = .ok (s, m) := by
    rw [turn_eq hdrop (Nat.zero_le _), visit, if_neg h0, if_neg h1, if_neg h7]
    rfl
  have hstay : ∀ fuel, initLoop raw fuel s m = none := by
    intro fuel
    induction fuel with
    | zero => rfl
    | succ fuel ih => rw [initLoop_of_ok (lt_of_drop hdrop) hturn, ih]
  intro ⟨fuel, r, hr⟩
  have hmore := initLoop_mono hr recs.length
  have hnone := hrun fuel
  rw [hstay] at hnone
  rw [init] at hnone
  rw [hnone] at hmore
  cases hmore

/-- **The MADT walk ends** for every body, and goes once over the records of a well-formed one,
unless it comes to a record of length 0 that no parser looks at, or there are more I/O APICs
than the table takes. -/
theorem init_ends_iff (raw : List UInt8) :
    (Ends raw ∧ ∀ recs, WellFormed raw recs → EachOnce raw recs) ↔
      ¬Stuck raw ∧ ∀ recs, WellFormed raw recs → ioapics recs ≤ ncpuMax := by
  constructor
  · intro ⟨hends, honce⟩
    refine ⟨fun hstuck => hstuck.runs hends, fun recs hwf => ?_⟩
    obtain ⟨fuel, m, -, hfold, -⟩ := honce recs hwf
    exact (hwf.1.room hfold).room
  · intro ⟨hfree, hroom⟩
    refine ⟨(ends_or_stuck _ (Nat.lt_succ_self _) .nil tables_empty).resolve_left hfree,
      fun recs hwf => ?_⟩
    obtain ⟨m, s, ht, hfold, hdrop, hrun⟩ := hwf.1.run (hroom recs hwf)
    have hend : ¬s < raw.length := by
      rw [List.drop_eq_nil_iff] at hdrop
      omega
    refine ⟨1 + recs.length, m, ?_, hfold, ht.cpus⟩
    rw [hrun, initLoop, if_neg hend]

/-- Eight bytes of flags and addresses, and a record of type 2 and length 0. -/
theorem init_runs_on : ¬Ends [0, 0, 0, 0, 0, 0, 0, 0, 2, 0] :=
  Stuck.runs ⟨[], 2, [], .nil, by decide, by decide, by decide, by decide⟩

end Rxv64.Acpi
