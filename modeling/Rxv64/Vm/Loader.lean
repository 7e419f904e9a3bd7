import Rxv64.Vm.Bytes
import Rxv64.Vm.Sweep

/-!
# Vm.Loader — loading a program from a file

`ELFHeader`, `ProgramHeader` and the first half of `exec` in
`kernel/src/exec.rs`, on a file given by its bytes. Additions are those of a
build with overflow checks.
-/

namespace Rxv64.Vm

open Prog Radix

/-! ## Files -/

/-- `Inode::readi` of a file. A read may also fail for want of buffers. -/
def fileReadi (file : List (BitVec 8)) (fails : Nat → Nat → Option String) : FileData :=
  fun off len =>
    if file.length < off then .error "offset beyond end of file"
    else if 2 ^ 64 ≤ off + len then .error "offset and length wrap"
    else match fails off len with
      | some e => .error e
      | none => .ok ((file.drop off).take len)

/-- A field of a record: `n` bytes from `off` on, the lowest first. -/
def field (bytes : List (BitVec 8)) (off n : Nat) : Nat :=
  ((bytes.drop off).take n).foldr (fun b w => b.toNat + 256 * w) 0

/-! ## The headers -/

/-- `struct ELFHeader`, the fields that `exec` reads. -/
structure ElfHeader where
  ident : List (BitVec 8)
  objectFileType : Nat
  machine : Nat
  entryAddr : Nat
  programHeaderOffset : Nat
  numProgramHeaders : Nat

/-- `size_of::<ELFHeader>()`. -/
abbrev elfHeaderSize : Nat := 64

def ElfHeader.ofBytes (bytes : List (BitVec 8)) : ElfHeader where
  ident := bytes.take 16
  objectFileType := field bytes 16 2
  machine := field bytes 18 2
  entryAddr := field bytes 24 8
  programHeaderOffset := field bytes 32 8
  numProgramHeaders := field bytes 56 2

def ElfHeader.read (readi : FileData) : VmM ElfHeader :=
  match readi 0 elfHeaderSize with
  | .error e => throw e
  | .ok bytes =>
      if bytes.length ≠ elfHeaderSize then throw "exec: short ELF file"
      else pure (ElfHeader.ofBytes bytes)

def ElfHeader.validate (elf : ElfHeader) : VmM Unit :=
  if elf.ident.take 4 ≠ [0x7F, 0x45, 0x4C, 0x46] then throw "Bad magic ELF value"
  else if elf.ident[4]? ≠ some 2 then throw "Not a 64-bit object file"
  else if elf.objectFileType ≠ 2 then throw "Not an executable ELF file"
  else if elf.machine ≠ 62 then throw "Wrong ELF executable architecture"
  else pure ()

/-- `PH_SIZE`. -/
abbrev phSize : Nat := 56

/-- `prog_type`, and the other fields. -/
def ProgramHeader.ofBytes (bytes : List (BitVec 8)) : Nat × ProgramHeader :=
  (field bytes 0 4,
    { flags := UInt32.ofNat (field bytes 4 4)
      offset := UInt64.ofNat (field bytes 8 8)
      virtAddr := UInt64.ofNat (field bytes 16 8)
      fileSize := UInt64.ofNat (field bytes 32 8)
      memSize := UInt64.ofNat (field bytes 40 8) })

def ProgramHeader.read (readi : FileData) (off : Nat) : VmM (Nat × ProgramHeader) :=
  match readi off phSize with
  | .error e => throw e
  | .ok bytes =>
      if bytes.length ≠ phSize then throw "exec: short program header read"
      else pure (ProgramHeader.ofBytes bytes)

/-- `is_loadable`. -/
def isLoadable (progType : Nat) : Prop := progType = 1

instance (progType : Nat) : Decidable (isLoadable progType) :=
  inferInstanceAs (Decidable (progType = 1))

/-! ## The image -/

/-- The loop of `exec` over the program headers: `n` of them, from `off` on. -/
def loadHeaders (root : Frame) (readi : FileData) : Nat → Nat → Nat → VmM Nat
  | 0, _, size => pure size
  | n + 1, off, size => do
      let (progType, ph) ← ProgramHeader.read readi off
      let off ← addWord off phSize
      if isLoadable progType then do
        let size ← loadSegment root size ph readi
        loadHeaders root readi n off size
      else loadHeaders root readi n off size

/-- The closure of `exec`: the entry address and the size. -/
def loadImage (root : Frame) (readi : FileData) : VmM (Nat × Nat) := do
  let elf ← ElfHeader.read readi
  elf.validate
  let size ← loadHeaders root readi elf.numProgramHeaders elf.programHeaderOffset 0
  pure (elf.entryAddr, size)

/-- The segments that the file describes, from the header at `off` on. -/
def segments (file : List (BitVec 8)) : Nat → Nat → List ProgramHeader
  | 0, _ => []
  | n + 1, off =>
      let h := ProgramHeader.ofBytes ((file.drop off).take phSize)
      if isLoadable h.1 then h.2 :: segments file n (off + phSize)
      else segments file n (off + phSize)

/-- Those of the whole file. -/
def fileSegments (file : List (BitVec 8)) : List ProgramHeader :=
  let elf := ElfHeader.ofBytes (file.take elfHeaderSize)
  segments file elf.numProgramHeaders elf.programHeaderOffset

/-- Where a segment ends. -/
def ProgramHeader.stop (ph : ProgramHeader) : Nat := ph.virtAddr.toNat + ph.memSize.toNat

/-- Its contents in the file. -/
def ProgramHeader.contents (ph : ProgramHeader) (file : List (BitVec 8)) : List (BitVec 8) :=
  (file.drop ph.offset.toNat).take ph.fileSize.toNat

variable {A : Set Frame} {m m' : Mem} {root : Frame} {l l' : List Frame} {size : Nat}
  {ph : ProgramHeader} {file : List (BitVec 8)} {fails : Nat → Nat → Option String} {env : Env}
  {E : String → Mem → Prop} {X : String → Prop}

theorem fileReadi_ok {off len : Nat} {data : List (BitVec 8)}
    (h : fileReadi file fails off len = .ok data) : data = (file.drop off).take len := by
  unfold fileReadi at h
  split at h
  · cases h
  · split at h
    · cases h
    · cases hf : fails off len with
      | none =>
          rw [hf] at h
          cases h
          rfl
      | some e =>
          rw [hf] at h
          cases h

/-- A read that is not short stays in the file. -/
theorem full_read {off len : Nat} (h : ((file.drop off).take len).length = len) (hpos : 0 < len) :
    off + len ≤ file.length := by
  rw [List.length_take, List.length_drop] at h
  omega

/-! ## One segment -/

theorem stepBy_cons {a b step : Nat} (hstep : 0 < step) (h : a < b) :
    stepBy a b step = a :: stepBy (a + step) b step := by
  unfold stepBy
  have hcount : (b - a + step - 1) / step = (b - (a + step) + step - 1) / step + 1 := by
    by_cases hle : b ≤ a + step
    · have hone : b - a + step - 1 = (b - a - 1) + step := by omega
      have hzero : b - (a + step) + step - 1 = step - 1 := by omega
      rw [hone, hzero, Nat.add_div_right _ hstep, Nat.div_eq_of_lt (by omega),
        Nat.div_eq_of_lt (by omega)]
    · rw [show b - a + step - 1 = b - (a + step) + step - 1 + step by omega,
        Nat.add_div_right _ hstep]
  rw [hcount, List.range'_succ]

theorem stepBy_nil {a b step : Nat} (h : b ≤ a) : stepBy a b step = [] := by
  unfold stepBy
  by_cases hstep : step = 0
  · subst hstep
    rw [Nat.div_zero]
    rfl
  · rw [show b - a + step - 1 = step - 1 by omega, Nat.div_eq_of_lt (by omega)]
    rfl

/-- A page of the segment: a chunk of the file is written at its place. -/
theorem loadPages_bytes {kp : Nat} (h : OwnTable A m root l) (hkp : kp % pageSize = 0)
    (hmod : ph.virtAddr.toNat % pageSize = 0) (hlt : kp < ph.fileSize.toNat)
    (hend : ph.virtAddr.toNat + ph.fileSize.toNat ≤ userEnd) (hoff : ph.offset.toNat + kp < 2 ^ 64) :
    Sat (loadPages root ph (fileReadi file fails) kp env m)
      (fun _ m' => Wrote A m m' root l (ph.virtAddr.toNat + kp)
          ((file.drop (ph.offset.toNat + kp)).take (min (ph.fileSize.toNat - kp) pageSize)) ∧
        ph.offset.toNat + kp + min (ph.fileSize.toNat - kp) pageSize ≤ file.length)
      (fun _ m' => Poked A m m' root l) (fun _ => False) := by
  have hend64 : userEnd < 2 ^ 64 := by decide
  refine Sat.seq (addWord_sat.imp (fun _ _ hq => hq) (fun _ _ he => he) fun _ hx => by omega) ?_
  rintro va m' ⟨rfl, rfl, -⟩
  refine Sat.bind userAddrToKernPage_spec ?_ ?_
  · rintro - m' rfl
    exact .refl h
  rintro g m' ⟨rfl, e, he, rfl⟩
  refine Sat.seq (addWord_sat.imp (fun _ _ hq => hq) (fun _ _ he => he) fun _ hx => by omega) ?_
  rintro off m' ⟨rfl, rfl, -⟩
  generalize hn : min (ph.fileSize.toNat - kp) pageSize = n
  cases hread : fileReadi file fails (ph.offset.toNat + kp) n with
  | error e => exact Sat.throw (.refl h)
  | ok data =>
      have hdata := fileReadi_ok hread
      have htake : data.take n = data := by
        rw [hdata, List.take_take, Nat.min_self]
      have hva : ph.virtAddr.toNat + kp = pageRoundDown (ph.virtAddr.toNat + kp) := by
        simp only [pageRoundDown, pageSize] at hmod hkp ⊢
        omega
      have hlen : data.length ≤ pageSize := by
        rw [hdata, List.length_take]
        omega
      have hw : Wrote A m' _ root l (ph.virtAddr.toNat + kp) data :=
        h.wrote he hva (by omega) (by omega)
      rw [Nat.sub_self] at hw
      refine Sat.modify (Sat.ite (fun hfull => Sat.pure ⟨?_, ?_⟩) fun _ => Sat.throw ?_)
      · rw [htake, ← hdata]
        exact hw
      · rw [hdata] at hfull
        have hpos : 0 < n := by
          simp only [pageSize] at hn
          omega
        exact full_read hfull hpos
      · rw [htake]
        exact hw.1

/-- The loop of `load_section`: what has been written so far. -/
theorem loadSection_bytes (h : OwnTable A m root l) (hfile : file.length < 2 ^ 64)
    (hmod : ph.virtAddr.toNat % pageSize = 0)
    (hend : ph.virtAddr.toNat + ph.fileSize.toNat ≤ userEnd) :
    Sat (loadSection root ph (fileReadi file fails) env m)
      (fun _ m' => Wrote A m m' root l ph.virtAddr.toNat (ph.contents file) ∧
        (0 < ph.fileSize.toNat → ph.offset.toNat + ph.fileSize.toNat ≤ file.length))
      (fun _ m' => Poked A m m' root l) (fun _ => False) := by
  refine Sat.assert (fun hn => absurd hmod hn) fun _ => ?_
  generalize hsize : ph.fileSize.toNat = fileSize at hend ⊢
  refine (Sat.each (I := fun ks m' => ∃ k, k % pageSize = 0 ∧ ks = stepBy k fileSize pageSize ∧
      Wrote A m m' root l ph.virtAddr.toNat ((file.drop ph.offset.toNat).take (min k fileSize)) ∧
      (0 < k → ph.offset.toNat + min k fileSize ≤ file.length))
    (fun kp ks m₁ hI => ?_) ⟨0, rfl, rfl, ?_, fun hpos => absurd hpos (Nat.lt_irrefl 0)⟩).imp ?_
    (fun _ _ hq => hq) (fun _ hx => hx)
  · obtain ⟨k, hk, hks, hw, hin⟩ := hI
    have hlt : k < fileSize := by
      by_contra hge
      rw [stepBy_nil (Nat.not_lt.mp hge)] at hks
      cases hks
    rw [stepBy_cons (by decide) hlt] at hks
    obtain ⟨rfl, rfl⟩ := List.cons.inj hks
    have hoff : ph.offset.toNat + kp < 2 ^ 64 := by
      rcases Nat.eq_zero_or_pos kp with rfl | hpos
      · exact ph.offset.toNat_lt
      · have := hin hpos
        omega
    subst hsize
    refine (loadPages_bytes hw.1.1 hk hmod hlt hend hoff).imp ?_ (fun _ _ hq => hw.1.trans hq)
      (fun _ hx => hx)
    rintro - m₂ ⟨hw₂, hin₂⟩
    refine ⟨kp + pageSize, by rw [Nat.add_mod_right]; exact hk, rfl, ?_, fun _ => ?_⟩
    · have htaken : ((file.drop ph.offset.toNat).take (min kp ph.fileSize.toNat)).length = kp := by
        rw [List.length_take, List.length_drop]
        rcases Nat.eq_zero_or_pos kp with rfl | hpos
        · omega
        · have := hin hpos
          omega
      have hsplit : (file.drop ph.offset.toNat).take (min (kp + pageSize) ph.fileSize.toNat) =
          (file.drop ph.offset.toNat).take (min kp ph.fileSize.toNat) ++
            (file.drop (ph.offset.toNat + kp)).take (min (ph.fileSize.toNat - kp) pageSize) := by
        rw [← List.drop_drop, show min kp ph.fileSize.toNat = kp by omega,
          show min (kp + pageSize) ph.fileSize.toNat = kp + min (ph.fileSize.toNat - kp) pageSize by
            omega, List.take_add]
      rw [hsplit]
      refine hw.append ?_
      rw [htaken]
      exact hw₂
    · omega
  · rw [Nat.zero_min, List.take_zero]
    exact .nil h
  · rintro - m' ⟨k, -, hks, hw, hin⟩
    have hge : fileSize ≤ k := by
      by_contra hlt
      rw [stepBy_cons (by decide) (Nat.not_le.mp hlt)] at hks
      cases hks
    rw [Nat.min_eq_right hge] at hw hin
    refine ⟨?_, fun hpos => hin (by omega)⟩
    rw [ProgramHeader.contents, hsize]
    exact hw

/-- What a segment leaves in memory: new pages up to its end, and its contents. -/
structure Placed (A : Set Frame) (file : List (BitVec 8)) (m m' : Mem) (root : Frame)
    (size : Nat) (ph : ProgramHeader) : Prop where
  aligned : ph.virtAddr.toNat % pageSize = 0
  sizes : ph.fileSize.toNat ≤ ph.memSize.toNat
  stop : ph.stop ≤ userEnd
  inFile : 0 < ph.fileSize.toNat → ph.offset.toNat + ph.fileSize.toNat ≤ file.length
  placed : ∃ m₁ l, Cleared m m₁ root ph.pageFlags (fun v =>
      pageRoundUp size ≤ v ∧ v < pageRoundUp ph.stop) ∧
    Wrote A m₁ m' root l ph.virtAddr.toNat (ph.contents file)

theorem loadSegment_bytes (h : OwnTable A m root l) (hfile : file.length < 2 ^ 64) :
    Sat (loadSegment root size ph (fileReadi file fails) env m)
      (fun r m' => r = max size ph.stop ∧ (∃ l', OwnTable A m' root l' ∧ Same A m m') ∧
        Placed A file m m' root size ph)
      (fun _ m' => Intact A m m' root) (fun _ => False) := by
  refine Sat.bind ph.validate_spec ?_ ?_
  · rintro - m' rfl
    exact (Poked.refl h).intact
  rintro - m' ⟨rfl, hsizes, hmod, hsum⟩
  have hgrow : Sat (allocUser root size (ph.virtAddr.toNat + ph.memSize.toNat) ph.pageFlags env m')
      _ _ _ := allocUser_bytes h
  rw [← ph.pageAllocUser_eq hsum] at hgrow
  refine Sat.bind hgrow (fun _ _ he => he) ?_
  rintro r m₁ ⟨rfl, htop, ⟨l₁, hown, hsame⟩, hcleared⟩
  refine Sat.bind (loadSection_bytes hown hfile hmod (by omega))
    (fun _ m₂ hq => hq.intact.after hsame) ?_
  rintro - m₂ ⟨hw, hin⟩
  exact Sat.pure ⟨rfl, ⟨l₁, hw.1.1, hsame.trans hw.1.2.1⟩,
    ⟨hmod, hsizes, htop, hin, m₁, l₁, hcleared, hw⟩⟩

/-! ## All segments -/

/-- The segments placed one after the other, from one size to another. -/
inductive Loads (A : Set Frame) (file : List (BitVec 8)) (root : Frame) :
    List ProgramHeader → Mem → Nat → Mem → Nat → Prop where
  | nil {m : Mem} {size : Nat} : Loads A file root [] m size m size
  | cons {ph : ProgramHeader} {phs : List ProgramHeader} {m m₁ m' : Mem} {size r : Nat} :
      Placed A file m m₁ root size ph → Loads A file root phs m₁ (max size ph.stop) m' r →
      Loads A file root (ph :: phs) m size m' r

theorem ElfHeader.read_spec :
    Sat (ElfHeader.read (fileReadi file fails) env m)
      (fun elf m' => m' = m ∧ elf = ElfHeader.ofBytes (file.take elfHeaderSize))
      (fun _ m' => m' = m) X := by
  unfold ElfHeader.read
  cases hread : fileReadi file fails 0 elfHeaderSize with
  | error e => exact ⟨rfl⟩
  | ok bytes =>
      refine Sat.ite (fun _ => ⟨rfl⟩) fun _ => Sat.pure ⟨rfl, ?_⟩
      rw [fileReadi_ok hread, List.drop_zero]

theorem ElfHeader.validate_spec (elf : ElfHeader) :
    Sat (elf.validate env m) (fun _ m' => m' = m) (fun _ m' => m' = m) X :=
  Sat.ite (fun _ => ⟨rfl⟩) fun _ => Sat.ite (fun _ => ⟨rfl⟩) fun _ =>
    Sat.ite (fun _ => ⟨rfl⟩) fun _ => Sat.ite (fun _ => ⟨rfl⟩) fun _ => Sat.pure rfl

theorem ProgramHeader.read_spec {off : Nat} :
    Sat (ProgramHeader.read (fileReadi file fails) off env m)
      (fun h m' => m' = m ∧ h = ProgramHeader.ofBytes ((file.drop off).take phSize) ∧
        off + phSize ≤ file.length)
      (fun _ m' => m' = m) X := by
  unfold ProgramHeader.read
  cases hread : fileReadi file fails off phSize with
  | error e => exact ⟨rfl⟩
  | ok bytes =>
      have hbytes := fileReadi_ok hread
      refine Sat.ite (fun _ => ⟨rfl⟩) fun hfull => Sat.pure ⟨rfl, by rw [hbytes], ?_⟩
      rw [hbytes] at hfull
      exact full_read (not_not.mp hfull) (by decide)

/-- The loop over the headers: a header that was read lies in the file, so that
the offset of the next one does not overflow. -/
theorem loadHeaders_spec (hfile : file.length < 2 ^ 64) (n : Nat) :
    ∀ {m : Mem} {l : List Frame} {off size : Nat}, OwnTable A m root l →
      Sat (loadHeaders root (fileReadi file fails) n off size env m)
        (fun r m' => (∃ l', OwnTable A m' root l' ∧ Same A m m') ∧
          Loads A file root (segments file n off) m size m' r)
        (fun _ m' => Intact A m m' root) (fun _ => False) := by
  induction n with
  | zero => exact fun h => Sat.pure ⟨⟨_, h, Same.refl⟩, .nil⟩
  | succ n ih =>
      intro m l off size h
      refine Sat.bind ProgramHeader.read_spec ?_ ?_
      · rintro - m' rfl
        exact (Poked.refl h).intact
      rintro ⟨progType, ph⟩ m' ⟨rfl, heq, hin⟩
      refine Sat.seq (addWord_sat.imp (fun _ _ hq => hq) (fun _ _ he => he) fun _ hx => by omega) ?_
      rintro off' m' ⟨rfl, rfl, -⟩
      refine Sat.ite (fun hload => ?_) fun hload => ?_
      · rw [segments, ← heq]
        dsimp only
        rw [if_pos hload]
        refine Sat.seq (loadSegment_bytes h hfile) ?_
        rintro r m₁ ⟨rfl, ⟨l₁, hown, hsame⟩, hplaced⟩
        refine (ih hown).imp ?_ (fun _ m₂ hq => hq.after hsame) (fun _ hx => hx)
        rintro r m₂ ⟨⟨l₂, hown₂, hsame₂⟩, hloads⟩
        exact ⟨⟨l₂, hown₂, hsame.trans hsame₂⟩, .cons hplaced hloads⟩
      · rw [segments, ← heq]
        dsimp only
        rw [if_neg hload]
        exact ih h

theorem loadImage_spec (hfile : file.length < 2 ^ 64) (h : OwnTable A m root l) :
    Sat (loadImage root (fileReadi file fails) env m)
      (fun r m' => (∃ l', OwnTable A m' root l' ∧ Same A m m') ∧
        Loads A file root (fileSegments file) m 0 m' r.2)
      (fun _ m' => Intact A m m' root) (fun _ => False) := by
  have hsame : ∀ m', m' = m → Intact A m m' root := by
    rintro m' rfl
    exact (Poked.refl h).intact
  refine Sat.bind ElfHeader.read_spec (fun _ m' he => hsame m' he) ?_
  rintro elf m' ⟨rfl, rfl⟩
  refine Sat.bind (ElfHeader.validate_spec _) (fun _ m' he => hsame m' he) ?_
  rintro - m' rfl
  refine Sat.seq (loadHeaders_spec hfile _ h) ?_
  rintro size m₁ hq
  exact Sat.pure hq

end Rxv64.Vm
