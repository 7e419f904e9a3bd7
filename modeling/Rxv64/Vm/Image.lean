import Rxv64.Vm.Loader
import Rxv64.Vm.Programs

/-!
# Vm.Image — the image that a file describes

Segments are loaded in the order of their headers. As long as that is the order
of their addresses, the pages of a segment are new when its turn comes, and no
later one touches them again.
-/

namespace Rxv64.Vm

open Radix

variable {A : Set Frame} {m m' : Mem} {root : Frame} {l : List Frame} {size r : Nat}
  {ph : ProgramHeader} {phs done : List ProgramHeader} {file : List (BitVec 8)}
  {fails : Nat → Nat → Option String} {env : Env}

/-! ## Permissions -/

/-- Bit 63 forbids execution. -/
def Entry.isNx (e : Entry) : Bool := e.getLsbD 63

/-- What an entry with these flags allows. -/
theorem entry_allows (page : Frame) (ph : ProgramHeader) :
    (Entry.new (physAddr page) (ph.pageFlags.union .user)).enable.isPresent = true ∧
    (Entry.new (physAddr page) (ph.pageFlags.union .user)).enable.isUser = true ∧
    ((Entry.new (physAddr page) (ph.pageFlags.union .user)).enable.isWrite = true ↔ ph.writable) ∧
    ((Entry.new (physAddr page) (ph.pageFlags.union .user)).enable.isNx = false ↔
      ph.executable) := by
  refine ⟨Entry.isPresent_enable _, by simp, ?_, ?_⟩
  · rw [Entry.isWrite, getLsbD_entry _ _ (.inl (by decide)), getLsbD_pageFlags _ 1 (by decide)]
    simp
  · rw [Entry.isNx, getLsbD_entry _ _ (.inr rfl), getLsbD_pageFlags _ 63 (by decide)]
    simp

/-! ## What has been loaded so far -/

/-- The largest `virt_addr + mem_size`. -/
def imageSize (phs : List ProgramHeader) : Nat := phs.foldl (fun size ph => max size ph.stop) 0

theorem Loads.result (h : Loads A file root phs m size m' r) :
    r = phs.foldl (fun size ph => max size ph.stop) size := by
  induction h with
  | nil => rfl
  | cons _ _ ih => exact ih

theorem le_foldl_stop (phs : List ProgramHeader) (size : Nat) :
    size ≤ phs.foldl (fun size ph => max size ph.stop) size := by
  induction phs generalizing size with
  | nil => exact Nat.le_refl _
  | cons ph phs ih => exact Nat.le_trans (Nat.le_max_left ..) (ih _)

/-- It is an upper bound, and one of the ends. -/
theorem stop_le_imageSize (hph : ph ∈ phs) : ph.stop ≤ imageSize phs := by
  unfold imageSize
  generalize 0 = size
  induction phs generalizing size with
  | nil => cases hph
  | cons q phs ih =>
      rcases List.mem_cons.mp hph with rfl | hph
      · exact Nat.le_trans (Nat.le_max_right ..) (le_foldl_stop phs _)
      · exact ih hph _

theorem imageSize_mem (phs : List ProgramHeader) :
    imageSize phs = 0 ∨ ∃ ph ∈ phs, imageSize phs = ph.stop := by
  have hfold : ∀ (phs : List ProgramHeader) (size : Nat),
      phs.foldl (fun size ph => max size ph.stop) size = size ∨
        ∃ ph ∈ phs, phs.foldl (fun size ph => max size ph.stop) size = ph.stop := by
    intro phs
    induction phs with
    | nil => exact fun size => .inl rfl
    | cons ph phs ih =>
        intro size
        rcases ih (max size ph.stop) with heq | ⟨q, hq, heq⟩
        · rcases Nat.le_total size ph.stop with hle | hle
          · exact .inr ⟨ph, List.mem_cons_self, heq.trans (Nat.max_eq_right hle)⟩
          · exact .inl (heq.trans (Nat.max_eq_left hle))
        · exact .inr ⟨q, List.mem_cons_of_mem ph hq, heq⟩
  exact hfold phs 0

/-- The page of `v` has a byte of the segment. -/
def ProgramHeader.Overlaps (ph : ProgramHeader) (v : Nat) : Prop :=
  ∃ i < ph.memSize.toNat, v / pageSize = (ph.virtAddr.toNat + i) / pageSize

/-- The part of a segment that is in the file. -/
def ProgramHeader.InFile (ph : ProgramHeader) (v : Nat) : Prop :=
  ph.virtAddr.toNat ≤ v ∧ v < ph.virtAddr.toNat + ph.fileSize.toNat

instance (ph : ProgramHeader) (v : Nat) : Decidable (ph.InFile v) :=
  inferInstanceAs (Decidable (_ ∧ _))

/-- Memory up to `size`, after the segments `done`. -/
structure Built (file : List (BitVec 8)) (m : Mem) (root : Frame) (done : List ProgramHeader)
    (size : Nat) : Prop where
  bytes : ∀ ph ∈ done, ∀ v, ph.InFile v →
    ph.offset.toNat + (v - ph.virtAddr.toNat) < file.length ∧
    m.byte root v = file[ph.offset.toNat + (v - ph.virtAddr.toNat)]?
  zero : ∀ v, v < pageRoundUp size → (∀ ph ∈ done, ¬ph.InFile v) → m.byte root v = some 0
  pages : ∀ ph ∈ done, ∀ v, ph.Overlaps v → ∃ page, m.entryFor root v =
    some (Entry.new (physAddr page) (ph.pageFlags.union .user)).enable

theorem Placed.length (h : Placed A file m m' root size ph) :
    (ph.contents file).length = ph.fileSize.toNat := by
  rw [ProgramHeader.contents, List.length_take, List.length_drop]
  rcases Nat.eq_zero_or_pos ph.fileSize.toNat with hz | hpos
  · omega
  · have := h.inFile hpos
    omega

/-- What a segment does to the byte and the entry of an address. -/
theorem Placed.at (h : Placed A file m m' root size ph) {v : Nat} (hv : v < userEnd) :
    (ph.InFile v → m'.byte root v = file[ph.offset.toNat + (v - ph.virtAddr.toNat)]? ∧
      ph.offset.toNat + (v - ph.virtAddr.toNat) < file.length) ∧
    (pageRoundUp size ≤ v ∧ v < pageRoundUp ph.stop → (∃ page, m'.entryFor root v =
        some (Entry.new (physAddr page) (ph.pageFlags.union .user)).enable) ∧
      (¬ph.InFile v → m'.byte root v = some 0)) ∧
    (¬(pageRoundUp size ≤ v ∧ v < pageRoundUp ph.stop) → m'.entryFor root v = m.entryFor root v ∧
      (¬ph.InFile v → m'.byte root v = m.byte root v)) := by
  obtain ⟨m₁, l₁, hclear, hw⟩ := h.placed
  obtain ⟨hin, hout⟩ := hclear v hv
  have hent := hw.1.2.2 v hv
  have hbyte : m'.byte root v = if ph.InFile v then
      some ((ph.contents file).getD (v - ph.virtAddr.toNat) 0) else m₁.byte root v := by
    rw [hw.2 v hv, h.length]
    rfl
  refine ⟨fun hf => ?_, fun hnew => ⟨?_, fun hf => ?_⟩, fun hold => ⟨?_, fun hf => ?_⟩⟩
  · rw [if_pos hf] at hbyte
    have hi : v - ph.virtAddr.toNat < ph.fileSize.toNat := by
      have := hf.2
      have := hf.1
      omega
    have hfile := h.inFile (by omega)
    have hlt : ph.offset.toNat + (v - ph.virtAddr.toNat) < file.length := by omega
    refine ⟨?_, hlt⟩
    rw [hbyte, List.getD_eq_getElem?_getD, ProgramHeader.contents, List.getElem?_take_of_lt hi,
      List.getElem?_drop, List.getElem?_eq_getElem hlt]
    rfl
  · obtain ⟨⟨page, hpage⟩, -⟩ := hin hnew
    exact ⟨page, hent.trans hpage⟩
  · rw [if_neg hf] at hbyte
    exact hbyte.trans (hin hnew).2
  · exact hent.trans (hout hold).1
  · rw [if_neg hf] at hbyte
    exact hbyte.trans (hout hold).2

theorem Built.start : Built file m root [] 0 := by
  refine ⟨fun q hq => ?_, fun v hv => absurd hv (Nat.not_lt_zero v), fun q hq => ?_⟩
  · cases hq
  · cases hq

/-- **One more segment**, above all the others or empty. -/
theorem Built.step (hb : Built file m root done size) (hle : size ≤ userEnd)
    (hsize : 0 < ph.memSize.toNat → size ≤ ph.virtAddr.toNat)
    (hdone : ∀ q ∈ done, q.stop ≤ size ∧ q.fileSize.toNat ≤ q.memSize.toNat)
    (h : Placed A file m m' root size ph) :
    Built file m' root (done ++ [ph]) (max size ph.stop) := by
  have hround : 0 < ph.memSize.toNat → pageRoundUp size ≤ ph.virtAddr.toNat := by
    intro hpos
    have hmod := h.aligned
    have := hsize hpos
    simp only [pageRoundUp, pageSize] at hmod ⊢
    omega
  have htop := le_pageRoundUp ph.stop
  have hend := pageRoundUp_userEnd h.stop
  have hmax : pageRoundUp (max size ph.stop) ≤ pageRoundUp size ∨
      pageRoundUp (max size ph.stop) = pageRoundUp ph.stop := by
    rcases Nat.le_total size ph.stop with hle | hle
    · exact .inr (by rw [Nat.max_eq_right hle])
    · exact .inl (by rw [Nat.max_eq_left hle])
  have hlow : ∀ q ∈ done, ∀ v, q.InFile v → v < size := by
    intro q hq v hv
    obtain ⟨hstop, hfs⟩ := hdone q hq
    unfold ProgramHeader.stop at hstop
    have := hv.2
    omega
  have hstop : ph.stop = ph.virtAddr.toNat + ph.memSize.toNat := rfl
  have hsize' : size ≤ pageRoundUp size := le_pageRoundUp size
  have hsizes := h.sizes
  refine ⟨fun q hq v hv => ?_, fun v hv hno => ?_, fun q hq v hv => ?_⟩
  · rcases List.mem_append.mp hq with hq | hq
    · have hlt := hlow q hq v hv
      have hphv : ¬ph.InFile v := fun hf => by
        have hlo := hf.1
        have hhi := hf.2
        omega
      have hold := ((h.at (by omega : v < userEnd)).2.2 (by omega)).2 hphv
      rw [hold]
      exact hb.bytes q hq v hv
    · rw [List.mem_singleton.mp hq] at hv ⊢
      have hvend : v < userEnd := by
        have := hv.2
        have := h.stop
        omega
      obtain ⟨hbyte, hlt⟩ := (h.at hvend).1 hv
      exact ⟨hlt, hbyte⟩
  · have hvend : v < userEnd :=
      Nat.lt_of_lt_of_le hv (pageRoundUp_userEnd (Nat.max_le.mpr ⟨hle, h.stop⟩))
    have hph := hno ph (List.mem_append_right _ (List.mem_singleton.mpr rfl))
    by_cases hnew : pageRoundUp size ≤ v ∧ v < pageRoundUp ph.stop
    · exact ((h.at hvend).2.1 hnew).2 hph
    · rw [((h.at hvend).2.2 hnew).2 hph]
      exact hb.zero v (by omega) fun q hq => hno q (List.mem_append_left _ hq)
  · rcases List.mem_append.mp hq with hq | hq
    · have hlt : v < pageRoundUp size := by
        obtain ⟨i, hi, hpg⟩ := hv
        obtain ⟨hstop', -⟩ := hdone q hq
        unfold ProgramHeader.stop at hstop'
        have hmod := pageRoundUp_mod size
        simp only [pageSize] at hpg hmod
        omega
      have hvend := Nat.lt_of_lt_of_le hlt (pageRoundUp_userEnd hle)
      rw [((h.at hvend).2.2 (by omega)).1]
      exact hb.pages q hq v hv
    · rw [List.mem_singleton.mp hq] at hv ⊢
      obtain ⟨i, hi, hpg⟩ := hv
      have hmod := h.aligned
      have hround := hround (by omega)
      have hmod' := pageRoundUp_mod ph.stop
      have hnew : pageRoundUp size ≤ v ∧ v < pageRoundUp ph.stop := by
        simp only [pageSize] at hpg hmod hmod'
        omega
      exact ((h.at (by omega)).2.1 hnew).1

/-- Just the pages up to `size` are mapped. -/
def Filled (m : Mem) (root : Frame) (size : Nat) : Prop :=
  ∀ v, v < userEnd → ((∃ e, m.entryFor root v = some e) ↔ v < pageRoundUp size)

theorem pageRoundUp_max (a b : Nat) :
    pageRoundUp (max a b) = max (pageRoundUp a) (pageRoundUp b) := by
  rcases Nat.le_total a b with hle | hle
  · rw [Nat.max_eq_right hle, Nat.max_eq_right (pageRoundUp_mono hle)]
  · rw [Nat.max_eq_left hle, Nat.max_eq_left (pageRoundUp_mono hle)]

theorem Filled.placed (hf : Filled m root size) (h : Placed A file m m' root size ph) :
    Filled m' root (max size ph.stop) := by
  intro v hv
  obtain ⟨-, hnew, hold⟩ := h.at hv
  rw [pageRoundUp_max]
  by_cases hin : pageRoundUp size ≤ v ∧ v < pageRoundUp ph.stop
  · obtain ⟨⟨page, hpage⟩, -⟩ := hnew hin
    exact iff_of_true ⟨_, hpage⟩ (by omega)
  · rw [(hold hin).1, hf v hv]
    omega

theorem Loads.filled (h : Loads A file root phs m size m' r) (hf : Filled m root size) :
    Filled m' root r := by
  induction h with
  | nil => exact hf
  | cons hplaced _ ih => exact ih (hf.placed hplaced)

/-! ## The whole image -/

/-- An address of the segment. -/
def ProgramHeader.Covers (ph : ProgramHeader) (v : Nat) : Prop :=
  ph.virtAddr.toNat ≤ v ∧ v < ph.stop

/-- Segments in the order of their addresses that have no address in common. -/
def Ordered (phs : List ProgramHeader) : Prop :=
  phs.Pairwise fun a b => a.virtAddr.toNat ≤ b.virtAddr.toNat ∧ ∀ v, ¬(a.Covers v ∧ b.Covers v)

theorem Ordered.le (h : Ordered (done ++ ph :: phs)) {q : ProgramHeader} (hq : q ∈ done)
    (hpos : 0 < ph.memSize.toNat) : q.stop ≤ ph.virtAddr.toNat := by
  obtain ⟨hle, hapart⟩ := (List.pairwise_append.mp h).2.2 q hq ph List.mem_cons_self
  by_contra hlt
  have hcovers : ph.Covers ph.virtAddr.toNat := ⟨Nat.le_refl _, by
    unfold ProgramHeader.stop
    omega⟩
  exact hapart _ ⟨⟨hle, Nat.not_le.mp hlt⟩, hcovers⟩

theorem imageSize_append : imageSize (done ++ [ph]) = max (imageSize done) ph.stop := by
  rw [imageSize, List.foldl_append]
  rfl

theorem Loads.built (h : Loads A file root phs m size m' r) :
    ∀ {done : List ProgramHeader}, size = imageSize done → size ≤ userEnd → Ordered (done ++ phs) →
      (∀ q ∈ done, q.fileSize.toNat ≤ q.memSize.toNat) → Built file m root done size →
      r = imageSize (done ++ phs) ∧ Built file m' root (done ++ phs) r := by
  induction h with
  | nil =>
      intro done hsize _ _ _ hb
      rw [List.append_nil]
      exact ⟨hsize, hb⟩
  | cons hplaced _ ih =>
      rename_i ph phs m m₁ m' size r _
      intro done hsize hle hord hsizes hb
      subst hsize
      have hlow : 0 < ph.memSize.toNat → imageSize done ≤ ph.virtAddr.toNat := by
        intro hpos
        rcases imageSize_mem done with hz | ⟨q, hq, heq⟩
        · omega
        · rw [heq]
          exact hord.le hq hpos
      have hnext := hb.step hle hlow (fun q hq => ⟨stop_le_imageSize hq, hsizes q hq⟩) hplaced
      rw [show done ++ ph :: phs = (done ++ [ph]) ++ phs by simp] at hord ⊢
      refine ih imageSize_append.symm (Nat.max_le.mpr ⟨hle, hplaced.stop⟩) hord (fun q hq => ?_) hnext
      rcases List.mem_append.mp hq with hq | hq
      · exact hsizes q hq
      · rw [List.mem_singleton.mp hq]
        exact hplaced.sizes

/-- **The loader builds the image that the file describes**: its size is where
the last segment ends, below it there are the bytes of the file and zeros, and
every page of a segment allows what the segment says. -/
theorem loader_builds_image {entry : Nat} (h : OwnTable A m root l) (hfile : file.length < 2 ^ 64)
    (hord : Ordered (fileSegments file))
    (hload : loadImage root (fileReadi file fails) env m = .ok (entry, size) m') :
    size = imageSize (fileSegments file) ∧
    (∀ v < size,
      (∀ ph ∈ fileSegments file, ph.InFile v → ∃ b, m'.byte root v = some b ∧
        file[ph.offset.toNat + (v - ph.virtAddr.toNat)]? = some b) ∧
      ((∀ ph ∈ fileSegments file, ¬ph.InFile v) → m'.byte root v = some 0)) ∧
    ∀ ph ∈ fileSegments file, ∀ v, ph.Overlaps v → ∃ e, m'.entryFor root v = some e ∧
      e.isPresent = true ∧ e.isUser = true ∧ (e.isWrite = true ↔ ph.writable) ∧
      (e.isNx = false ↔ ph.executable) := by
  obtain ⟨-, hloads⟩ := (loadImage_spec hfile h).of_ok hload
  have hnone : ∀ q ∈ ([] : List ProgramHeader), q.fileSize.toNat ≤ q.memSize.toNat := by
    intro q hq
    cases hq
  obtain ⟨hsize, hb⟩ := hloads.built rfl (Nat.zero_le _) hord hnone Built.start
  refine ⟨hsize, fun v hv => ⟨fun ph hph hin => ?_, fun hno => ?_⟩, fun ph hph v hv => ?_⟩
  · obtain ⟨hlt, hbyte⟩ := hb.bytes ph hph v hin
    rw [List.getElem?_eq_getElem hlt] at hbyte ⊢
    exact ⟨_, hbyte, rfl⟩
  · exact hb.zero v (Nat.lt_of_lt_of_le hv (le_pageRoundUp _)) hno
  · obtain ⟨page, hpage⟩ := hb.pages ph hph v hv
    exact ⟨_, hpage, entry_allows page ph⟩

/-- A file with these headers in front of the data. -/
def elfFile (entry : Nat) (headers : List (List (BitVec 8))) (data : List (BitVec 8)) :
    List (BitVec 8) :=
  [0x7F, 0x45, 0x4C, 0x46, 2] ++ List.replicate 11 0 ++ [2, 0, 62, 0] ++ List.replicate 4 0 ++
    wordBytes entry ++ wordBytes elfHeaderSize ++ List.replicate 16 0 ++
    wordBytes headers.length ++ headers.flatten ++ data

/-- A program header of a loadable segment. -/
def phBytes (flags : Nat) (offset va fileSize memSize : Nat) : List (BitVec 8) :=
  (wordBytes 1).take 4 ++ (wordBytes flags).take 4 ++ wordBytes offset ++ wordBytes va ++
    wordBytes va ++ wordBytes fileSize ++ wordBytes memSize ++ wordBytes pageSize

/-- Four bytes of code and as much of zeros. -/
def tinyElf : List (BitVec 8) := elfFile 0 [phBytes 5 120 0 4 8] [1, 2, 3, 4]

/-- An empty table, and the memory it is in. -/
def newTable (pages : List Frame) : Option (Frame × Mem) :=
  match dupKern 0 .willing (Sys.boot pages).mem with
  | .ok (some root) m => some (root, m)
  | _ => none

theorem newTable_own {pages : List Frame} (hp : pages.Nodup) (h : newTable pages = some (root, m)) :
    ∃ A l, OwnTable A m root l ∧ ∀ v, v < userEnd → m.entryFor root v = none := by
  obtain ⟨l, hchain, hnodup⟩ := (Sys.boot_ok hp).free
  have hpool : Pool {g | g ∈ l} (Sys.boot pages).mem l := ⟨hchain, hnodup, fun _ hg => hg⟩
  have hspec : Sat (dupKern 0 .willing (Sys.boot pages).mem) _ (fun _ _ => True) (fun _ => True) :=
    dupKern_spec hpool
  unfold newTable at h
  split at h
  · next hok =>
    cases h
    obtain ⟨l', -, hown, -, hempty⟩ := hspec.of_ok hok
    exact ⟨_, l', hown, hempty⟩
  · cases h

theorem loader_builds_tiny : ∃ root m m',
    loadImage root (fileReadi tinyElf fun _ _ => none) .willing m = .ok (0, 8) m' ∧
    imageSize (fileSegments tinyElf) = 8 := by
  have hrun : ((newTable [0, 1, 2, 3, 4, 5, 6, 7]).bind fun r =>
      (loadImage r.1 (fileReadi tinyElf fun _ _ => none) .willing r.2).result?.map Prod.fst) =
        some (0, 8) := by decide +kernel
  obtain ⟨⟨root, m⟩, hnew, hload⟩ := Option.bind_eq_some_iff.mp hrun
  obtain ⟨A, l, hown, -⟩ := newTable_own (by decide) hnew
  have hord : Ordered (fileSegments tinyElf) := by
    have hone : (fileSegments tinyElf).length = 1 := by decide +kernel
    obtain ⟨ph, hph⟩ := List.length_eq_one_iff.mp hone
    rw [hph]
    exact List.pairwise_singleton _ _
  obtain ⟨r, m', hok, rfl⟩ := Outcome.ok_of_map hload
  exact ⟨root, m, m', hok, (loader_builds_image hown (by decide +kernel) hord hok).1.symm⟩

end Rxv64.Vm
