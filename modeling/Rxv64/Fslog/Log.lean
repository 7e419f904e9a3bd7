import Mathlib.Data.List.Dedup
import Rxv64.Disk

/-!
# Fslog.Log — the redo log's header

`struct Log` of `kernel/src/fslog.rs` and its methods: the list of logged
block numbers, the deduplicating `insert`, the two capacity tests (`isFull`
on the way in, the corrupt-log check on the way back) and the header block
that `write` produces and `read` parses.

The array `blocks` together with `len` is the list `header` (the source's
`header()`, `&self.blocks[..self.len]`); slots past `len` are never read.
-/

namespace Rxv64.Fslog

open Layout

/-- `struct Log`. The header never outgrows the array that backs it. -/
structure Log where
  dev : UInt32
  start : UInt64
  size : UInt64
  header : List UInt64
  fits : header.length ≤ logSize
  deriving DecidableEq

namespace Log

def new : Log := ⟨0, 0, 0, [], by simp⟩

/-- `set_metadata`: the log area is `size` blocks from `start` on. -/
def setMetadata (l : Log) (dev : UInt32) (start size : UInt64) : Log :=
  { l with dev, start, size }

def len (l : Log) : Nat := l.header.length

/-- `insert`: a block already in the header is not listed twice. Indexing
the array at `len = LOGSIZE` is a bounds panic. -/
def insert (l : Log) (blockno : UInt64) : Except String Log :=
  if blockno ∈ l.header then .ok l
  else if h : l.header.length < logSize then
    .ok { l with
      header := l.header ++ [blockno]
      fits := by simp only [List.length_append, List.length_singleton]; omega }
  else .error "index out of bounds"

def clear (l : Log) : Log := { l with header := [], fits := by simp }

def isEmpty (l : Log) : Bool := l.header.isEmpty

/-- `is_full`; `size - 1` is `usize` arithmetic. -/
def isFull (l : Log) : Bool :=
  decide ((l.size - 1).toNat ≤ l.len ∨ logSize ≤ l.len)

/-- The block numbers a header block lists: word `0` is their count. -/
def listed (hb : Block) : List UInt64 :=
  (List.range (hb.word 0).toNat).map fun i => hb.word (i + 1)

/-- `read`: the contents of the header block replace the header. -/
def read (l : Log) (hb : Block) : Except String Log :=
  let len := (hb.word 0).toNat
  if logSize ≤ len ∨ (l.size - 1).toNat ≤ len then
    .error ("corrupt log too large: " ++ toString len)
  else (listed hb).foldlM insert l.clear

/-- `write`: the header block after the count and the list are stored. -/
def write (l : Log) (hb : Block) : Block :=
  (hb.setWord 0 (UInt64.ofNat l.len)).setWords 1 l.header

@[simp] theorem clear_header (l : Log) : l.clear.header = [] := rfl
@[simp] theorem clear_start (l : Log) : l.clear.start = l.start := rfl
@[simp] theorem clear_size (l : Log) : l.clear.size = l.size := rfl

/-! ## The deduplicating insert -/

/-- A new block goes to the end of the header; everything else is kept. -/
theorem insert_of_not_mem {l : Log} {b : UInt64} (h : b ∉ l.header)
    (hlen : l.len < logSize) :
    ∃ l', l.insert b = .ok l' ∧ l'.header = l.header ++ [b] ∧
      l'.dev = l.dev ∧ l'.start = l.start ∧ l'.size = l.size := by
  have hl : l.header.length < logSize := hlen
  refine ⟨{ l with
    header := l.header ++ [b]
    fits := by simp only [List.length_append, List.length_singleton]; omega },
    ?_, rfl, rfl, rfl, rfl⟩
  rw [insert, if_neg h, dif_pos hl]

/-- What a successful insert did. -/
theorem insert_cases {l l' : Log} {b : UInt64} (h : l.insert b = .ok l') :
    (b ∈ l.header ∧ l' = l) ∨
      (b ∉ l.header ∧ l.len < logSize ∧ l'.header = l.header ++ [b] ∧
        l'.dev = l.dev ∧ l'.start = l.start ∧ l'.size = l.size) := by
  unfold insert at h
  split at h
  · next hm => exact .inl ⟨hm, (Except.ok.inj h).symm⟩
  · next hm =>
      split at h
      · next hl =>
          cases h
          exact .inr ⟨hm, hl, rfl, rfl, rfl, rfl⟩
      · cases h

/-- Inserting a duplicate-free list that avoids the header appends it. -/
theorem foldlM_insert (l : Log) (bs : List UInt64) (hnd : (l.header ++ bs).Nodup)
    (hlen : (l.header ++ bs).length ≤ logSize) :
    ∃ l', bs.foldlM insert l = .ok l' ∧ l'.header = l.header ++ bs ∧
      l'.dev = l.dev ∧ l'.start = l.start ∧ l'.size = l.size := by
  induction bs generalizing l with
  | nil => exact ⟨l, rfl, by simp, rfl, rfl, rfl⟩
  | cons b bs ih =>
      have hb : b ∉ l.header := fun hm =>
        List.disjoint_of_nodup_append hnd hm (by simp)
      simp only [List.length_append, List.length_cons] at hlen
      obtain ⟨l₁, h₁, hh₁, hd₁, hs₁, hz₁⟩ :=
        insert_of_not_mem hb (by simp only [len]; omega)
      obtain ⟨l', h', hh', hd', hs', hz'⟩ := ih l₁
        (by rw [hh₁]; simpa using hnd)
        (by rw [hh₁]; simp only [List.length_append, List.length_cons,
              List.length_nil]; omega)
      refine ⟨l', ?_, ?_, hd'.trans hd₁, hs'.trans hs₁, hz'.trans hz₁⟩
      · rw [List.foldlM_cons, h₁]
        exact h'
      · rw [hh', hh₁]
        simp

/-! ## The header block -/

theorem word_write_zero (l : Log) (hb : Block) :
    ((l.write hb).word 0).toNat = l.len := by
  have hl : l.header.length ≤ logSize := l.fits
  have h64 : l.len < 2 ^ 64 := by
    simp only [len, logSize, maxOpBlocks] at hl ⊢
    omega
  rw [write, Block.word_setWords_lt _ _ (by omega),
    Block.word_setWord_self _ _ (by omega)]
  simp only [UInt64.toNat_ofNat', Nat.mod_eq_of_lt h64]

/-- A written header block lists exactly the log's header. -/
theorem listed_write (l : Log) (hb : Block) : listed (l.write hb) = l.header := by
  have hl : l.header.length ≤ logSize := l.fits
  apply List.ext_getElem
  · simp [listed, word_write_zero, len]
  · intro i h1 h2
    have hw := Block.word_setWords (hb.setWord 0 (UInt64.ofNat l.len)) l.header
      (k := 1) (i := i) h2 (by simp only [maxOpBlocks, logSize] at hl; omega)
    simp only [listed, List.getElem_map, List.getElem_range]
    rw [Nat.add_comm i 1, write, hw]
    simp [h2]

/-- Storing the header of a cleared log leaves an empty list behind. -/
theorem listed_write_clear (l : Log) (hb : Block) : listed (l.clear.write hb) = [] :=
  listed_write l.clear hb

theorem listed_length (hb : Block) : (listed hb).length = (hb.word 0).toNat := by
  simp [listed]

/-- The reader accepts a header block whose list is short enough and free of
duplicates, and restores that list. -/
theorem read_listed (r : Log) (hb : Block) (hnd : (listed hb).Nodup)
    (h1 : (listed hb).length < logSize) (h2 : (listed hb).length < (r.size - 1).toNat) :
    ∃ l', r.read hb = .ok l' ∧ l'.header = listed hb ∧
      l'.dev = r.dev ∧ l'.start = r.start ∧ l'.size = r.size := by
  rw [listed_length] at h1 h2
  obtain ⟨l', hfold, hh, hdev, hst, hsz⟩ := foldlM_insert r.clear (listed hb)
    (by rwa [clear_header, List.nil_append])
    (by rw [clear_header, List.nil_append, listed_length]; omega)
  rw [clear_header, List.nil_append] at hh
  refine ⟨l', ?_, hh, hdev, hst, hsz⟩
  rw [read, if_neg (by omega), hfold]

/-- The reader accepts a written header that is short enough. -/
theorem read_write {l r : Log} (hb : Block) (hnd : l.header.Nodup)
    (h1 : l.len < logSize) (h2 : l.len < (r.size - 1).toNat) :
    ∃ l', r.read (l.write hb) = .ok l' ∧ l'.header = l.header := by
  obtain ⟨l', hread, hh, -⟩ := read_listed r (l.write hb)
    (by rwa [listed_write]) (by rwa [listed_write]) (by rwa [listed_write])
  exact ⟨l', hread, by rw [hh, listed_write]⟩

/-- The reader refuses every other written header. -/
theorem read_write_refused {l r : Log} (hb : Block)
    (h : ¬ (l.len < logSize ∧ l.len < (r.size - 1).toNat)) :
    r.read (l.write hb) = .error ("corrupt log too large: " ++ toString l.len) := by
  simp only [read, word_write_zero]
  rw [if_pos (by omega)]

end Log

/-! ## Logged writes -/

/-- `struct LogState`, the part under the log lock. -/
structure LogState where
  outstanding : Nat
  committing : Bool
  deriving DecidableEq

/-- `fslog::write`: record a modified block in the running transaction.
The capacity test comes before the insert, so it also refuses a block that
is already in the log. -/
def write (state : LogState) (log : Log) (blockno : UInt64) : Except String Log :=
  if log.isFull then .error "transaction too big"
  else if state.outstanding < 1 then .error "logged write outside of transaction"
  else log.insert blockno

/-- A sequence of logged writes, each under the lock state it meets. -/
def writes : Log → List (LogState × UInt64) → Except String Log
  | log, [] => .ok log
  | log, (state, blockno) :: rest =>
      match write state log blockno with
      | .ok log' => writes log' rest
      | .error e => .error e

/-- What a logged write that did not panic did. -/
theorem write_cases {state : LogState} {log log' : Log} {b : UInt64}
    (h : write state log b = .ok log') :
    log.len < (log.size - 1).toNat ∧ log.len < logSize ∧ 1 ≤ state.outstanding ∧
      log.insert b = .ok log' := by
  unfold write at h
  split at h
  · cases h
  · next hf =>
      split at h
      · cases h
      · simp only [Log.isFull, decide_eq_true_eq, not_or, not_le] at hf
        exact ⟨hf.1, hf.2, by omega, h⟩

/-- The header after a panic-free sequence: each block number once, and as
many of them as the sequence has distinct ones. -/
theorem writes_header {log log' : Log} {calls : List (LogState × UInt64)}
    (hnd : log.header.Nodup) (h : writes log calls = .ok log') :
    log'.header.Nodup ∧ log'.size = log.size ∧
      ∀ b, b ∈ log'.header ↔ b ∈ log.header ∨ b ∈ calls.map Prod.snd := by
  induction calls generalizing log with
  | nil =>
      cases h
      exact ⟨hnd, rfl, by simp⟩
  | cons c calls ih =>
      obtain ⟨state, b⟩ := c
      rw [writes] at h
      cases hw : write state log b with
      | error e => rw [hw] at h; cases h
      | ok log₁ =>
          rw [hw] at h
          obtain ⟨-, -, -, hins⟩ := write_cases hw
          rcases Log.insert_cases hins with ⟨hm, rfl⟩ | ⟨hm, -, hh, -, -, hz⟩
          · obtain ⟨h1, h2, h3⟩ := ih hnd h
            refine ⟨h1, h2, fun x => ?_⟩
            rw [h3 x, List.map_cons, List.mem_cons]
            constructor
            · rintro (hx | hx)
              · exact .inl hx
              · exact .inr (.inr hx)
            · rintro (hx | rfl | hx)
              · exact .inl hx
              · exact .inl hm
              · exact .inr hx
          · have hnd₁ : log₁.header.Nodup := by
              rw [hh]
              exact List.nodup_append.mpr ⟨hnd, by simp, by
                rintro x hx y hy rfl
                rw [List.mem_singleton] at hy
                exact hm (hy ▸ hx)⟩
            obtain ⟨h1, h2, h3⟩ := ih hnd₁ h
            refine ⟨h1, h2.trans hz, fun x => ?_⟩
            rw [h3 x, hh, List.map_cons, List.mem_append, List.mem_singleton,
              List.mem_cons, or_assoc]

theorem writes_len {log log' : Log} {calls : List (LogState × UInt64)}
    (hempty : log.header = []) (h : writes log calls = .ok log') :
    log'.len = (calls.map Prod.snd).dedup.length := by
  obtain ⟨hnd, -, hmem⟩ := writes_header (by simp [hempty]) h
  apply List.Perm.length_eq
  rw [List.perm_ext_iff_of_nodup hnd (List.nodup_dedup _)]
  intro b
  rw [hmem b, List.mem_dedup, hempty]
  simp

/-- Distinct new blocks are logged without a panic while they fit under both
of `isFull`'s limits. -/
theorem writes_of_nodup (state : LogState) (hst : 1 ≤ state.outstanding) (log : Log)
    (bs : List UInt64) (hnd : (log.header ++ bs).Nodup)
    (h1 : (log.header ++ bs).length ≤ (log.size - 1).toNat)
    (h2 : (log.header ++ bs).length ≤ logSize) :
    ∃ log', writes log (bs.map fun b => (state, b)) = .ok log' := by
  induction bs generalizing log with
  | nil => exact ⟨log, rfl⟩
  | cons b bs ih =>
      have hb : b ∉ log.header := fun hm =>
        List.disjoint_of_nodup_append hnd hm (by simp)
      simp only [List.length_append, List.length_cons] at h1 h2
      have hfull : log.isFull = false := by
        apply decide_eq_false
        simp only [Log.len]
        omega
      obtain ⟨log₁, hins, hh, -, -, hz⟩ :=
        Log.insert_of_not_mem hb (by simp only [Log.len]; omega)
      have hw : write state log b = .ok log₁ := by
        rw [write, hfull, if_neg (by simp), if_neg (by omega), hins]
      obtain ⟨log', h'⟩ := ih log₁ (by rw [hh]; simpa using hnd)
        (by rw [hh, hz]; simp only [List.length_append, List.length_cons,
              List.length_nil]; omega)
        (by rw [hh]; simp only [List.length_append, List.length_cons,
              List.length_nil]; omega)
      exact ⟨log', by rw [List.map_cons, writes, hw]; exact h'⟩

/-- **Reading back a committed header.** For every log area, every
sequence of logged writes that does not panic and whatever the header block
held before, the reader that recovery runs accepts the header block that
the commit wrote, and restores the same block numbers in the same order,
exactly when fewer than `LOGSIZE` and fewer than `nlog - 1` distinct blocks
were logged. The writer's own limit is one block higher. -/
theorem header_read_back_iff (dev : UInt32) (start nlog : UInt64) (hb : Block)
    (calls : List (LogState × UInt64)) (log : Log) (hnlog : 2 ≤ nlog.toNat)
    (hwrites : writes (Log.new.setMetadata dev start nlog) calls = .ok log) :
    (∃ restored, (Log.new.setMetadata dev start nlog).read (log.write hb) = .ok restored ∧
        restored.header = log.header) ↔
      (calls.map Prod.snd).dedup.length < logSize ∧
        (calls.map Prod.snd).dedup.length < nlog.toNat - 1 := by
  obtain ⟨hnd, -, -⟩ := writes_header (by simp [Log.new, Log.setMetadata]) hwrites
  have hlen := writes_len rfl hwrites
  have hsub : (nlog - 1).toNat = nlog.toNat - 1 := by
    rw [UInt64.toNat_sub_of_le]
    · rfl
    · rw [UInt64.le_iff_toNat_le]
      simpa using Nat.le_of_succ_le hnlog
  rw [← hlen, ← hsub]
  constructor
  · rintro ⟨restored, hread, -⟩
    by_contra hlong
    rw [Log.read_write_refused hb hlong] at hread
    cases hread
  · rintro ⟨h1, h2⟩
    exact Log.read_write hb hnd h1 h2

/-- One block logged in the area that `mkfs` lays out is read back. -/
theorem header_read_back_one :
    ∃ log restored : Log,
      writes (Log.new.setMetadata 1 2 511) [(⟨1, false⟩, 600)] = .ok log ∧
      (Log.new.setMetadata 1 2 511).read (log.write Block.zero) = .ok restored ∧
      restored.header = log.header := by
  obtain ⟨log, hlog⟩ := writes_of_nodup ⟨1, false⟩ (by decide)
    (Log.new.setMetadata 1 2 511) [600] (by decide) (by decide) (by decide)
  obtain ⟨restored, hread, hh⟩ := (header_read_back_iff 1 2 511 Block.zero
    [(⟨1, false⟩, 600)] log (by decide) hlog).mpr (by decide)
  exact ⟨log, restored, hlog, hread, hh⟩

/-- The blocks `600, 601, ..., 600 + n - 1`. -/
def blocksFrom600 (n : Nat) : List UInt64 :=
  (List.range n).map fun i => UInt64.ofNat (600 + i)

theorem blocksFrom600_nodup {n : Nat} (h : n ≤ 511) : (blocksFrom600 n).Nodup := by
  refine List.Nodup.map_on ?_ List.nodup_range
  intro i hi j hj hij
  rw [List.mem_range] at hi hj
  have := congrArg UInt64.toNat hij
  simp only [UInt64.toNat_ofNat'] at this
  omega

/-- The log area of `mkfs` takes `LOGSIZE - 1 = 510` blocks without a panic,
and the header block they leave is refused by recovery. -/
theorem header_read_back_fails :
    ∃ log : Log,
      writes (Log.new.setMetadata 1 2 511)
        ((blocksFrom600 510).map fun b => (⟨1, false⟩, b)) = .ok log ∧
      ¬ ∃ restored, (Log.new.setMetadata 1 2 511).read (log.write Block.zero) = .ok restored ∧
        restored.header = log.header := by
  have hlen : (blocksFrom600 510).length = 510 := by simp [blocksFrom600]
  have hnil : (Log.new.setMetadata 1 2 511).header ++ blocksFrom600 510 = blocksFrom600 510 :=
    List.nil_append _
  obtain ⟨log, hlog⟩ := writes_of_nodup ⟨1, false⟩ (by decide)
    (Log.new.setMetadata 1 2 511) (blocksFrom600 510)
    (by rw [hnil]; exact blocksFrom600_nodup (by decide))
    (by rw [hnil, hlen]; decide) (by rw [hnil, hlen]; decide)
  refine ⟨log, hlog, ?_⟩
  have hl : log.len = _ := writes_len rfl hlog
  have hsnd : ((blocksFrom600 510).map fun b => ((⟨1, false⟩ : LogState), b)).map Prod.snd
      = blocksFrom600 510 := by
    rw [List.map_map]
    exact List.map_id _
  rw [hsnd, (blocksFrom600_nodup (by decide)).dedup, hlen] at hl
  rintro ⟨restored, hread, -⟩
  rw [Log.read_write_refused (l := log) Block.zero
    (r := Log.new.setMetadata 1 2 511) (by rw [hl]; decide)] at hread
  cases hread

end Rxv64.Fslog
