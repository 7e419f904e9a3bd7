import Rxv64.Lib.Writes
import Rxv64.Fslog.Log

/-!
# Fslog.Crash — the commit and the recovery as sequences of block writes

`op::commit` and `init::recover` of `kernel/src/fslog.rs`, run against a
buffer cache in front of a disk. `Io` carries what `bio::with_block` shows
for each block together with the block writes issued so far, in program
order; a machine that stops between two of them leaves a prefix on the
disk, and after a restart the cache shows what the disk holds.
-/

namespace Rxv64.Fslog

open Layout Writes

/-- The buffer cache as its users see it, and the writes that `Buf::write`
has sent to the disk. -/
structure Io where
  view : Blocks
  writes : List (BlockNo × Block)

namespace Io

/-- Overwrite a block's buffer and write it through. -/
def write (io : Io) (blockno : BlockNo) (data : Block) : Io :=
  { view := Function.update io.view blockno data
    writes := io.writes ++ [(blockno, data)] }

/-- After a restart nothing is cached. -/
def boot (disk : Blocks) : Io := ⟨disk, []⟩

/-- Several writes, one after the other. -/
def issue (io : Io) (ws : List (BlockNo × Block)) : Io :=
  { view := apply ws io.view, writes := io.writes ++ ws }

theorem issue_nil (io : Io) : io.issue [] = io := by
  simp [issue]

theorem issue_issue (io : Io) (ws vs : List (BlockNo × Block)) :
    (io.issue ws).issue vs = io.issue (ws ++ vs) := by
  simp [issue, apply_append]

theorem write_eq_issue (io : Io) (b : BlockNo) (data : Block) :
    io.write b data = io.issue [(b, data)] := rfl

end Io

namespace Log

/-- The log block that holds the copy of the `tail`-th listed block. -/
def slot (l : Log) (tail : Nat) : BlockNo := l.start + UInt64.ofNat tail + 1

/-- The loop of `sync`: copy each listed block from the cache to its slot. -/
def syncFrom (l : Log) : Nat → List BlockNo → Io → Io
  | _, [], io => io
  | tail, blockno :: rest, io =>
      l.syncFrom (tail + 1) rest (io.write (l.slot tail) (io.view blockno))

def sync (l : Log) (io : Io) : Io := l.syncFrom 0 l.header io

/-- `write`, on the header block. -/
def writeHeader (l : Log) (io : Io) : Io := io.write l.start (l.write (io.view l.start))

/-- The loop of `commit`: copy each slot to the block it belongs to. -/
def commitFrom (l : Log) : Nat → List BlockNo → Io → Io
  | _, [], io => io
  | tail, blockno :: rest, io =>
      l.commitFrom (tail + 1) rest (io.write blockno (io.view (l.slot tail)))

def commit (l : Log) (io : Io) : Io := l.commitFrom 0 l.header io

end Log

/-- `op::commit`. -/
def opCommit (l : Log) (io : Io) : Log × Io :=
  if l.isEmpty then (l, io)
  else
    let io := l.sync io
    let io := l.writeHeader io
    let io := l.commit io
    let l := l.clear
    (l, l.writeHeader io)

/-- `init::recover`. -/
def recover (l : Log) (io : Io) : Except String (Log × Io) :=
  match l.read (io.view l.start) with
  | .error e => .error e
  | .ok l =>
      let io := l.commit io
      let l := l.clear
      .ok (l, l.writeHeader io)

/-- `fslog::init`: set the log area up and recover. -/
def init (dev : UInt32) (start nlog : UInt64) (io : Io) : Except String (Log × Io) :=
  recover (Log.new.setMetadata dev start nlog) io

/-- The disk when `op::commit` is stopped after `n` block writes. -/
def commitCut (l : Log) (view disk : Blocks) (n : Nat) : Blocks :=
  apply (((opCommit l ⟨view, []⟩).2.writes).take n) disk

/-- A restart whose recovery is stopped after `m` block writes; `none`
lets it run to its end. -/
def initCut (dev : UInt32) (start nlog : UInt64) (m : Option Nat) (disk : Blocks) :
    Except String Blocks :=
  match init dev start nlog (Io.boot disk) with
  | .error e => .error e
  | .ok (_, io) =>
      .ok (apply (match m with | some m => io.writes.take m | none => io.writes) disk)

/-- Any number of restarts that are cut short, then one that completes. -/
def restarts (dev : UInt32) (start nlog : UInt64) : List Nat → Blocks → Except String Blocks
  | [], disk => initCut dev start nlog none disk
  | m :: ms, disk =>
      match initCut dev start nlog (some m) disk with
      | .error e => .error e
      | .ok disk' => restarts dev start nlog ms disk'

/-! ## The log area -/

/-- Block numbers of the log area `[start, start + size)`. -/
def Log.InArea (l : Log) (b : BlockNo) : Prop :=
  l.start.toNat ≤ b.toNat ∧ b.toNat < l.start.toNat + l.size.toNat

instance (l : Log) (b : BlockNo) : Decidable (l.InArea b) :=
  inferInstanceAs (Decidable (_ ∧ _))

/-- A transaction that fits its log area: the area is a range of block
numbers, and the listed blocks are distinct, outside of it, and few enough
for the header to be read back. -/
structure Log.Loaded (l : Log) : Prop where
  area : l.start.toNat + l.size.toNat ≤ 2 ^ 64
  nodup : l.header.Nodup
  outside : ∀ b ∈ l.header, ¬ l.InArea b
  small : l.len < logSize
  room : l.len < l.size.toNat - 1

namespace Log

variable {l : Log}

theorem slot_toNat (harea : l.start.toNat + l.size.toNat ≤ 2 ^ 64) {k : Nat}
    (hk : k + 1 < l.size.toNat) : (l.slot k).toNat = l.start.toNat + k + 1 := by
  simp only [slot, UInt64.toNat_add, UInt64.toNat_ofNat', UInt64.toNat_one]
  omega

theorem slot_inArea (harea : l.start.toNat + l.size.toNat ≤ 2 ^ 64) {k : Nat}
    (hk : k + 1 < l.size.toNat) : l.InArea (l.slot k) := by
  rw [InArea, slot_toNat harea hk]
  omega

theorem slot_ne_start (harea : l.start.toNat + l.size.toNat ≤ 2 ^ 64) {k : Nat}
    (hk : k + 1 < l.size.toNat) : l.slot k ≠ l.start := by
  intro heq
  have := slot_toNat harea hk
  rw [heq] at this
  omega

theorem slot_inj (harea : l.start.toNat + l.size.toNat ≤ 2 ^ 64) {i j : Nat}
    (hi : i + 1 < l.size.toNat) (hj : j + 1 < l.size.toNat) (heq : l.slot i = l.slot j) :
    i = j := by
  have h1 := slot_toNat harea hi
  have h2 := slot_toNat harea hj
  rw [heq] at h1
  omega

end Log

namespace Log.Loaded

variable {l : Log}

theorem slot_inArea (h : l.Loaded) {k : Nat} (hk : k < l.len) : l.InArea (l.slot k) :=
  Log.slot_inArea h.area (by have := h.room; omega)

theorem start_inArea (h : l.Loaded) : l.InArea l.start := by
  have := h.room
  simp only [Log.InArea]
  omega

theorem slot_ne_start (h : l.Loaded) {k : Nat} (hk : k < l.len) : l.slot k ≠ l.start :=
  Log.slot_ne_start h.area (by have := h.room; omega)

theorem slot_inj (h : l.Loaded) {i j : Nat} (hi : i < l.len) (hj : j < l.len)
    (heq : l.slot i = l.slot j) : i = j := by
  have := h.room
  exact Log.slot_inj h.area (by omega) (by omega) heq

theorem size_sub_one (h : l.Loaded) : (l.size - 1).toNat = l.size.toNat - 1 := by
  have := h.room
  rw [UInt64.toNat_sub_of_le]
  · rfl
  · rw [UInt64.le_iff_toNat_le, UInt64.toNat_one]
    omega

theorem ne_slot (h : l.Loaded) {b : BlockNo} (hb : b ∈ l.header) {k : Nat} (hk : k < l.len) :
    b ≠ l.slot k := by
  rintro rfl
  exact h.outside _ hb (h.slot_inArea hk)

theorem ne_start (h : l.Loaded) {b : BlockNo} (hb : b ∈ l.header) : b ≠ l.start := by
  rintro rfl
  exact h.outside _ hb h.start_inArea

end Log.Loaded

/-! ## The writes of the two copy loops -/

namespace Log

/-- What `sync` writes: the cached contents of each listed block. -/
def syncWrites (l : Log) (view : Blocks) : List (BlockNo × Block) :=
  (l.header.zipIdx 0).map fun p => (l.slot p.2, view p.1)

/-- What `commit` writes: each slot's contents, to the block listed there. -/
def commitWrites (l : Log) (view : Blocks) : List (BlockNo × Block) :=
  (l.header.zipIdx 0).map fun p => (p.1, view (l.slot p.2))

variable {l : Log}

/-- Slots and listed blocks never meet, so copying into one slot does not
change what the later iterations read. -/
theorem syncFrom_eq (hl : l.Loaded) {tail : Nat} {bs : List BlockNo}
    (hsub : ∀ b ∈ bs, b ∈ l.header) (hlen : tail + bs.length ≤ l.len) (io : Io) :
    l.syncFrom tail bs io =
      io.issue ((bs.zipIdx tail).map fun p => (l.slot p.2, io.view p.1)) := by
  induction bs generalizing tail io with
  | nil => exact (Io.issue_nil io).symm
  | cons b bs ih =>
      simp only [List.length_cons] at hlen
      rw [syncFrom, ih (fun x hx => hsub x (by simp [hx])) (by omega),
        Io.write_eq_issue, Io.issue_issue]
      congr 1
      simp only [List.zipIdx_cons, List.map_cons, List.singleton_append]
      congr 1
      apply List.map_congr_left
      rintro ⟨x, k⟩ hp
      have hx : x ∈ l.header := hsub x (by simp [List.fst_mem_of_mem_zipIdx hp])
      have hne := hl.ne_slot hx (show tail < l.len by omega)
      simp only [Io.issue, apply_cons, apply_nil, Function.update_of_ne hne]

theorem sync_eq (hl : l.Loaded) (io : Io) : l.sync io = io.issue (l.syncWrites io.view) :=
  syncFrom_eq hl (fun _ h => h) (by simp [len]) io

theorem commitFrom_eq (hl : l.Loaded) {tail : Nat} {bs : List BlockNo}
    (hsub : ∀ b ∈ bs, b ∈ l.header) (hlen : tail + bs.length ≤ l.len) (io : Io) :
    l.commitFrom tail bs io =
      io.issue ((bs.zipIdx tail).map fun p => (p.1, io.view (l.slot p.2))) := by
  induction bs generalizing tail io with
  | nil => exact (Io.issue_nil io).symm
  | cons b bs ih =>
      simp only [List.length_cons] at hlen
      rw [commitFrom, ih (fun x hx => hsub x (by simp [hx])) (by omega),
        Io.write_eq_issue, Io.issue_issue]
      congr 1
      simp only [List.zipIdx_cons, List.map_cons, List.singleton_append]
      congr 1
      apply List.map_congr_left
      rintro ⟨x, k⟩ hp
      have hk : k < tail + 1 + bs.length := List.snd_lt_add_of_mem_zipIdx hp
      have hne := hl.ne_slot (hsub b (by simp)) (show k < l.len by omega)
      simp only [Io.issue, apply_cons, apply_nil, Function.update_of_ne hne.symm]

theorem commit_eq (hl : l.Loaded) (io : Io) :
    l.commit io = io.issue (l.commitWrites io.view) :=
  commitFrom_eq hl (fun _ h => h) (by simp [len]) io

theorem commitWrites_keys (l : Log) (view : Blocks) :
    (l.commitWrites view).map Prod.fst = l.header := by
  simp [commitWrites, List.map_map, Function.comp_def, List.zipIdx_map_fst]

theorem mem_syncWrites {view : Blocks} {w : BlockNo × Block} (h : w ∈ l.syncWrites view) :
    ∃ k, k < l.len ∧ w.1 = l.slot k := by
  obtain ⟨⟨b, k⟩, hp, rfl⟩ := List.mem_map.mp h
  exact ⟨k, by simpa [len] using List.snd_lt_of_mem_zipIdx hp, rfl⟩

theorem syncWrites_keys (l : Log) (view : Blocks) :
    (l.syncWrites view).map Prod.fst = (List.range' 0 l.len).map l.slot := by
  rw [syncWrites, List.map_map, len, ← List.zipIdx_map_snd 0 l.header, List.map_map]
  rfl

theorem syncWrites_keys_nodup (hl : l.Loaded) (view : Blocks) :
    ((l.syncWrites view).map Prod.fst).Nodup := by
  rw [syncWrites_keys]
  refine List.Nodup.map_on ?_ List.nodup_range'
  intro i hi j hj heq
  simp only [List.mem_range'_1] at hi hj
  exact hl.slot_inj (by omega) (by omega) heq

/-- After `sync` the slot of each listed block holds its cached contents. -/
theorem apply_syncWrites (hl : l.Loaded) (view d : Blocks) {b : BlockNo} {k : Nat}
    (hk : (b, k) ∈ l.header.zipIdx 0) : apply (l.syncWrites view) d (l.slot k) = view b := by
  apply apply_of_mem (syncWrites_keys_nodup hl view)
  exact List.mem_map.mpr ⟨(b, k), hk, rfl⟩

end Log

/-! ## Where a stopped machine leaves the disk -/

/-- The log is empty, and outside the log area the disk is `f`. -/
structure Settled (l : Log) (f d : Blocks) : Prop where
  empty : Log.listed (d l.start) = []
  home : ∀ b, ¬ l.InArea b → d b = f b

/-- The header lists the transaction and the slots hold its contents; the
listed blocks themselves may hold anything. -/
structure Committed (l : Log) (view disk d : Blocks) : Prop where
  listed : Log.listed (d l.start) = l.header
  slots : ∀ b k, (b, k) ∈ l.header.zipIdx 0 → d (l.slot k) = view b
  rest : ∀ b, ¬ l.InArea b → b ∉ l.header → d b = disk b

/-- The blocks as logged, every other block as before. -/
def installed (l : Log) (view disk : Blocks) : Blocks :=
  fun b => if b ∈ l.header then view b else disk b

section Recovery

variable {l : Log}

theorem Log.Loaded.cleared (hl : l.Loaded) : l.clear.Loaded := by
  have := hl.small
  have := hl.room
  refine ⟨hl.area, by simp, by simp, ?_, ?_⟩
  · simp only [Log.len, Log.clear_header, List.length_nil]
    omega
  · simp only [Log.len, Log.clear_header, Log.clear_size, List.length_nil]
    omega

/-- A completed recovery of a header that lists the log `l`: it installs
what the slots hold and stores an empty header. -/
theorem init_boot (hl : l.Loaded) {d : Blocks} (hd : Log.listed (d l.start) = l.header) :
    ∃ l' io hb, init l.dev l.start l.size (Io.boot d) = .ok (l', io) ∧
      io.writes = l.commitWrites d ++ [(l.start, hb)] ∧ Log.listed hb = [] := by
  obtain ⟨l', hread, hh, hdev, hst, hsz⟩ :=
    Log.read_listed (Log.new.setMetadata l.dev l.start l.size) (d l.start)
      (by rw [hd]; exact hl.nodup) (by rw [hd]; exact hl.small)
      (by rw [hd]; exact hl.size_sub_one ▸ hl.room)
  have heq : l' = l := by
    obtain ⟨dev, start, size, header, fits⟩ := l
    obtain ⟨dev', start', size', header', fits'⟩ := l'
    simp only [hd] at hh
    simp only [Log.setMetadata] at hdev hst hsz
    subst hh hdev hst hsz
    rfl
  subst heq
  refine ⟨l'.clear, l'.clear.writeHeader (l'.commit (Io.boot d)),
    l'.clear.write ((l'.commit (Io.boot d)).view l'.start), ?_, ?_,
    Log.listed_write_clear _ _⟩
  · rw [init, recover, show (Io.boot d).view
      (Log.new.setMetadata l'.dev l'.start l'.size).start = d l'.start from rfl, hread]
  · rw [Log.writeHeader, Log.commit_eq hl]
    rfl

theorem Settled.update_start (hl : l.Loaded) {f d : Blocks} {hb : Block}
    (hhb : Log.listed hb = []) (hhome : ∀ b, ¬ l.InArea b → d b = f b) :
    Settled l f (Function.update d l.start hb) := by
  refine ⟨by rw [Function.update_self]; exact hhb, fun b hb' => ?_⟩
  have hne : b ≠ l.start := by
    rintro rfl
    exact hb' hl.start_inArea
  rw [Function.update_of_ne hne, hhome b hb']

/-- Recovery from an empty log, cut anywhere or not at all, only stores an
empty header. -/
theorem Settled.recover (hl : l.Loaded) {f d : Blocks} (hd : Settled l f d) (m : Option Nat) :
    ∃ d', initCut l.dev l.start l.size m d = .ok d' ∧ Settled l f d' := by
  obtain ⟨l', io, hb, hinit, hws, hhb⟩ := init_boot hl.cleared (d := d) hd.empty
  have hws' : io.writes = [(l.start, hb)] := hws
  have hall : Settled l f (apply io.writes d) := by
    rw [hws']
    exact Settled.update_start hl hhb hd.home
  have hcut : initCut l.dev l.start l.size m d = .ok (apply
      (match m with | some m => io.writes.take m | none => io.writes) d) := by
    rw [initCut, show init l.dev l.start l.size (Io.boot d) = .ok (l', io) from hinit]
  refine ⟨_, hcut, ?_⟩
  cases m with
  | none => exact hall
  | some m =>
      cases m with
      | zero => simpa using hd
      | succ m =>
          rw [hws'] at hall ⊢
          simpa using hall

/-- Installing from the slots, as far as it gets, keeps the log intact. -/
theorem Committed.install_cut (hl : l.Loaded) {view disk d : Blocks}
    (hd : Committed l view disk d) (m : Nat) :
    Committed l view disk (apply ((l.commitWrites d).take m) d) := by
  have hkeys : ∀ {x}, x ∉ l.header → x ∉ (((l.commitWrites d).take m).map Prod.fst) := by
    intro x hx hmem
    have := mem_keys_of_mem_take hmem
    rw [Log.commitWrites_keys] at this
    exact hx this
  refine ⟨?_, ?_, ?_⟩
  · rw [apply_of_not_mem (hkeys fun h => hl.ne_start h rfl)]
    exact hd.listed
  · intro b k hbk
    have hk : k < l.len := by simpa [Log.len] using List.snd_lt_of_mem_zipIdx hbk
    rw [apply_of_not_mem (hkeys fun h => hl.ne_slot h hk rfl)]
    exact hd.slots b k hbk
  · intro b hb hnot
    rw [apply_of_not_mem (hkeys hnot)]
    exact hd.rest b hb hnot

/-- Installing all of it puts the logged contents in place. -/
theorem Committed.install (hl : l.Loaded) {view disk d : Blocks}
    (hd : Committed l view disk d) (b : BlockNo) (hb : ¬ l.InArea b) :
    apply (l.commitWrites d) d b = installed l view disk b := by
  by_cases hmem : b ∈ l.header
  · obtain ⟨k, hk⟩ := List.mem_iff_getElem?.mp hmem
    have hbk : (b, k) ∈ l.header.zipIdx 0 := by
      rw [List.mem_zipIdx_iff_getElem?]
      simpa using hk
    rw [installed, if_pos hmem, ← hd.slots b k hbk]
    apply apply_of_mem
    · rw [Log.commitWrites_keys]
      exact hl.nodup
    · exact List.mem_map.mpr ⟨(b, k), hbk, rfl⟩
  · rw [installed, if_neg hmem, apply_of_not_mem, hd.rest b hb hmem]
    rw [Log.commitWrites_keys]
    exact hmem

theorem Committed.recover (hl : l.Loaded) {view disk d : Blocks}
    (hd : Committed l view disk d) (m : Option Nat) :
    ∃ d', initCut l.dev l.start l.size m d = .ok d' ∧
      (Settled l (installed l view disk) d' ∨
        (m ≠ none ∧ Committed l view disk d')) := by
  obtain ⟨l', io, hb, hinit, hws, hhb⟩ := init_boot hl (d := d) hd.listed
  have hall : Settled l (installed l view disk) (apply io.writes d) := by
    rw [hws, apply_append]
    exact Settled.update_start hl hhb (hd.install hl)
  have hcut : initCut l.dev l.start l.size m d = .ok (apply
      (match m with | some m => io.writes.take m | none => io.writes) d) := by
    rw [initCut, hinit]
  refine ⟨_, hcut, ?_⟩
  cases m with
  | none => exact .inl hall
  | some m =>
      rcases Nat.lt_or_ge (l.commitWrites d).length m with hm | hm
      · left
        show Settled _ _ (apply (io.writes.take m) d)
        rw [List.take_of_length_le (by
          rw [hws, List.length_append, List.length_singleton]; omega)]
        exact hall
      · right
        refine ⟨by simp, ?_⟩
        show Committed _ _ _ (apply (io.writes.take m) d)
        rw [hws, List.take_append_of_le_length hm]
        exact hd.install_cut hl m

/-! ## Restarting until a recovery completes -/

theorem Settled.restarts (hl : l.Loaded) {f : Blocks} (cuts : List Nat) {d : Blocks}
    (hd : Settled l f d) :
    ∃ d', Fslog.restarts l.dev l.start l.size cuts d = .ok d' ∧ Settled l f d' := by
  induction cuts generalizing d with
  | nil => exact hd.recover hl none
  | cons m ms ih =>
      obtain ⟨d₁, h₁, hd₁⟩ := hd.recover hl (some m)
      obtain ⟨d', h', hd'⟩ := ih hd₁
      exact ⟨d', by rw [Fslog.restarts, h₁]; exact h', hd'⟩

theorem Committed.restarts (hl : l.Loaded) {view disk : Blocks} (cuts : List Nat)
    {d : Blocks} (hd : Committed l view disk d) :
    ∃ d', Fslog.restarts l.dev l.start l.size cuts d = .ok d' ∧
      Settled l (installed l view disk) d' := by
  induction cuts generalizing d with
  | nil =>
      obtain ⟨d', h', hd' | ⟨hm, -⟩⟩ := hd.recover hl none
      · exact ⟨d', h', hd'⟩
      · exact absurd rfl hm
  | cons m ms ih =>
      obtain ⟨d₁, h₁, hd₁ | ⟨-, hd₁⟩⟩ := hd.recover hl (some m)
      · obtain ⟨d', h', hd'⟩ := hd₁.restarts hl ms
        exact ⟨d', by rw [Fslog.restarts, h₁]; exact h', hd'⟩
      · obtain ⟨d', h', hd'⟩ := ih hd₁
        exact ⟨d', by rw [Fslog.restarts, h₁]; exact h', hd'⟩

/-! ## Stopping inside the commit -/

/-- The block writes of a commit that has something to write. -/
theorem opCommit_writes (hl : l.Loaded) (hne : l.header ≠ []) (view : Blocks) :
    ∃ hb hb' cs, (opCommit l ⟨view, []⟩).2.writes =
        l.syncWrites view ++ (l.start, hb) :: (cs ++ [(l.start, hb')]) ∧
      Log.listed hb = l.header ∧ Log.listed hb' = [] ∧
      cs = l.commitWrites (apply (l.syncWrites view ++ [(l.start, hb)]) view) := by
  have hnil : l.isEmpty = false := by
    rw [Log.isEmpty, List.isEmpty_eq_false_iff]
    exact hne
  refine ⟨l.write ((l.sync ⟨view, []⟩).view l.start),
    l.clear.write ((l.commit (l.writeHeader (l.sync ⟨view, []⟩))).view l.start), _, ?_,
    Log.listed_write _ _, Log.listed_write_clear _ _, rfl⟩
  rw [opCommit, hnil]
  simp only [Bool.false_eq_true, if_false, Log.writeHeader, Log.commit_eq hl, Log.sync_eq hl,
    Io.write_eq_issue, Io.issue, List.nil_append, List.append_assoc, List.cons_append,
    apply_append]
  rfl

/-- The disk between the header write and the clearing of the header. -/
theorem committed_after_header (hl : l.Loaded) (view disk : Blocks) {hb : Block}
    (hhb : Log.listed hb = l.header) :
    Committed l view disk (apply (l.syncWrites view ++ [(l.start, hb)]) disk) := by
  refine ⟨?_, ?_, ?_⟩
  · rw [apply_append, apply_cons, apply_nil, Function.update_self]
    exact hhb
  · intro b k hbk
    have hk : k < l.len := by simpa [Log.len] using List.snd_lt_of_mem_zipIdx hbk
    rw [apply_append, apply_cons, apply_nil, Function.update_of_ne (hl.slot_ne_start hk)]
    exact Log.apply_syncWrites hl view disk hbk
  · intro b hb' _
    apply apply_of_not_mem
    intro hmem
    rw [List.map_append, List.mem_append] at hmem
    rcases hmem with hmem | hmem
    · obtain ⟨w, hw, rfl⟩ := List.mem_map.mp hmem
      obtain ⟨k, hk, hs⟩ := Log.mem_syncWrites hw
      exact hb' (hs ▸ hl.slot_inArea hk)
    · rw [List.map_cons, List.map_nil, List.mem_singleton] at hmem
      exact hb' (hmem ▸ hl.start_inArea)

/-- Copying into the slots, as far as it gets, changes nothing that counts. -/
theorem settled_before_header (hl : l.Loaded) (view : Blocks) {disk : Blocks}
    (hempty : Log.listed (disk l.start) = []) (n : Nat) :
    Settled l disk (apply ((l.syncWrites view).take n) disk) := by
  have hkeys : ∀ {x}, x ∈ ((l.syncWrites view).take n).map Prod.fst →
      ∃ k, k < l.len ∧ x = l.slot k := by
    intro x hx
    obtain ⟨w, hw, rfl⟩ := List.mem_map.mp hx
    exact Log.mem_syncWrites (List.mem_of_mem_take hw)
  refine ⟨?_, fun b hb => ?_⟩
  · rw [apply_of_not_mem]
    · exact hempty
    · intro hmem
      obtain ⟨k, hk, hs⟩ := hkeys hmem
      exact hl.slot_ne_start hk hs.symm
  · rw [apply_of_not_mem]
    intro hmem
    obtain ⟨k, hk, rfl⟩ := hkeys hmem
    exact hb (hl.slot_inArea hk)

/-- The header write is among the first `n` writes of the commit. -/
def headerReached (l : Log) (view : Blocks) (n : Nat) : Prop :=
  l.start ∈ (((opCommit l ⟨view, []⟩).2.writes).take n).map Prod.fst

theorem start_not_mem_syncWrites (hl : l.Loaded) (view : Blocks) (n : Nat) :
    l.start ∉ ((l.syncWrites view).take n).map Prod.fst := by
  intro hmem
  obtain ⟨w, hw, hs⟩ := List.mem_map.mp hmem
  obtain ⟨k, hk, hk'⟩ := Log.mem_syncWrites (List.mem_of_mem_take hw)
  exact hl.slot_ne_start hk (hk' ▸ hs)

/-- Where a stopped commit leaves the disk: before the header write nothing
has happened; after it the transaction is in the log, or already in place. -/
theorem commitCut_cases (hl : l.Loaded) (view : Blocks) {disk : Blocks}
    (hempty : Log.listed (disk l.start) = []) (n : Nat) :
    (¬ headerReached l view n ∧ Settled l disk (commitCut l view disk n)) ∨
      (headerReached l view n ∧
        (Committed l view disk (commitCut l view disk n) ∨
          Settled l (installed l view disk) (commitCut l view disk n))) := by
  by_cases hne : l.header = []
  · left
    have hws : (opCommit l ⟨view, []⟩).2.writes = [] := by
      simp [opCommit, Log.isEmpty, hne]
    simp only [headerReached, commitCut, hws, List.take_nil, List.map_nil, List.not_mem_nil,
      not_false_iff, apply_nil, true_and]
    exact ⟨hempty, fun _ _ => rfl⟩
  · obtain ⟨hb, hb', cs, hws, hhb, hhb', hcs⟩ := opCommit_writes hl hne view
    simp only [headerReached, commitCut, hws]
    rcases Nat.lt_or_ge (l.syncWrites view).length n with hn | hn
    · -- the header write is in: what is left of the prefix starts installing
      right
      obtain ⟨j, rfl⟩ : ∃ j, n = (l.syncWrites view).length + (j + 1) :=
        ⟨n - (l.syncWrites view).length - 1, by omega⟩
      have hd := committed_after_header hl view disk hhb
      have hcs' : cs = l.commitWrites (apply (l.syncWrites view ++ [(l.start, hb)]) disk) := by
        rw [hcs]
        apply List.map_congr_left
        rintro ⟨b, k⟩ hbk
        rw [(committed_after_header hl view view hhb).slots b k hbk, hd.slots b k hbk]
      rw [List.take_length_add_append, List.take_succ_cons]
      refine ⟨by simp, ?_⟩
      rw [show l.syncWrites view ++ (l.start, hb) :: (cs ++ [(l.start, hb')]).take j =
          (l.syncWrites view ++ [(l.start, hb)]) ++ (cs ++ [(l.start, hb')]).take j by simp,
        apply_append, hcs']
      rcases Nat.lt_or_ge cs.length j with hj | hj
      · right
        rw [← hcs', List.take_of_length_le (by
          rw [List.length_append, List.length_singleton]; omega), apply_append, hcs']
        exact Settled.update_start hl hhb' (hd.install hl)
      · left
        rw [List.take_append_of_le_length (by rw [← hcs']; exact hj)]
        exact hd.install_cut hl j
    · left
      rw [List.take_append_of_le_length hn]
      exact ⟨start_not_mem_syncWrites hl view n, settled_before_header hl view hempty n⟩

/-- A commit that runs to its end. -/
theorem opCommit_settles (hl : l.Loaded) (view : Blocks) {disk : Blocks}
    (hempty : Log.listed (disk l.start) = []) :
    Settled l (installed l view disk) (apply (opCommit l ⟨view, []⟩).2.writes disk) := by
  by_cases hne : l.header = []
  · have hws : (opCommit l ⟨view, []⟩).2.writes = [] := by
      simp [opCommit, Log.isEmpty, hne]
    rw [hws]
    exact ⟨hempty, fun b _ => by simp [installed, hne]⟩
  · obtain ⟨hb, hb', cs, hws, hhb, hhb', hcs⟩ := opCommit_writes hl hne view
    have hd := committed_after_header hl view disk hhb
    have hcs' : cs = l.commitWrites (apply (l.syncWrites view ++ [(l.start, hb)]) disk) := by
      rw [hcs]
      apply List.map_congr_left
      intro ⟨b, k⟩ hbk
      rw [(committed_after_header hl view view hhb).slots b k hbk, hd.slots b k hbk]
    rw [hws, show l.syncWrites view ++ (l.start, hb) :: (cs ++ [(l.start, hb')]) =
        (l.syncWrites view ++ [(l.start, hb)]) ++ (cs ++ [(l.start, hb')]) by simp,
      apply_append, apply_append, hcs']
    exact Settled.update_start hl hhb' (hd.install hl)

/-- The cache sees what is written. -/
theorem opCommit_view (hl : l.Loaded) (view : Blocks) :
    (opCommit l ⟨view, []⟩).2.view = apply (opCommit l ⟨view, []⟩).2.writes view := by
  unfold opCommit
  split
  · rfl
  · simp only [Log.writeHeader, Log.commit_eq hl, Log.sync_eq hl, Io.write_eq_issue, Io.issue,
      List.nil_append, apply_append]

theorem opCommit_clears (l : Log) (io : Io) : (opCommit l io).1 = l.clear := by
  unfold opCommit
  split
  · next hl =>
      obtain ⟨dev, start, size, header, fits⟩ := l
      obtain rfl : header = [] := List.isEmpty_iff.mp hl
      rfl
  · rfl

end Recovery

/-- **Crash atomicity.** Stop `op::commit` after any number of block writes,
restart, stop the recovery after any number of block writes, as often as
you like, and let one recovery complete. No recovery panics, the log is
empty again, and outside the log area every block is as logged if the
header write had reached the disk, and as it was before otherwise. -/
theorem crash_atomic (l : Log) (hl : l.Loaded) (view disk : Blocks)
    (hempty : Log.listed (disk l.start) = []) (n : Nat) (cuts : List Nat) :
    ∃ d, restarts l.dev l.start l.size cuts (commitCut l view disk n) = .ok d ∧
      (headerReached l view n → ∀ b, ¬ l.InArea b →
        d b = if b ∈ l.header then view b else disk b) ∧
      (¬ headerReached l view n → ∀ b, ¬ l.InArea b → d b = disk b) ∧
      Log.listed (d l.start) = [] := by
  rcases commitCut_cases hl view hempty n with ⟨hr, hs⟩ | ⟨hr, hc | hs⟩
  · obtain ⟨d, hd, hs'⟩ := hs.restarts hl cuts
    exact ⟨d, hd, fun h => absurd h hr, fun _ => hs'.home, hs'.empty⟩
  · obtain ⟨d, hd, hs'⟩ := hc.restarts hl cuts
    exact ⟨d, hd, fun _ => hs'.home, fun h => absurd hr h, hs'.empty⟩
  · obtain ⟨d, hd, hs'⟩ := hs.restarts hl cuts
    exact ⟨d, hd, fun _ => hs'.home, fun h => absurd hr h, hs'.empty⟩

/-- A transaction of one block in the log area that `mkfs` lays out. -/
def oneBlock : Log := ⟨1, 2, 511, [600], by decide⟩

theorem oneBlock_loaded : oneBlock.Loaded := by
  refine ⟨by decide, by decide, ?_, by decide, by decide⟩
  intro b hb
  rw [show oneBlock.header = [600] from rfl, List.mem_singleton] at hb
  subst hb
  unfold Log.InArea
  decide

/-- Stopped right after the header write, and once more after the first
write of the recovery: the block is as logged. -/
theorem crash_atomic_oneBlock :
    ∃ d, restarts 1 2 511 [1]
        (commitCut oneBlock (fun _ _ => 7) (fun _ => Block.zero) 2) = .ok d ∧
      d 600 = (fun _ => 7) ∧ Log.listed (d 2) = [] := by
  have hr : headerReached oneBlock (fun _ _ => 7) 2 := by
    unfold headerReached
    decide
  have hout : ¬ oneBlock.InArea 600 := oneBlock_loaded.outside 600 (by decide)
  obtain ⟨d, hd, hin, -, hempty⟩ := crash_atomic oneBlock oneBlock_loaded (fun _ _ => 7)
    (fun _ => Block.zero) (by decide) 2 [1]
  exact ⟨d, hd, by rw [hin hr 600 hout]; rfl, hempty⟩

end Rxv64.Fslog
