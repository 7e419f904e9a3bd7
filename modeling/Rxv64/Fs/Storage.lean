import Mathlib.Data.UInt
import Rxv64.Lib.Places
import Rxv64.Fs.Inode

/-!
# Fs.Storage — which block belongs to whom

The physical side of the file system. An inode is what its entry of the
inode cache says if that entry is referenced and valid, and what the disk
says otherwise (`current`). The numbers of the blocks of a file stand in the
inode and in its indirect block (`place`); what the file holds is read
through them (`files`).

`Inv` is what every operation keeps: the cache has one entry for an inode,
blocks are in one place, used and apart from the format's own blocks, and
the inode on the disk is an earlier version of the one in the cache. Two
things are kept only when they are asked for: that files have no holes
(`dense`), and that the headers in cache and on disk agree (outside `U`).

The lemmas follow the changes the code makes to the state, one for each.
-/

namespace Rxv64.Fs

open Layout Places

/-! ## Inodes, in the cache or on the disk -/

/-- Referenced and valid. -/
def Inode.Live (ip : Inode) : Prop := 0 < ip.refCnt ∧ ip.valid = true

instance (ip : Inode) : Decidable ip.Live := inferInstanceAs (Decidable (_ ∧ _))

/-- The live entry of an inode. -/
def holder (s : State) (i : UInt64) : Option Idx :=
  (List.finRange ninode).find? fun e => decide ((s.icache e).Live ∧ (s.icache e).inum = i)

/-- The cached inode of a referenced and valid entry, the one on disk
otherwise. -/
def current (sb : Superblock) (s : State) (i : UInt64) : DInode :=
  match holder s i with
  | some e => (s.icache e).dinode
  | none => diskInode sb s.blocks i

/-- Every inode has at most one referenced entry. -/
def Unique (s : State) : Prop :=
  ∀ e e', 0 < (s.icache e).refCnt → 0 < (s.icache e').refCnt →
    (s.icache e).inum = (s.icache e').inum → e = e'

section Current

variable {sb : Superblock} {s s' : State}

theorem current_live (h : Unique s) {e : Idx} (hl : (s.icache e).Live) :
    current sb s (s.icache e).inum = (s.icache e).dinode := by
  unfold current
  cases hh : holder s (s.icache e).inum with
  | none =>
      have hno := List.find?_eq_none.mp hh e (List.mem_finRange e)
      simp [hl] at hno
  | some e' =>
      have he' := List.find?_some hh
      simp only [decide_eq_true_eq] at he'
      rw [h e' e he'.1.1 hl.1 he'.2]

theorem current_dead {i : UInt64}
    (h : ∀ e, (s.icache e).Live → (s.icache e).inum ≠ i) :
    current sb s i = diskInode sb s.blocks i := by
  unfold current
  cases hh : holder s i with
  | none => rfl
  | some e =>
      have he := List.find?_some hh
      simp only [decide_eq_true_eq] at he
      exact absurd he.2 (h e he.1)

/-- What the cache says about an inode depends on its live entries only. -/
theorem current_congr (h : Unique s) (h' : Unique s') {i : UInt64}
    (hdisk : diskInode sb s'.blocks i = diskInode sb s.blocks i)
    (hlive : ∀ e, (s.icache e).Live ∧ (s.icache e).inum = i ↔
      (s'.icache e).Live ∧ (s'.icache e).inum = i)
    (hd : ∀ e, (s.icache e).Live → (s.icache e).inum = i →
      (s'.icache e).dinode = (s.icache e).dinode) :
    current sb s' i = current sb s i := by
  by_cases hex : ∃ e, (s.icache e).Live ∧ (s.icache e).inum = i
  · obtain ⟨e, hl, rfl⟩ := hex
    obtain ⟨hl', hi'⟩ := (hlive e).mp ⟨hl, rfl⟩
    rw [current_live h hl, ← hi', current_live h' hl', hd e hl rfl]
  · rw [current_dead fun e hl hi => hex ⟨e, hl, hi⟩,
      current_dead fun e hl hi => hex ⟨e, (hlive e).mpr ⟨hl, hi⟩⟩, hdisk]

/-- Live inodes are not read from the disk. -/
theorem current_setBlock (h : Unique s) (hs : s'.icache = s.icache) {i : UInt64}
    (hdisk : diskInode sb s'.blocks i = diskInode sb s.blocks i ∨
      ∃ e, (s.icache e).Live ∧ (s.icache e).inum = i) :
    current sb s' i = current sb s i := by
  have h' : Unique s' := by
    unfold Unique
    rw [hs]
    exact h
  rcases hdisk with hdisk | ⟨e, hl, rfl⟩
  · exact current_congr h h' hdisk (fun e => by rw [hs]) (fun e _ _ => by rw [hs])
  · have hl' : (s'.icache e).Live := by
      rw [hs]
      exact hl
    have hcur : current sb s' (s'.icache e).inum = (s'.icache e).dinode := current_live h' hl'
    rw [hs] at hcur
    rw [hcur, current_live h hl]

@[simp] theorem icache_setInode (s : State) (e : Idx) (ip : Inode) :
    (s.setInode e ip).icache = Function.update s.icache e ip := rfl

@[simp] theorem blocks_setInode (s : State) (e : Idx) (ip : Inode) :
    (s.setInode e ip).blocks = s.blocks := rfl

/-- One entry of the cache is changed. -/
theorem current_setInode {e : Idx} {ip : Inode} (h : Unique s) (h' : Unique (s.setInode e ip))
    (i : UInt64) :
    current sb (s.setInode e ip) i =
      if ip.Live ∧ ip.inum = i then ip.dinode
      else if (s.icache e).Live ∧ (s.icache e).inum = i then diskInode sb s.blocks i
      else current sb s i := by
  have hself : (s.setInode e ip).icache e = ip := by simp
  by_cases h1 : ip.Live ∧ ip.inum = i
  · rw [if_pos h1]
    have hcur : current sb (s.setInode e ip) ((s.setInode e ip).icache e).inum = _ :=
      current_live h' (by rw [hself]; exact h1.1)
    rw [hself, h1.2] at hcur
    exact hcur
  rw [if_neg h1]
  by_cases h2 : (s.icache e).Live ∧ (s.icache e).inum = i
  · rw [if_pos h2]
    refine current_dead fun e' hl hi => ?_
    by_cases he : e' = e
    · subst he
      rw [hself] at hl hi
      exact h1 ⟨hl, hi⟩
    · rw [icache_setInode, Function.update_of_ne he] at hl hi
      exact he (h e' e hl.1 h2.1.1 (by rw [hi, h2.2]))
  · rw [if_neg h2]
    refine current_congr h h' rfl (fun e' => ?_) (fun e' hl hi => ?_)
    · by_cases he : e' = e
      · subst he
        rw [hself]
        exact iff_of_false h2 h1
      · rw [icache_setInode, Function.update_of_ne he]
    · by_cases he : e' = e
      · subst he
        exact absurd ⟨hl, hi⟩ h2
      · rw [icache_setInode, Function.update_of_ne he]

end Current

attribute [irreducible] holder

/-! ## Places -/

/-- Where the number of a block of a file stands: among the addresses of the
inode, the last of which is the indirect block, or in the indirect block. -/
inductive Slot where
  | inode (k : Fin (ndirect + 1))
  | entry (k : Fin nindirect)
  deriving DecidableEq

/-- The place of the indirect block. -/
abbrev Slot.root : Slot := .inode lastAddr

/-- The block number in a slot; zero for none. -/
def DInode.addr (d : DInode) (bs : Blocks) : Slot → UInt64
  | .inode k => d.addrs k
  | .entry k => if d.addrs lastAddr = 0 then 0 else (bs (d.addrs lastAddr)).word k

theorem DInode.addr_entry_zero {d : DInode} (h : d.addrs lastAddr = 0) (bs : Blocks)
    (k : Fin nindirect) : d.addr bs (.entry k) = 0 := if_pos h

theorem DInode.addr_entry {d : DInode} (h : d.addrs lastAddr ≠ 0) (bs : Blocks)
    (k : Fin nindirect) : d.addr bs (.entry k) = (bs (d.addrs lastAddr)).word k := if_neg h

/-- The slot that `bmap` reads for block `bn` of a file. -/
def slotOf (bn : Nat) : Option Slot :=
  if h : bn < ndirect then some (.inode ⟨bn, Nat.lt_succ_of_lt h⟩)
  else if h : bn - ndirect < nindirect then some (.entry ⟨bn - ndirect, h⟩)
  else none

/-- Allocated: a number of the inode table, and not of type `Unused`. -/
def Allocated (sb : Superblock) (s : State) (i : UInt64) : Prop :=
  i.toNat < sb.ninodes.toNat ∧ (current sb s i).typ ≠ 0

instance (sb : Superblock) (s : State) (i : UInt64) : Decidable (Allocated sb s i) :=
  inferInstanceAs (Decidable (_ ∧ _))

/-- The block numbers of all allocated inodes. -/
def place (sb : Superblock) (s : State) (κ : UInt64 × Slot) : UInt64 :=
  if Allocated sb s κ.1 then (current sb s κ.1).addr s.blocks κ.2 else 0

/-- The block behind block `bn` of file `i`; zero for a hole. -/
def blockAt (sb : Superblock) (s : State) (i : UInt64) (bn : Nat) : UInt64 :=
  match slotOf bn with
  | some σ => place sb s (i, σ)
  | none => 0

theorem slotOf_ne_root (bn : Nat) : slotOf bn ≠ some .root := by
  unfold slotOf
  split
  · next h =>
      intro he
      have hbn : bn = ndirect := congrArg Fin.val (Slot.inode.inj (Option.some.inj he))
      omega
  · split <;> simp

theorem slotOf_inj {bn bn' : Nat} {σ : Slot} (h : slotOf bn = some σ) (h' : slotOf bn' = some σ) :
    bn = bn' := by
  unfold slotOf at h h'
  split at h <;> split at h'
  · have := (Option.some.inj h).trans (Option.some.inj h').symm
    simpa using this
  · split at h'
    · exact absurd ((Option.some.inj h).trans (Option.some.inj h').symm) (by simp)
    · simp at h'
  · split at h
    · exact absurd ((Option.some.inj h).trans (Option.some.inj h').symm) (by simp)
    · simp at h
  · split at h <;> split at h'
    · have := (Option.some.inj h).trans (Option.some.inj h').symm
      simp only [Slot.entry.injEq, Fin.mk.injEq] at this
      omega
    · simp at h'
    · simp at h
    · simp at h

section Places

variable {sb : Superblock} {s s' : State} {i : UInt64}

theorem Allocated.place (h : Allocated sb s i) (σ : Slot) :
    place sb s (i, σ) = (current sb s i).addr s.blocks σ := if_pos h

theorem place_of_not (h : ¬Allocated sb s i) (σ : Slot) : place sb s (i, σ) = 0 := if_neg h

theorem allocated_of_place {κ : UInt64 × Slot} (h : place sb s κ ≠ 0) : Allocated sb s κ.1 := by
  by_contra hn
  exact h (if_neg hn)

theorem allocated_congr (hc : current sb s' i = current sb s i) :
    Allocated sb s' i ↔ Allocated sb s i := by
  unfold Allocated
  rw [hc]

/-- An entry of the indirect block has an indirect block. -/
theorem place_root_ne_zero {k : Fin nindirect} (h : place sb s (i, .entry k) ≠ 0) :
    place sb s (i, .root) ≠ 0 := by
  have ha : Allocated sb s i := allocated_of_place h
  rw [ha.place] at h ⊢
  intro h0
  exact h (DInode.addr_entry_zero h0 _ _)

theorem place_congr (hc : current sb s' i = current sb s i)
    (hb : place sb s (i, .root) ≠ 0 →
      s'.blocks (place sb s (i, .root)) = s.blocks (place sb s (i, .root))) (σ : Slot) :
    place sb s' (i, σ) = place sb s (i, σ) := by
  by_cases ha : Allocated sb s i
  · rw [((allocated_congr hc).mpr ha).place, ha.place, hc]
    rw [ha.place] at hb
    cases σ with
    | inode k => rfl
    | entry k =>
        by_cases h0 : (current sb s i).addrs lastAddr = 0
        · rw [DInode.addr_entry_zero h0, DInode.addr_entry_zero h0]
        · have hroot : s'.blocks ((current sb s i).addrs lastAddr) = _ := hb h0
          rw [DInode.addr_entry h0, DInode.addr_entry h0, hroot]
          rfl
  · rw [place_of_not ha, place_of_not (fun h => ha ((allocated_congr hc).mp h))]

theorem blockAt_congr (h : ∀ σ, place sb s' (i, σ) = place sb s (i, σ)) (bn : Nat) :
    blockAt sb s' i bn = blockAt sb s i bn := by
  unfold blockAt
  split
  · exact h _
  · rfl

end Places

/-! ## Contents -/

/-- A file: the header of its inode and its bytes, those past the end
included. -/
@[ext] structure Node where
  typ : UInt32
  major : UInt32
  minor : UInt32
  nlink : UInt32
  size : UInt64
  data : Nat → UInt8

/-- An inode that is not allocated. -/
def Node.free : Node := ⟨0, 0, 0, 0, 0, fun _ => 0⟩

/-- Block `bn` of file `i`; a hole reads as zeros. -/
def pageAt (sb : Superblock) (s : State) (i : UInt64) (bn : Nat) : Block :=
  if blockAt sb s i bn = 0 then Block.zero else s.blocks (blockAt sb s i bn)

/-- The files, by inode number. -/
def files (sb : Superblock) (s : State) (i : UInt64) : Node :=
  if Allocated sb s i then
    let d := current sb s i
    ⟨d.typ, d.major, d.minor, d.nlink, d.size, fun o => (pageAt sb s i (o / bsize)).byte (o % bsize)⟩
  else Node.free

section Contents

variable {sb : Superblock} {s s' : State} {i : UInt64}

theorem files_of_not (h : ¬Allocated sb s i) : files sb s i = Node.free := if_neg h

theorem Allocated.files (h : Allocated sb s i) :
    files sb s i =
      ⟨(current sb s i).typ, (current sb s i).major, (current sb s i).minor,
        (current sb s i).nlink, (current sb s i).size,
        fun o => (pageAt sb s i (o / bsize)).byte (o % bsize)⟩ := if_pos h

theorem files_congr (hc : current sb s' i = current sb s i)
    (hp : ∀ bn, pageAt sb s' i bn = pageAt sb s i bn) : files sb s' i = files sb s i := by
  by_cases ha : Allocated sb s i
  · rw [ha.files, ((allocated_congr hc).mpr ha).files, hc]
    simp only [hp]
  · rw [files_of_not ha, files_of_not fun h => ha ((allocated_congr hc).mp h)]

/-- A file does not see changes to blocks it does not have. -/
theorem pageAt_congr (hp : ∀ σ, place sb s' (i, σ) = place sb s (i, σ))
    (hb : ∀ σ, σ ≠ .root → place sb s (i, σ) ≠ 0 →
      s'.blocks (place sb s (i, σ)) = s.blocks (place sb s (i, σ))) (bn : Nat) :
    pageAt sb s' i bn = pageAt sb s i bn := by
  unfold pageAt
  rw [blockAt_congr hp]
  by_cases h0 : blockAt sb s i bn = 0
  · rw [if_pos h0, if_pos h0]
  · rw [if_neg h0, if_neg h0]
    unfold blockAt at h0 ⊢
    cases hσ : slotOf bn with
    | none => simp [hσ] at h0
    | some σ =>
        simp only [hσ] at h0 ⊢
        exact hb σ (fun he => slotOf_ne_root bn (he ▸ hσ)) h0

end Contents

/-! ## The invariant -/

/-- What holds of cache and blocks whatever is going on. -/
structure Core (sb : Superblock) (s : State) : Prop where
  wf : sb.WF
  formatUsed : ∀ b, sb.Meta b → b.toNat < sb.size.toNat → used sb s.blocks b = true
  uniq : Unique s
  range : ∀ e, 0 < (s.icache e).refCnt → (s.icache e).inum.toNat < sb.ninodes.toNat
  typed : ∀ e, (s.icache e).Live → (s.icache e).dinode.typ ≠ 0
  distinct : Distinct (place sb s)
  data : ∀ κ, place sb s κ ≠ 0 →
    sb.Data (place sb s κ) ∧ used sb s.blocks (place sb s κ) = true

/-- The address that leads to block `bn` on the disk. -/
def keeper (bn : Nat) : Fin (ndirect + 1) :=
  if h : bn < ndirect then ⟨bn, Nat.lt_succ_of_lt h⟩ else lastAddr

/-- The headers of two versions of an inode agree. -/
def DInode.SameHeader (d d' : DInode) : Prop :=
  d.typ = d'.typ ∧ d.major = d'.major ∧ d.minor = d'.minor ∧ d.nlink = d'.nlink ∧ d.size = d'.size

/-- The inode on the disk is an earlier version of the current one, a sound
file in its own right. -/
structure Fine (sb : Superblock) (dense sync : Prop) (s : State) (i : UInt64) : Prop where
  typ : (diskInode sb s.blocks i).typ = (current sb s i).typ
  size : (diskInode sb s.blocks i).size ≤ (current sb s i).size
  addrs : ∀ k, (diskInode sb s.blocks i).addrs k = 0 ∨
    (diskInode sb s.blocks i).addrs k = (current sb s i).addrs k
  synced : sync → (diskInode sb s.blocks i).SameHeader (current sb s i)
  solid : dense → Allocated sb s i → ∀ bn, bn * bsize < (current sb s i).size.toNat →
    blockAt sb s i bn ≠ 0
  stored : dense → Allocated sb s i → ∀ bn,
    bn * bsize < (diskInode sb s.blocks i).size.toNat →
      (diskInode sb s.blocks i).addrs (keeper bn) ≠ 0

/-- **The invariant of the file system.** -/
structure Inv (sb : Superblock) (dense : Prop) (U : Set UInt64) (s : State) : Prop where
  core : Core sb s
  fine : ∀ i, i.toNat < sb.ninodes.toNat → Fine sb dense (i ∉ U) s i
  locked : ∀ e, (s.icache e).lock ≠ none → (s.icache e).Live

end Rxv64.Fs
