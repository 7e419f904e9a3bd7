import Mathlib.Data.Finset.Card
import Rxv64.Fs.Changes

/-!
# Fs.Alloc — what reading, logging and allocating blocks costs

Two accounts go with every piece of file system code: the block reads it
makes (`Reads`) and the blocks it hands to `fslog::write` (`Logged`). Code
that reads `n` blocks and logs `W` fails or panics only when one of the reads
finds no buffer or the log has no room for `W` (`Denied`).

On top of the two, `balloc` takes a free block (`Grab`) or finds every bit of
the map set, and `bfree` clears the bit of a used block.
-/

namespace Rxv64.Fslog.Log

/-- The number of blocks at which a log is full. -/
def cap (l : Log) : Nat := min (l.size - 1).toNat logSize

theorem isFull_iff (l : Log) : l.isFull = true ↔ l.cap ≤ l.len := by
  unfold isFull cap
  rw [decide_eq_true_eq, min_le_iff]

end Rxv64.Fslog.Log

namespace Rxv64.Fs

open Layout Prog

/-! ## Reads -/

/-- From `s` to `s'` the next `n` reads were made, and all found a buffer. -/
structure Reads (env : Env) (s : State) (n : Nat) (s' : State) : Prop where
  count : s'.reads = s.reads + n
  found : ∀ k, s.reads ≤ k → k < s.reads + n → env.readOk k = true

namespace Reads

variable {env : Env} {s s' s'' : State} {n m : Nat}

theorem none (h : s'.reads = s.reads) : Reads env s 0 s' :=
  ⟨h, fun _ h1 h2 => by omega⟩

theorem same {t : State} (h : Reads env s n s') (hr : t.reads = s'.reads) : Reads env s n t :=
  ⟨hr.trans h.count, h.found⟩

theorem trans (h : Reads env s n s') (h' : Reads env s' m s'') : Reads env s (n + m) s'' where
  count := by rw [h'.count, h.count, Nat.add_assoc]
  found := by
    intro k h1 h2
    have hc := h.count
    by_cases hk : k < s.reads + n
    · exact h.found k h1 hk
    · exact h'.found k (by omega) (by omega)

end Reads

/-! ## The log -/

/-- The blocks of `W` that the log does not list yet. -/
def newIn (s : State) (W : Finset UInt64) : Finset UInt64 := W.filter (· ∉ s.log.header)

/-- From `s` to `s'` the blocks of `W` were logged, and no others. -/
structure Logged (s : State) (W : Finset UInt64) (s' : State) : Prop where
  outstanding : s'.outstanding = s.outstanding
  cap : s'.log.cap = s.log.cap
  listed : ∀ b, b ∈ s'.log.header ↔ b ∈ s.log.header ∨ b ∈ W
  len : s'.log.len = s.log.len + (newIn s W).card

theorem newIn_card_mono {s : State} {W V : Finset UInt64} (h : W ⊆ V) :
    (newIn s W).card ≤ (newIn s V).card :=
  Finset.card_le_card (Finset.filter_subset_filter _ h)

namespace Logged

variable {s s' s'' : State} {W V : Finset UInt64}

theorem none (ho : s'.outstanding = s.outstanding) (hl : s'.log = s.log) : Logged s ∅ s' where
  outstanding := ho
  cap := by rw [hl]
  listed := by simp [hl]
  len := by simp [hl, newIn]

theorem same {t : State} (h : Logged s W s') (ho : t.outstanding = s'.outstanding)
    (hl : t.log = s'.log) : Logged s W t where
  outstanding := ho.trans h.outstanding
  cap := by rw [hl, h.cap]
  listed := by rw [hl]; exact h.listed
  len := by rw [hl, h.len]

/-- What `V` adds is what is neither in the old log nor in `W`. -/
theorem card_union (h : Logged s W s') (V : Finset UInt64) :
    s.log.len + (newIn s (W ∪ V)).card = s'.log.len + (newIn s' V).card := by
  have hsplit : newIn s (W ∪ V) = newIn s W ∪ newIn s' V := by
    ext b
    simp only [newIn, Finset.mem_filter, Finset.mem_union, h.listed]
    tauto
  have hdis : Disjoint (newIn s W) (newIn s' V) := by
    rw [Finset.disjoint_left]
    intro b hW hV
    simp only [newIn, Finset.mem_filter, h.listed] at hW hV
    exact hV.2 (.inr hW.1)
  rw [h.len, hsplit, Finset.card_union_of_disjoint hdis, Nat.add_assoc]

theorem trans (h : Logged s W s') (h' : Logged s' V s'') : Logged s (W ∪ V) s'' where
  outstanding := h'.outstanding.trans h.outstanding
  cap := h'.cap.trans h.cap
  listed := by
    intro b
    rw [h'.listed, h.listed, Finset.mem_union, or_assoc]
  len := by rw [h.card_union, h'.len]

end Logged

/-- Why code that makes `n` reads and logs `W` may not get through: a read
finds no buffer, no operation is open, or the log fills up. -/
def Denied (env : Env) (s : State) (n : Nat) (W : Finset UInt64) : Prop :=
  (∃ k, s.reads ≤ k ∧ k < s.reads + n ∧ env.readOk k = false) ∨ s.outstanding = 0 ∨
    s.log.cap ≤ s.log.len + (newIn s W).card

namespace Denied

variable {env : Env} {s s' : State} {n m : Nat} {W V : Finset UInt64}

theorem mono (h : Denied env s n W) (hn : n ≤ m) (hW : W ⊆ V) : Denied env s m V := by
  obtain ⟨k, h1, h2, h3⟩ | h | h := h
  · exact .inl ⟨k, h1, by omega, h3⟩
  · exact .inr (.inl h)
  · exact .inr (.inr (h.trans (Nat.add_le_add_left (newIn_card_mono hW) _)))

/-- What stops the second part of some code stops the whole. -/
theorem after (hr : Reads env s n s') (hl : Logged s W s') (h : Denied env s' m V) :
    Denied env s (n + m) (W ∪ V) := by
  obtain ⟨k, h1, h2, h3⟩ | h | h := h
  · have hc := hr.count
    exact .inl ⟨k, by omega, by omega, h3⟩
  · exact .inr (.inl (hl.outstanding ▸ h))
  · refine .inr (.inr ?_)
    rw [hl.card_union, ← hl.cap]
    exact h

/-- A read that found no buffer. -/
theorem of_read (h : env.readOk s.reads = false) : Denied env s 1 W :=
  .inl ⟨s.reads, Nat.le_refl _, Nat.lt_succ_self _, h⟩

end Denied

/-! ## One block -/

section Block

variable {env : Env} {s : State}

/-- One read later. -/
def State.read (s : State) : State := { s with reads := s.reads + 1 }

theorem reads_read (h : env.readOk s.reads = true) : Reads env s 1 s.read where
  count := rfl
  found := by
    intro k h1 h2
    rw [show k = s.reads by omega]
    exact h

theorem logged_read : Logged s ∅ s.read := Logged.none rfl rfl

theorem bread_sat (b : UInt64) :
    Sat (bread b env s) (fun blk s' => env.readOk s.reads = true ∧ blk = s.blocks b ∧ s' = s.read)
      (fun m s' => env.readOk s.reads = false ∧ m = "bget: no buffers" ∧ s' = s.read)
      (fun _ => False) := by
  unfold bread
  dsimp only
  split
  · next h => exact ⟨h, rfl, rfl⟩
  · next h => exact ⟨Bool.eq_false_iff.mpr h, rfl, rfl⟩

theorem fslogWrite_sat (b : UInt64) :
    Sat (fslogWrite b env s)
      (fun _ s' => s.log.len < s.log.cap ∧ Logged s {b} s' ∧ s'.blocks = s.blocks ∧
        s'.icache = s.icache ∧ s'.reads = s.reads)
      (fun _ _ => False) (fun _ => Denied env s 0 ∅) := by
  unfold fslogWrite
  split
  · next h =>
      rw [Fslog.Log.isFull_iff] at h
      exact ⟨.inr (.inr (by simpa [newIn] using h))⟩
  · next hfull =>
      rw [Fslog.Log.isFull_iff, Nat.not_le] at hfull
      split
      · next h => exact ⟨.inr (.inl (Nat.lt_one_iff.mp h))⟩
      · split
        · next log hins =>
            refine ⟨hfull, ?_, rfl, rfl, rfl⟩
            obtain ⟨hm, rfl⟩ | ⟨hm, -, hh, hd, hs, hz⟩ := Fslog.Log.insert_cases hins
            · exact ⟨rfl, rfl, by simpa using hm, by simp [newIn, Finset.filter_singleton, hm]⟩
            · refine ⟨rfl, by simp [Fslog.Log.cap, hz], by simp [hh], ?_⟩
              simp [Fslog.Log.len, hh, newIn, Finset.filter_singleton, hm]
        · next m hins =>
            -- the array has room whenever the log is not full
            have hlen : s.log.header.length < logSize :=
              Nat.lt_of_lt_of_le hfull (Nat.min_le_right _ _)
            unfold Fslog.Log.insert at hins
            rw [dif_pos hlen] at hins
            split at hins <;> cases hins

theorem store_sat (b : UInt64) (blk : Block) :
    Sat (store b blk env s)
      (fun _ s' => s.log.len < s.log.cap ∧ Logged s {b} s' ∧
        s'.blocks = Function.update s.blocks b blk ∧ s'.icache = s.icache ∧ s'.reads = s.reads)
      (fun _ _ => False) (fun _ => Denied env s 0 ∅) := by
  refine Sat.modify ((fslogWrite_sat b).imp ?_ (fun _ _ h => h) (fun _ h => h))
  rintro _ s' ⟨hcap, hl, hb, hi, hr⟩
  exact ⟨hcap, ⟨hl.outstanding, hl.cap, hl.listed, hl.len⟩, hb, hi, hr⟩

theorem bzero_sat (b : UInt64) :
    Sat (bzero b env s)
      (fun _ s' => Reads env s 1 s' ∧ Logged s {b} s' ∧
        s'.blocks = Function.update s.blocks b Block.zero ∧ s'.icache = s.icache)
      (fun _ _ => False) (fun _ => Denied env s 1 ∅) := by
  refine Sat.seq (Q := fun _ s' => env.readOk s.reads = true ∧ s' = s.read) ?_ ?_
  · refine Sat.expect (bread_sat b |>.imp ?_ (fun _ _ h => h) (fun _ h => h.elim)) ?_
    · exact fun _ _ h => ⟨h.1, h.2.2⟩
    · exact fun _ _ h => Denied.of_read h.1
  · rintro _ _ ⟨hok, rfl⟩
    have hr := reads_read hok
    refine (store_sat b Block.zero).imp ?_ (fun _ _ h => h) fun _ h => h.after hr logged_read
    rintro _ s' ⟨-, hl, hb, hi, hn⟩
    exact ⟨hr.trans (.none hn), by simpa using logged_read.trans hl, hb, hi⟩

/-- `bfree` of a used block. -/
theorem bfree_sat {b : UInt64} (hused : used env.sb s.blocks b = true) :
    Sat (bfree b env s)
      (fun _ s' => Reads env s 1 s' ∧ Logged s {env.sb.bblock b} s' ∧
        s'.blocks = clearUsed env.sb s.blocks b ∧ s'.icache = s.icache)
      (fun _ _ => False) (fun _ => Denied env s 1 ∅) := by
  refine Sat.env (Sat.seq (Q := fun blk s' => env.readOk s.reads = true ∧
    blk = s.blocks (env.sb.bblock b) ∧ s' = s.read) ?_ ?_)
  · refine Sat.expect (bread_sat _ |>.imp (fun _ _ h => h) (fun _ _ h => h) (fun _ h => h.elim)) ?_
    exact fun _ _ h => Denied.of_read h.1
  · rintro _ _ ⟨hok, rfl, rfl⟩
    have hr := reads_read hok
    refine Sat.assert (fun hno => absurd hused hno) fun _ => ?_
    refine (store_sat _ _).imp ?_ (fun _ _ h => h) fun _ h => h.after hr logged_read
    rintro _ s' ⟨-, hl, hb, hi, hn⟩
    exact ⟨hr.trans (.none hn), by simpa using logged_read.trans hl, hb, hi⟩

/-- `update` stores the cached inode, and is the only code here that can
find a full log after everything else was logged. -/
theorem update_sat (e : Idx) :
    Sat (update e env s)
      (fun _ s' => s.log.len < s.log.cap ∧ Reads env s 1 s' ∧
        Logged s {env.sb.iblock (s.icache e).inum} s' ∧
        s'.blocks = setDiskInode env.sb s.blocks (s.icache e).inum (s.icache e).dinode ∧
        s'.icache = s.icache)
      (fun m s' => env.readOk s.reads = false ∧ m = "bget: no buffers" ∧ s' = s.read)
      (fun _ => Denied env s 1 ∅) := by
  refine Sat.env (Sat.gets (Sat.bind (bread_sat _ |>.imp (fun _ _ h => h) (fun _ _ h => h)
    (fun _ h => h.elim)) (fun _ _ h => h) ?_))
  rintro _ _ ⟨hok, rfl, rfl⟩
  have hr := reads_read hok
  refine (store_sat _ _).imp ?_ (fun _ _ h => h.elim) fun _ h => h.after hr logged_read
  rintro _ s' ⟨hcap, hl, hb, hi, hn⟩
  exact ⟨hcap, hr.trans (.none hn), by simpa using logged_read.trans hl, hb, hi⟩

end Block

/-! ## Cached inodes -/

section Cached

variable {α : Type} {env : Env} {s : State} {e : Idx} {f : DInode → DInode} {Q : α → State → Prop}
  {E : String → State → Prop} {X : String → Prop}

theorem sat_modifyDinode {g : Unit → FsM α}
    (h : Sat (g () env (s.setDinode e (f (s.icache e).dinode))) Q E X) :
    Sat ((modifyDinode e f >>= g) env s) Q E X := h

theorem sat_last_modifyDinode {Q : Unit → State → Prop}
    (h : Q () (s.setDinode e (f (s.icache e).dinode))) : Sat (modifyDinode e f env s) Q E X := ⟨h⟩

end Cached

/-! ## The allocator -/

/-- Every bit of the free map is set. -/
def AllUsed (sb : Superblock) (s : State) : Prop :=
  ∀ b : UInt64, b.toNat < sb.size.toNat → used sb s.blocks b = true

/-- Why a block could not be had. -/
def Refused (env : Env) (s : State) (m : String) : Prop :=
  m = "bget: no buffers" ∧ (∃ k, env.readOk k = false) ∨
    m = "balloc: out of blocks" ∧ AllUsed env.sb s

theorem ballocScan_some {sb : Superblock} {blk : Block} {b fuel bi bi' : Nat}
    (h : ballocScan sb blk b fuel bi = some bi') :
    bi' < bi + fuel ∧ b + bi' < sb.size.toNat ∧ Block.bit blk bi' = false := by
  induction fuel generalizing bi with
  | zero => cases h
  | succ fuel ih =>
      unfold ballocScan at h
      split at h
      · cases h
      · next hlt =>
          split at h
          · obtain ⟨h1, h2, h3⟩ := ih h
            exact ⟨by omega, h2, h3⟩
          · next hbit =>
              cases h
              exact ⟨by omega, by omega, Bool.eq_false_iff.mpr hbit⟩

theorem ballocScan_none {sb : Superblock} {blk : Block} {b fuel bi : Nat}
    (h : ballocScan sb blk b fuel bi = none) {bj : Nat} (h1 : bi ≤ bj) (h2 : bj < bi + fuel)
    (h3 : b + bj < sb.size.toNat) : Block.bit blk bj = true := by
  induction fuel generalizing bi with
  | zero => omega
  | succ fuel ih =>
      unfold ballocScan at h
      split at h
      · omega
      · split at h
        · next hbit =>
            by_cases he : bj = bi
            · rw [he]
              exact hbit
            · exact ih h (by omega) (by omega)
        · cases h

/-- The bits before the one that was found are set. -/
theorem ballocScan_least {sb : Superblock} {blk : Block} {b fuel bi bi' bj : Nat}
    (h : ballocScan sb blk b fuel bi = some bi') (h1 : bi ≤ bj) (h2 : bj < bi') :
    Block.bit blk bj = true := by
  induction fuel generalizing bi with
  | zero => cases h
  | succ fuel ih =>
      unfold ballocScan at h
      split at h
      · cases h
      · split at h
        · next hbit =>
            by_cases he : bj = bi
            · rw [he]
              exact hbit
            · exact ih h (by omega)
        · cases h
          omega

/-- The least block of the map whose bit was clear is now used and zeroed. -/
structure Took (sb : Superblock) (s : State) (b : UInt64) (s' : State) : Prop where
  lt : b.toNat < sb.size.toNat
  unused : used sb s.blocks b = false
  least : ∀ c : UInt64, c.toNat < b.toNat → used sb s.blocks c = true
  blocks : s'.blocks = Function.update (setUsed sb s.blocks b) b Block.zero
  icache : s'.icache = s.icache

section Balloc

variable {env : Env} {sb : Superblock} {s : State}

/-- The bit of block `j * BPB + bi` is in block `j` of the map. -/
theorem bblock_eq {b : UInt64} {j : Nat} (hb : b.toNat / bpb = j) :
    sb.bblock b = sb.bblock (UInt64.ofNat (j * bpb)) := by
  have hle : j * bpb ≤ b.toNat := by
    rw [← hb]
    exact Nat.div_mul_le_self _ _
  have hj : (UInt64.ofNat (j * bpb)).toNat = j * bpb :=
    UInt64.toNat_ofNat_of_lt' (Nat.lt_of_le_of_lt hle b.toNat_lt)
  have ho : (UInt64.ofNat bpb).toNat = bpb := rfl
  have hdiv : b / UInt64.ofNat bpb = UInt64.ofNat (j * bpb) / UInt64.ofNat bpb := by
    refine UInt64.toNat_inj.mp ?_
    rw [UInt64.toNat_div, UInt64.toNat_div, ho, hj, hb, Nat.mul_div_cancel _ (by decide)]
  rw [Superblock.bblock, Superblock.bblock, hdiv]

theorem used_eq {b : UInt64} {j : Nat} (hb : b.toNat / bpb = j) :
    used sb s.blocks b =
      Block.bit (s.blocks (sb.bblock (UInt64.ofNat (j * bpb)))) (b.toNat % bpb) := by
  rw [used, bblock_eq hb]

/-- `Core` is about the blocks and the inode cache only. -/
theorem Core.of_eq {sb : Superblock} {s t : State} (h : Core sb s) (hb : t.blocks = s.blocks)
    (hi : t.icache = s.icache) : Core sb t ∧ place sb t = place sb s := by
  have hp : place sb t = place sb s :=
    place_of_blocks hi h (fun c _ => by rw [hb]) fun i _ => by rw [hb]
  exact ⟨h.of_blocks hi hp fun b _ hu => by rw [hb]; exact hu, hp⟩

/-- The scan of the map from block `j` of it on: the blocks before are used. -/
theorem ballocLoop_took {fuel j : Nat} (hfuel : env.sb.size.toNat < (fuel + j) * bpb)
    (hbefore : ∀ b : UInt64, b.toNat < env.sb.size.toNat → b.toNat < j * bpb →
      used env.sb s.blocks b = true) :
    Sat (ballocLoop env.sb fuel j env s)
      (fun b s' => (∃ n, Reads env s n s') ∧ Logged s {env.sb.bblock b, b} s' ∧ Took env.sb s b s')
      (fun m s' => Logged s ∅ s' ∧ s'.blocks = s.blocks ∧ s'.icache = s.icache ∧
        Refused env s m)
      (fun _ => ∃ n W, W.card ≤ 1 ∧ Denied env s n W) := by
  induction fuel generalizing s j with
  | zero =>
      refine Sat.throw ⟨.none rfl rfl, rfl, rfl, .inr ⟨rfl, fun b hb => hbefore b hb ?_⟩⟩
      rw [Nat.zero_add] at hfuel
      omega
  | succ fuel ih =>
      unfold ballocLoop
      refine Sat.ite (fun hend => Sat.throw ⟨.none rfl rfl, rfl, rfl, .inr ⟨rfl, fun b hb =>
        hbefore b hb (by omega)⟩⟩) fun hin => ?_
      refine Sat.bind (bread_sat _ |>.imp (fun _ _ h => h) (fun _ _ h => h) (fun _ h => h.elim))
        ?_ ?_
      · rintro m _ ⟨hno, rfl, rfl⟩
        exact ⟨logged_read, rfl, rfl, .inl ⟨rfl, s.reads, hno⟩⟩
      · rintro _ _ ⟨hok, rfl, rfl⟩
        have hr := reads_read hok
        cases hscan : ballocScan env.sb (s.blocks (env.sb.bblock (UInt64.ofNat (j * bpb))))
            (j * bpb) bpb 0 with
        | some bi =>
            obtain ⟨hbi, hlt, hbit⟩ := ballocScan_some hscan
            rw [Nat.zero_add] at hbi
            have hnat : (UInt64.ofNat (j * bpb + bi)).toNat = j * bpb + bi :=
              UInt64.toNat_ofNat_of_lt' (Nat.lt_trans hlt env.sb.size.toNat_lt)
            have hmod : (j * bpb + bi) % bpb = bi := by
              rw [Nat.mul_comm, Nat.mul_add_mod]
              exact Nat.mod_eq_of_lt hbi
            have hdiv : (UInt64.ofNat (j * bpb + bi)).toNat / bpb = j := by
              rw [hnat]
              simp only [bpb] at *
              omega
            have hunused : used env.sb s.blocks (UInt64.ofNat (j * bpb + bi)) = false := by
              rw [used_eq hdiv, hnat, hmod]
              exact hbit
            have hleast : ∀ c : UInt64, c.toNat < (UInt64.ofNat (j * bpb + bi)).toNat →
                used env.sb s.blocks c = true := by
              intro c hc
              rw [hnat] at hc
              by_cases hold : c.toNat < j * bpb
              · exact hbefore c (by omega) hold
              · have hcj : c.toNat / bpb = j := by
                  simp only [bpb] at *
                  omega
                rw [used_eq hcj]
                refine ballocScan_least hscan (Nat.zero_le _) ?_
                simp only [bpb] at *
                omega
            refine Sat.seq ((store_sat _ _).imp (fun _ _ h => h) (fun _ _ h => h.elim) ?_) ?_
            · exact fun _ hd => ⟨_, _, by simp, hd.after hr logged_read⟩
            · rintro _ s₁ ⟨-, hl₁, hb₁, hi₁, hn₁⟩
              have hr₁ := hr.trans (.none hn₁)
              have hl₁' := logged_read.trans hl₁
              refine Sat.seq ((bzero_sat _).imp (fun _ _ h => h) (fun _ _ h => h.elim) ?_) ?_
              · exact fun _ hd => ⟨_, _, by simp, hd.after hr₁ hl₁'⟩
              · rintro _ s₂ ⟨hr₂, hl₂, hb₂, hi₂⟩
                refine Sat.pure ⟨⟨_, hr₁.trans hr₂⟩, ?_, by rwa [hnat], hunused, hleast, ?_,
                  hi₂.trans hi₁⟩
                · rw [bblock_eq hdiv]
                  simpa using hl₁'.trans hl₂
                · rw [hb₂, hb₁, setUsed, bblock_eq hdiv, hnat, hmod]
                  rfl
        | none =>
            refine (ih (s := s.read) ?_ ?_).imp ?_ ?_ ?_
            · rw [Nat.add_assoc, Nat.add_comm 1] at hfuel
              exact hfuel
            · intro b hb hbj
              by_cases hold : b.toNat < j * bpb
              · exact hbefore b hb hold
              · have hdiv : b.toNat / bpb = j := by
                  simp only [bpb] at *
                  omega
                have hb' := Nat.div_add_mod b.toNat bpb
                rw [hdiv, Nat.mul_comm] at hb'
                rw [used_eq hdiv]
                exact ballocScan_none hscan (Nat.zero_le _)
                  (by have := Nat.mod_lt b.toNat (show 0 < bpb by decide); omega) (by omega)
            · rintro b s' ⟨⟨n, hr'⟩, hl', ht⟩
              exact ⟨⟨_, hr.trans hr'⟩, by simpa using logged_read.trans hl',
                ht.lt, ht.unused, ht.least, ht.blocks, ht.icache⟩
            · rintro m s' ⟨hl', hb', hi', hc⟩
              exact ⟨by simpa using logged_read.trans hl', hb', hi', hc⟩
            · rintro _ ⟨n, W, hW, hd⟩
              exact ⟨_, _, by simpa using hW, hd.after hr logged_read⟩

/-- `balloc` takes the first free block, unless there is none or a read fails. -/
theorem balloc_took (env : Env) (s : State) :
    Sat (balloc env s)
      (fun b s' => (∃ n, Reads env s n s') ∧ Logged s {env.sb.bblock b, b} s' ∧ Took env.sb s b s')
      (fun m s' => Logged s ∅ s' ∧ s'.blocks = s.blocks ∧ s'.icache = s.icache ∧
        Refused env s m)
      (fun _ => ∃ n W, W.card ≤ 1 ∧ Denied env s n W) := by
  refine Sat.env (ballocLoop_took ?_ fun b _ hb => by omega)
  have := Nat.div_add_mod env.sb.size.toNat bpb
  have := Nat.mod_lt env.sb.size.toNat (show 0 < bpb by decide)
  simp only [bpb] at *
  omega

/-- The block is not one of the format's own: these are marked as used. -/
theorem Took.grab {b : UInt64} {s' : State} (h : Took sb s b s') (hcore : Core sb s) :
    Grab sb s b s' := by
  refine ⟨⟨h.lt, fun hmeta => ?_⟩, h.unused, h.blocks, h.icache⟩
  have hused := hcore.formatUsed b hmeta h.lt
  rw [h.unused] at hused
  cases hused

theorem balloc_sat (h : Core env.sb s) :
    Sat (balloc env s)
      (fun b s' => (∃ n, Reads env s n s') ∧ Logged s {env.sb.bblock b, b} s' ∧ Grab env.sb s b s')
      (fun m s' => Logged s ∅ s' ∧ s'.blocks = s.blocks ∧ s'.icache = s.icache ∧
        Refused env s m)
      (fun _ => ∃ n W, W.card ≤ 1 ∧ Denied env s n W) :=
  (balloc_took env s).imp (fun _ _ hok => ⟨hok.1, hok.2.1, hok.2.2.grab h⟩) (fun _ _ he => he)
    fun _ hx => hx

end Balloc

end Rxv64.Fs
