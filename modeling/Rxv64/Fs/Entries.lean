import Rxv64.Fs.Sound

/-!
# Fs.Entries — reading and writing the entries of a directory

The loops over a directory against its file: what they read are the entries
that the file has, and a write at one of them leaves a directory that names
inodes of the table only.
-/

namespace Rxv64.Fs

open Layout Prog Places

variable {env : Env} {dense : Prop} {s s' : State} {e : Idx}

theorem Sound.live (h : Sound env.sb dense s) (hlock : (s.icache e).lock = some env.pid) :
    (s.icache e).Live := h.inv.locked e (by rw [hlock]; simp)

/-- **`readDirent`**: the entry, if there is one at the offset. -/
theorem readDirent_page (h : Sound env.sb dense s) (hlock : (s.icache e).lock = some env.pid)
    {k : Nat} (hk : direntSize * k < (s.icache e).dinode.size.toNat) :
    Sat (readDirent e (direntSize * k) env s)
      (fun d s' => Padded env dense e s s' ∧
        direntSize * k + direntSize ≤ (files env.sb s (s.icache e).inum).size.toNat ∧
        d = (files env.sb s (s.icache e).inum).dirent k)
      (fun _ s' => Padded env dense e s s') (fun m => m ≠ freeingFree) := by
  have hoff : (UInt64.ofNat (direntSize * k)).toNat = direntSize * k :=
    UInt64.toNat_ofNat_of_lt' (Nat.lt_trans hk (UInt64.toNat_lt _))
  refine Sat.seq (readi_page h hlock direntSize _) ?_
  intro bytes s' ⟨hp, _, hbytes⟩
  refine Sat.assert (fun _ => by decide) fun hlen => Sat.pure ⟨hp, ?_, ?_⟩
  · rw [hbytes, Node.length_read, hoff] at hlen
    rw [size_files h.inv.core (h.live hlock)]
    simp only [direntSize] at *
    omega
  · rw [hbytes, Node.length_read] at hlen
    rw [hbytes, hlen, hoff]
    rfl

/-- What a lookup returns: the inode that an entry of the directory names,
with a reference, and the offset of the entry. -/
def Found (env : Env) (dense : Prop) (e : Idx) (s : State) (r : Idx × Nat) (s' : State) : Prop :=
  ∃ k s₁, Padded env dense e s s₁ ∧
    Taken env dense ((files env.sb s (s.icache e).inum).dirent k).inum r.1 s₁ s' ∧
    r.2 = direntSize * k

/-- The loop of a lookup that was begun in `t`. -/
theorem dirLookupLoop_page {t : State} (h : Sound env.sb dense s)
    (hlock : (s.icache e).lock = some env.pid)
    (hdir : (files env.sb s (s.icache e).inum).typ = FileType.dir.toU32)
    (hp : Padded env dense e t s) {name : Name} {size fuel k : Nat}
    (hsize : size = (s.icache e).dinode.size.toNat) :
    Sat (dirLookupLoop e name size fuel k env s) (fun r s' => Found env dense e t r s')
      (fun _ s' => Padded env dense e t s') (fun m => m ≠ freeingFree) := by
  induction fuel generalizing s k with
  | zero => exact Sat.throw hp
  | succ fuel ih =>
      unfold dirLookupLoop
      refine Sat.ite (fun hlt => ?_) fun _ => Sat.throw hp
      refine Sat.bind (readDirent_page h hlock (hsize ▸ hlt)) (fun _ _ hp' => hp.trans hp') ?_
      rintro d s₁ ⟨hp₁, hin, hd⟩
      refine Sat.ite (fun hhit => ?_) fun _ => ?_
      · have hnames := h.names _ hdir k hin (hd ▸ hhit.1)
        rw [← hd] at hnames
        refine Sat.bind ((get_page hp₁.sound hnames).imp (fun _ _ h => h) (fun _ _ h => h)
          fun _ h => h.elim) (fun _ s' hs' => ?_) fun ip s' htake => ?_
        · rw [hs'.1]
          exact hp.trans hp₁
        · refine Sat.pure ⟨k, s₁, hp.trans hp₁, ?_, rfl⟩
          rw [hd, hp.files, hp.inum] at htake
          exact htake
      · refine ih hp₁.sound (hp₁.lock.trans hlock) ?_ (hp.trans hp₁) (hsize.trans ?_)
        · rw [hp₁.files, hp₁.inum]
          exact hdir
        · rw [hp₁.size]

/-- The type of a live inode is that of its file. -/
theorem Sound.typ_files {sb : Superblock} (h : Sound sb dense s) (hl : (s.icache e).Live) :
    (files sb s (s.icache e).inum).typ = (s.icache e).dinode.typ := by
  rw [(h.inv.core.allocated hl).files, current_live h.inv.core.uniq hl]

/-- **`dirLookupOffset`** of a locked directory. -/
theorem dirLookupOffset_page (h : Sound env.sb dense s)
    (hlock : (s.icache e).lock = some env.pid) (name : Name) :
    Sat (dirLookupOffset e name env s) (fun r s' => Found env dense e s r s')
      (fun _ s' => Padded env dense e s s') (fun m => m ≠ freeingFree) := by
  refine Sat.bind typ_page (fun _ _ h => h.elim) ?_
  intro t s₁ ⟨hs₁, ht⟩
  subst hs₁
  refine Sat.assert (fun _ => by decide) fun hdir => Sat.gets ?_
  refine dirLookupLoop_page h hlock ?_ (.of_eq h rfl rfl) rfl
  rw [h.typ_files (h.live hlock), FileType.eq_of_ofU32 ht, hdir]

/-- The loop of `dir_link` for a free entry, begun in `t`. -/
theorem freeSlotLoop_page {t : State} (h : Sound env.sb dense s)
    (hlock : (s.icache e).lock = some env.pid) (hp : Padded env dense e t s) {fuel k : Nat} :
    Sat (freeSlotLoop e fuel (direntSize * k) env s)
      (fun off s' => Padded env dense e t s' ∧ ∃ k, off = direntSize * k)
      (fun _ s' => Padded env dense e t s') (fun m => m ≠ freeingFree) := by
  induction fuel generalizing s k with
  | zero => exact Sat.pure ⟨hp, k, rfl⟩
  | succ fuel ih =>
      refine Sat.gets (Sat.ite (fun hlt => ?_) fun _ => Sat.pure ⟨hp, k, rfl⟩)
      refine Sat.bind (readDirent_page h hlock hlt) (fun _ _ hp' => hp.trans hp') ?_
      intro d s₁ ⟨hp₁, _, _⟩
      refine Sat.ite (fun _ => Sat.pure ⟨hp.trans hp₁, k, rfl⟩) fun _ => ?_
      exact ih hp₁.sound (hp₁.lock.trans hlock) (hp.trans hp₁) (k := k + 1)

/-- The loop of `is_unlinkable`, begun in `t`. -/
theorem isUnlinkableLoop_page {t : State} (h : Sound env.sb dense s)
    (hlock : (s.icache e).lock = some env.pid) (hp : Padded env dense e t s) {size fuel k : Nat}
    (hsize : size = (s.icache e).dinode.size.toNat) :
    Sat (isUnlinkableLoop e size fuel k env s) (fun _ s' => Padded env dense e t s')
      (fun _ s' => Padded env dense e t s') (fun m => m ≠ freeingFree) := by
  induction fuel generalizing s k with
  | zero => exact Sat.pure hp
  | succ fuel ih =>
      unfold isUnlinkableLoop
      refine Sat.ite (fun hlt => ?_) fun _ => Sat.pure hp
      refine Sat.bind (readDirent_page h hlock (hsize ▸ hlt)) (fun _ _ hp' => hp.trans hp') ?_
      intro d s₁ ⟨hp₁, _, _⟩
      refine Sat.ite (fun _ => Sat.pure (hp.trans hp₁)) fun _ => ?_
      exact ih hp₁.sound (hp₁.lock.trans hlock) (hp.trans hp₁) (hsize.trans (by rw [hp₁.size]))

theorem isUnlinkable_page (h : Sound env.sb dense s) (hlock : (s.icache e).lock = some env.pid) :
    Sat (isUnlinkable e env s) (fun _ s' => Padded env dense e s s')
      (fun _ s' => Padded env dense e s s') (fun m => m ≠ freeingFree) := by
  have hp : Padded env dense e s s := .of_eq h rfl rfl
  refine Sat.bind typ_page (fun _ _ h => h.elim) ?_
  intro t s₁ ⟨hs₁, _⟩
  subst hs₁
  exact Sat.ite (fun _ => Sat.gets (isUnlinkableLoop_page h hlock hp rfl)) fun _ => Sat.pure hp

/-! ## Writing an entry -/

/-- A file that was not a directory, or the entry of a directory, was
written. -/
theorem Sound.written {off : Nat} {src : List UInt8} (h : Sound env.sb dense s)
    (hw : Written env e s off src s')
    (hinv : Inv env.sb dense Set.univ s')
    (hnames : (files env.sb s (s.icache e).inum).typ = FileType.dir.toU32 →
      (files env.sb s' (s.icache e).inum).Names env.sb.ninodes.toNat) : Sound env.sb dense s' := by
  refine h.of_one hinv (fun j hj => by rw [hw.files, Function.update_of_ne hj]) fun ht => ?_
  rw [hw.files, Function.update_self] at ht
  exact hnames ht

/-- A directory names inodes of the table after an entry was written. -/
theorem Written.names {k : Nat} {src : List UInt8} (h : Sound env.sb dense s)
    (hl : (s.icache e).Live) (hw : Written env e s (direntSize * k) src s')
    (hoff : direntSize * k ≤ (s.icache e).dinode.size.toNat)
    (hfit : direntSize * k + src.length ≤ maxFile * bsize) (hlen : src.length = direntSize)
    (hsrc : (Dirent.codec.decode src).inum ≠ 0 →
      (Dirent.codec.decode src).inum.toNat < env.sb.ninodes.toNat)
    (ht : (Fs.files env.sb s (s.icache e).inum).typ = FileType.dir.toU32) :
    (Fs.files env.sb s' (s.icache e).inum).Names env.sb.ninodes.toNat := by
  have hsize : (Fs.files env.sb s (s.icache e).inum).size = (s.icache e).dinode.size :=
    size_files h.inv.core hl
  rw [hw.files, Function.update_self]
  refine (h.names _ ht).write hlen (by rw [hsize]; exact hoff) hsrc ?_
  rw [hsize]
  refine UInt64.toNat_ofNat_of_lt' (Nat.max_lt.mpr ⟨UInt64.toNat_lt _, ?_⟩)
  exact Nat.lt_of_le_of_lt hfit (by decide)

/-- **A write of an entry**: the directory names inodes of the table
afterwards, whether it succeeds or fails. -/
theorem writeEntry_sound {src : List UInt8} {off : UInt64} (h : Sound env.sb dense s)
    (hlock : (s.icache e).lock = some env.pid) (hlen : src.length = direntSize)
    (hoff : off.toNat % direntSize = 0)
    (hsrc : (Dirent.codec.decode src).inum ≠ 0 →
      (Dirent.codec.decode src).inum.toNat < env.sb.ninodes.toNat) :
    Sat (writei e src off env s) (fun _ s' => Sound env.sb dense s')
      (fun _ s' => Sound env.sb dense s') (fun m => m ≠ freeingFree) := by
  have hl := h.live hlock
  obtain ⟨k, hk⟩ : ∃ k, off.toNat = direntSize * k :=
    ⟨off.toNat / direntSize, by rw [Nat.mul_div_cancel' (Nat.dvd_of_mod_eq_zero hoff)]⟩
  have hrun := writei_rewrites h hlock src off
  rw [hk] at hrun
  refine hrun.imp ?_ ?_ fun _ h => h
  · intro _ s' ⟨_, hle, hfit, hw, hinv⟩
    have hle' := UInt64.le_iff_toNat_le.mp hle
    rw [hk] at hle'
    exact h.written hw hinv (hw.names h hl hle' hfit hlen hsrc)
  · intro _ s' hb
    cases hb with
    | padded hp => exact hp.sound
    | stopped hlong =>
        rw [hlen] at hlong
        simp only [direntSize, bsize] at hlong
        omega
    | unsized _ hle hfit hw hinv => exact h.written hw hinv (hw.names h hl hle hfit hlen hsrc)

/-- A write to a file that is not a directory. -/
theorem writei_sound {src : List UInt8} {off : UInt64} (h : Sound env.sb dense s)
    (hlock : (s.icache e).lock = some env.pid)
    (hfile : (s.icache e).dinode.typ ≠ FileType.dir.toU32) :
    Sat (writei e src off env s) (fun _ s' => Sound env.sb dense s')
      (fun _ s' => Sound env.sb dense s') (fun m => m ≠ freeingFree) := by
  have hl := h.live hlock
  rw [← h.typ_files hl] at hfile
  refine (writei_rewrites h hlock src off).imp ?_ ?_ fun _ h => h
  · exact fun _ s' ⟨_, _, _, hw, hinv⟩ => h.written hw hinv fun ht => absurd ht hfile
  · intro _ s' hb
    cases hb with
    | padded hp => exact hp.sound
    | stopped _ hg hf =>
        refine h.of_one (h.inv.grown hl hg) hf fun ht => absurd ?_ hfile
        rw [← ht, h.typ_files hl]
        obtain ⟨A, hA⟩ := hg.entry
        rw [← hg.inum, (hg.core.allocated (hg.live hl)).files,
          current_live hg.core.uniq (hg.live hl), hA]
    | unsized _ _ _ hw hinv => exact h.written hw hinv fun ht => absurd ht hfile

end Rxv64.Fs
