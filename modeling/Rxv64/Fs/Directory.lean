import Rxv64.Lib.Slots
import Rxv64.Fs.Ownership

/-!
# Fs.Directory — a directory is a finite map

A directory stands for the map from its names to inode numbers. Looking a name
up reads the map, `dir_link` adds a name that is not there and `dir_unlink`
takes one out, each without touching the other names.

That `dir_link` tells a missing name from any other failure of the lookup is
not in the code, so two things are assumed of its calls: their block reads
find buffers, and the inode cache has an entry to spare.
-/

namespace Rxv64.Fs

open Layout Prog Places

/-! ## The map of a directory -/

/-- Entry `k`, if it is in use. -/
def Node.slot (f : Node) (k : Nat) : Option (Name × UInt64) :=
  if (f.dirent k).inum = 0 then none else some ((f.dirent k).name, (f.dirent k).inum)

def Node.slots (f : Node) : Nat := f.size.toNat / direntSize

/-- The file is a directory in which `M` says what each name stands for. -/
structure Node.Directory (f : Node) (M : Name → Option UInt64) : Prop where
  typ : f.typ = FileType.dir.toU32
  whole : f.size.toNat % direntSize = 0
  holds : Slots.Holds f.slot f.slots M

/-- Names that an entry has room for. -/
def Storable (name : Name) : Prop := name.length ≤ dirSiz ∧ 0 ∉ name

instance (name : Name) : Decidable (Storable name) := inferInstanceAs (Decidable (_ ∧ _))

theorem Node.slot_eq_none {f : Node} {k : Nat} : f.slot k = none ↔ (f.dirent k).inum = 0 := by
  unfold Node.slot
  split <;> simp_all

theorem Node.slot_eq_some {f : Node} {k : Nat} {name : Name} {i : UInt64} :
    f.slot k = some (name, i) ↔
      (f.dirent k).inum ≠ 0 ∧ (f.dirent k).name = name ∧ (f.dirent k).inum = i := by
  unfold Node.slot
  split <;> simp_all

/-- An entry keeps a name that it has room for. -/
theorem newDirent_name {name : Name} {inum : UInt64} (h : Storable name) :
    (newDirent name inum).name = name := by
  have hbytes : List.ofFn (newDirent name inum).nameBytes =
      name ++ List.replicate (dirSiz - name.length) 0 := by
    refine List.ext_getElem ?_ fun j hj hj' => ?_
    · rw [List.length_ofFn, List.length_append, List.length_replicate, Nat.add_sub_cancel' h.1]
    · rw [List.getElem_ofFn, List.getElem_append]
      show name.getD j 0 = _
      split
      · next hlt => rw [List.getD_eq_getElem _ _ hlt]
      · next hge => rw [List.getD_eq_default _ _ (Nat.not_lt.mp hge), List.getElem_replicate]
  rw [Dirent.name, hbytes, List.takeWhile_append_of_pos]
  · rw [List.takeWhile_replicate]
    simp
  · intro b hb
    have hne : b ≠ 0 := fun h0 => h.2 (h0 ▸ hb)
    simpa using hne

namespace Node.Directory

variable {f : Node} {M : Name → Option UInt64} {k : Nat} {name : Name} {inum i z : UInt64}

theorem size_eq (h : f.Directory M) : f.size.toNat = direntSize * f.slots := by
  have hw := h.whole
  unfold Node.slots
  simp only [direntSize] at *
  omega

/-- **A name is added** in a free entry, or behind the last one. -/
theorem link (h : f.Directory M) (hname : Storable name) (hinum : inum ≠ 0) (hnew : M name = none)
    (hk : k ≤ f.slots) (hfree : k < f.slots → f.slot k = none)
    (hz : z.toNat = max f.size.toNat (direntSize * k + direntSize)) :
    Node.Directory { f.write (direntSize * k) (Dirent.codec.encode (newDirent name inum)) with
      size := z } (Function.update M name (some inum)) := by
  have hsize := h.size_eq
  have hslots : Node.slots { f.write (direntSize * k)
      (Dirent.codec.encode (newDirent name inum)) with size := z } = max f.slots (k + 1) := by
    show z.toNat / direntSize = _
    rw [hz, hsize]
    simp only [direntSize]
    omega
  refine ⟨h.typ, ?_, h.holds.insert hnew hslots hk hfree ?_ fun j _ hj => ?_⟩
  · show z.toNat % direntSize = 0
    rw [hz, hsize]
    simp only [direntSize]
    omega
  · rw [Node.slot_eq_some, dirent_write (Dirent.codec.length_encode _), if_pos rfl,
      Codec.decode_encode]
    exact ⟨hinum, newDirent_name hname, rfl⟩
  · unfold Node.slot
    rw [dirent_write (Dirent.codec.length_encode _), if_neg hj]

/-- **A name is taken out**: its entry is zeroed. -/
theorem unlink (h : f.Directory M) (hk : k < f.slots) (hs : f.slot k = some (name, i))
    (hz : z = f.size) :
    Node.Directory { f.write (direntSize * k) (List.replicate direntSize 0) with size := z }
      (Function.update M name none) := by
  refine ⟨h.typ, ?_, ?_⟩
  · show z.toNat % direntSize = 0
    rw [hz]
    exact h.whole
  · have hslots : Node.slots { f.write (direntSize * k) (List.replicate direntSize 0) with
        size := z } = f.slots := by
      show z.toNat / direntSize = _
      rw [hz]
      rfl
    rw [hslots]
    refine h.holds.erase hk hs ?_ fun j _ hj => ?_
    · rw [Node.slot_eq_none, dirent_write (List.length_replicate ..), if_pos rfl, decode_zero]
    · unfold Node.slot
      rw [dirent_write (List.length_replicate ..), if_neg hj]

/-- The map does not depend on the rest of the header. -/
theorem header (h : f.Directory M) (a b n : UInt32) :
    Node.Directory { f with major := a, minor := b, nlink := n } M := ⟨h.typ, h.whole, h.holds⟩

end Node.Directory

/-! ## What a call sees of a directory -/

section Sees

variable {env : Env} {e ip : Idx} {i : UInt64} {m : Marks} {f : Node} {s s' : State}

/-- What a call does, with what it does to the marks. -/
theorem Tri.sat {α : Type} {p : FsM α} {Q : α → Marks → Prop} {E : Marks → Prop}
    {Q' : α → State → Prop} {E' : String → State → Prop} {X : String → Prop}
    (ht : Tri env m p Q E) (hm : marks s = m) (h : Sat (p env s) Q' E' X) :
    Sat (p env s) (fun a s' => Q' a s' ∧ Q a (marks s')) (fun t s' => E' t s' ∧ E (marks s'))
      X :=
  (h.and (ht s hm)).imp (fun _ _ h => h) (fun _ _ h => h) fun _ h => h.1

/-- Entry `e` is referenced and stands for inode `i`, whose file is `f`. -/
structure Sees (env : Env) (e : Idx) (i : UInt64) (m : Marks) (f : Node) (s : State) : Prop where
  sound : Sound env.sb True s
  marks : Fs.marks s = m
  ref : 0 < m.refs e
  inum : (s.icache e).inum = i
  file : files env.sb s i = f

namespace Sees

theorem refCnt (h : Sees env e i m f s) (e' : Idx) : (s.icache e').refCnt = m.refs e' := by
  rw [← h.marks]
  rfl

theorem lock_eq (h : Sees env e i m f s) (e' : Idx) : (s.icache e').lock = m.locks e' := by
  rw [← h.marks]
  rfl

/-- Only the count of reads is another. -/
theorem idle (h : Sees env e i m f s) (hs : Idle s s') : Sees env e i m f s' where
  sound := h.sound.of_eq hs.blocks hs.icache
  marks := by rw [← h.marks, Fs.marks, Fs.marks, hs.icache]
  ref := h.ref
  inum := by rw [hs.icache, h.inum]
  file := by rw [hs.files h.sound.inv.core, h.file]

/-- Another entry that is referenced stands for another inode. -/
theorem inum_ne (h : Sees env e i m f s) (hne : ip ≠ e) (href : 0 < m.refs ip) :
    (s.icache ip).inum ≠ i := by
  intro heq
  refine hne (h.sound.inv.core.uniq ip e ?_ ?_ (heq.trans h.inum.symm))
  · rw [h.refCnt]
    exact href
  · rw [h.refCnt]
    exact h.ref

protected theorem lock (h : Sees env e i m f s) (ip : Idx) :
    Sat (lock ip env s)
      (fun _ s' => m.locks ip = none ∧ Sees env e i (m.setLock ip (some env.pid)) f s')
      (fun _ _ => False) (fun _ => True) := by
  refine ((tri_lock (E := fun _ => True) ip).sat h.marks (lock_page h.sound.inv.core)).imp ?_
    (fun _ _ h => h.1) fun _ _ => trivial
  intro _ s' ⟨⟨hlocked, _⟩, hnone, hm⟩
  refine ⟨hnone, hlocked.sound h.sound, hm, h.ref, ?_, ?_⟩
  · by_cases he : e = ip
    · rw [he, hlocked.inum, ← he, h.inum]
    · rw [hlocked.other e he, h.inum]
  · rw [hlocked.same.files, h.file]

protected theorem dup (h : Sees env e i m f s) :
    Sat (dup e env s) (fun _ s' => Sees env e i (m.take e) f s') (fun _ _ => False)
      (fun _ => True) := by
  have href : 0 < (s.icache e).refCnt := by
    rw [h.refCnt]
    exact h.ref
  obtain ⟨hsame, hsound⟩ := h.sound.retain href
  have hrun : Sat (Fs.dup e env s)
      (fun _ s' => s' = s.setInode e { s.icache e with refCnt := (s.icache e).refCnt + 1 })
      (fun _ _ => False) (fun _ => True) := ⟨rfl⟩
  refine ((tri_dup (E := fun _ => True) e).sat h.marks hrun).imp ?_ (fun _ _ h => h.1) fun _ h => h
  intro _ s' ⟨hs', hm⟩
  subst hs'
  refine ⟨hsound, hm, by simp [Marks.take], ?_, ?_⟩
  · rw [icache_setInode, Function.update_self, h.inum]
  · rw [hsame.files, h.file]

/-- A reference to another inode, or not the last one to the directory, is
given back. -/
protected theorem put (hfree : ∀ k, env.freeReadOk k = true) (h : Sees env e i (m.take ip) f s)
    (href : 0 < m.refs e) :
    Sat (put ip env s) (fun _ s' => Sees env e i m f s') (fun _ _ => False) (fun _ => True) := by
  refine ((tri_put (E := fun _ => True) hfree ip).sat h.marks (put_sat hfree h.sound.inv)).imp ?_
    (fun _ _ h => h.1) fun _ _ => trivial
  intro _ s' ⟨hback, _, hm⟩
  refine ⟨h.sound.shed hback.inv hback.shed, hm, href, (hback.inums e).trans h.inum, ?_⟩
  by_cases he : ip = e
  · rw [hback.shared, h.file]
    rw [h.refCnt, he]
    simp [Marks.take]
    omega
  · rw [hback.shed.other i, h.file]
    exact (h.inum_ne he (by simp [Marks.take])).symm

theorem unlock (h : Sees env e i (m.setLock ip (some env.pid)) f s) (hm : m.locks ip = none) :
    Sat (unlock ip env s) (fun _ s' => Sees env e i m f s') (fun _ _ => False)
      (fun _ => True) := by
  refine ((tri_unlock (E := fun _ => True) ip).sat h.marks unlock_sat).imp ?_
    (fun _ _ h => h.1) fun _ _ => trivial
  intro _ s' ⟨⟨_, hs'⟩, _, hm'⟩
  have hsame : Same env.sb s s' := by
    rw [hs']
    exact h.sound.inv.core.unlock ip none
  refine ⟨?_, by rw [hm', Marks.setLock_none m _ hm], h.ref, ?_, by rw [hsame.files, h.file]⟩
  · rw [hs']
    exact h.sound.unlock ip
  · rw [hs', icache_setInode]
    by_cases he : e = ip
    · rw [← he, Function.update_self, h.inum]
    · rw [Function.update_of_ne he, h.inum]

protected theorem unlockPut (hfree : ∀ k, env.freeReadOk k = true)
    (h : Sees env e i ((m.take ip).setLock ip (some env.pid)) f s) (hm : m.locks ip = none)
    (href : 0 < m.refs e) :
    Sat (unlockPut ip env s) (fun _ s' => Sees env e i m f s') (fun _ _ => False)
      (fun _ => True) :=
  Sat.seq (h.unlock hm) fun _ _ h' => h'.put hfree href

theorem dropGuard (hfree : ∀ k, env.freeReadOk k = true)
    (h : Sees env e i ((m.take ip).setLock ip (some env.pid)) f s) (hm : m.locks ip = none)
    (href : 0 < m.refs e) :
    Sat (dropGuard ip env s) (fun _ s' => Sees env e i m f s') (fun _ _ => False)
      (fun _ => True) :=
  Sat.ignore ((h.unlockPut hfree hm href).imp (fun _ _ h => h) (fun _ _ h => h.elim) fun _ h => h)

/-- The references to the entries that stay are to the same inodes. -/
theorem unlockPut_inum (hfree : ∀ k, env.freeReadOk k = true)
    (h : Sees env e i ((m.take ip).setLock ip (some env.pid)) f s) (hm : m.locks ip = none)
    (href : 0 < m.refs e) :
    Sat (Fs.unlockPut ip env s)
      (fun _ s' => Sees env e i m f s' ∧ ∀ e', (s'.icache e').inum = (s.icache e').inum)
      (fun _ _ => False) (fun _ => True) := by
  have hinum : Sat (Fs.unlockPut ip env s)
      (fun _ s' => ∀ e', (s'.icache e').inum = (s.icache e').inum) (fun _ _ => False)
      (fun _ => True) := by
    refine Sat.seq (unlock_sat.imp (fun _ _ h => h) (fun _ _ h => h) fun _ _ => trivial) ?_
    intro _ s₁ ⟨_, hs₁⟩
    have hsound : Sound env.sb True s₁ := by
      rw [hs₁]
      exact h.sound.unlock ip
    refine (put_sat hfree hsound.inv).imp (fun _ s' hback e' => ?_) (fun _ _ h => h)
      fun _ _ => trivial
    rw [hback.inums, hs₁, icache_setInode]
    by_cases he : e' = ip
    · rw [he, Function.update_self]
    · rw [Function.update_of_ne he]
  exact ((h.unlockPut hfree hm href).and hinum).imp (fun _ _ h => h) (fun _ _ h => h.1)
    fun _ _ => trivial

end Sees

/-! ## Looking up -/

section Reading

variable {M : Name → Option UInt64} {name : Name} {k : Nat}
  (hread : ∀ k, env.readOk k = true) (hlock : m.locks e = some env.pid)

include hread hlock

omit hread in
theorem Sees.size (h : Sees env e i m f s) : (s.icache e).dinode.size = f.size := by
  rw [← h.file, ← h.inum, size_files h.sound.inv.core (h.sound.live (by rw [h.lock_eq, hlock]))]

theorem Sees.readDirent (h : Sees env e i m f s) (hd : f.Directory M) (hk : k < f.slots) :
    Sat (readDirent e (direntSize * k) env s) (fun d s' => d = f.dirent k ∧ Sees env e i m f s')
      (fun _ _ => False) (fun _ => False) := by
  have hlock' : (s.icache e).lock = some env.pid := by rw [h.lock_eq, hlock]
  have hsize := h.size hlock
  have hin : direntSize * k + direntSize ≤ f.size.toNat := by
    rw [hd.size_eq]
    simp only [direntSize] at *
    omega
  have hoff : (UInt64.ofNat (direntSize * k)).toNat = direntSize * k :=
    UInt64.toNat_ofNat_of_lt' (Nat.lt_of_le_of_lt (Nat.le_of_add_right_le hin) (UInt64.toNat_lt _))
  have hrun := readiWith_sat balloc h.sound.inv.core (h.sound.live hlock') hlock' (h.sound.solid _)
    direntSize (UInt64.ofNat (direntSize * k))
  have hbytes : Sat (readi e direntSize (UInt64.ofNat (direntSize * k)) env s)
      (fun bytes s' => bytes = f.read (direntSize * k) direntSize ∧ Sees env e i m f s')
      (fun _ _ => False) (fun _ => False) := by
    refine hrun.imp ?_ ?_ fun _ h => h
    · intro bytes s' ⟨_, hb, hidle⟩
      refine ⟨?_, h.idle hidle⟩
      rw [hb, hoff, h.inum, h.file, hsize, Nat.min_eq_left (by omega)]
    · intro t s' ⟨hwhy, _⟩
      obtain ⟨-, hbeyond⟩ | ⟨-, hwrap⟩ | ⟨-, j, hj⟩ := hwhy
      · rw [UInt64.lt_iff_toNat_lt, hoff, hsize] at hbeyond
        omega
      · rw [UInt64.lt_iff_toNat_lt, UInt64.toNat_add, hoff] at hwrap
        have hlt := UInt64.toNat_lt f.size
        have h32 : (UInt64.ofNat direntSize).toNat = direntSize := rfl
        rw [h32, Nat.mod_eq_of_lt (by omega)] at hwrap
        omega
      · rw [hread] at hj
        cases hj
  refine Sat.seq hbytes fun bytes s' ⟨hb, hs'⟩ => Sat.assert (fun hno => ?_) fun _ => ?_
  · exact hno (by rw [hb, Node.length_read])
  · exact Sat.pure ⟨by rw [hb]; rfl, hs'⟩

omit hread hlock in
/-- `get` finds an entry for the directory itself in a full cache too. -/
theorem Sees.get (h : Sees env e i m f s) {j : UInt64} (hj : j.toNat < env.sb.ninodes.toNat)
    (hroom : j = i ∨ ∃ e', m.refs e' = 0) :
    Sat (get j env s) (fun ip s' => Sees env e i (m.take ip) f s' ∧ (s'.icache ip).inum = j)
      (fun _ _ => False) (fun _ => False) := by
  refine ((tri_get j).sat h.marks (get_page h.sound hj)).imp ?_ ?_ fun _ h => h
  · intro ip s' ⟨htake, hm⟩
    refine ⟨⟨htake.sound, hm, Nat.lt_of_lt_of_le h.ref (Nat.le_add_right _ _), ?_,
      by rw [htake.same.files, h.file]⟩, htake.inum⟩
    by_cases he : e = ip
    · obtain ⟨hi, hself⟩ := htake.held (by rw [← he, h.refCnt]; exact h.ref)
      rw [he, hself, ← he, h.inum]
    · rw [htake.other e he, h.inum]
  · intro t s' ⟨⟨_, hall⟩, _⟩
    obtain rfl | ⟨e', he'⟩ := hroom
    · exact (hall e).2 h.inum
    · have hpos := (hall e').1
      rw [h.refCnt, he'] at hpos
      exact Nat.lt_irrefl 0 hpos

omit hread in
theorem Sees.typ (h : Sees env e i m f s) (hd : f.Directory M) :
    typ e env s = .ok .dir s := by
  have ht : (s.icache e).dinode.typ = FileType.dir.toU32 := by
    rw [← h.sound.typ_files (h.sound.live (by rw [h.lock_eq, hlock])), h.inum, h.file, hd.typ]
  have hip : inode e env s = .ok (s.icache e) s := rfl
  unfold Fs.typ
  rw [bind_ok hip, ht]
  rfl

/-- The loop of a lookup at entry `k`, the name not being in those before. -/
theorem Sees.dirLookupLoop (h : Sees env e i m f s) (hd : f.Directory M)
    (hroom : M name = some i ∨ ∃ e', m.refs e' = 0) {size fuel : Nat} (hsize : size = f.size.toNat)
    (hfuel : f.slots < k + fuel) (hpast : ∀ j < k, ∀ v, f.slot j ≠ some (name, v)) :
    Sat (dirLookupLoop e name size fuel k env s)
      (fun r s' => Sees env e i (m.take r.1) f s' ∧ ∃ j < f.slots,
        f.slot j = some (name, (s'.icache r.1).inum) ∧ r.2 = direntSize * j)
      (fun t s' => Sees env e i m f s' ∧ t = "file not found" ∧ M name = none)
      (fun _ => False) := by
  have hend : f.slots ≤ k → M name = none := fun hk =>
    hd.holds.absent fun j hj => hpast j (Nat.lt_of_lt_of_le hj hk)
  induction fuel generalizing k s with
  | zero => exact Sat.throw ⟨h, rfl, hend (Nat.le_of_lt hfuel)⟩
  | succ fuel ih =>
      have hlt : direntSize * k < size ↔ k < f.slots := by
        rw [hsize, hd.size_eq]
        exact Nat.mul_lt_mul_left (by decide)
      unfold Fs.dirLookupLoop
      refine Sat.ite (fun hk => ?_) fun hk => ?_
      · have hk' := hlt.mp hk
        refine Sat.bind (h.readDirent hread hlock hd hk') (fun _ _ h => h.elim) ?_
        rintro d s₁ ⟨hdirent, h₁⟩
        subst hdirent
        refine Sat.ite (fun hhit => ?_) fun hmiss => ?_
        · have hin : direntSize * k + direntSize ≤ f.size.toNat := by
            rw [hd.size_eq]
            simp only [direntSize] at *
            omega
          have hrange : (f.dirent k).inum.toNat < env.sb.ninodes.toNat := by
            have hnames := h.sound.names i (by rw [h.file]; exact hd.typ)
            rw [h.file] at hnames
            exact hnames k hin hhit.1
          have hslot : f.slot k = some (name, (f.dirent k).inum) :=
            Node.slot_eq_some.mpr ⟨hhit.1, hhit.2, rfl⟩
          have hroom' : (f.dirent k).inum = i ∨ ∃ e', m.refs e' = 0 := hroom.imp_left fun hself =>
            Option.some.inj ((hd.holds.found hk' hslot).symm.trans hself)
          refine Sat.bind (h₁.get hrange hroom') (fun _ _ h => h.elim) ?_
          rintro ip s₂ ⟨h₂, hip⟩
          exact Sat.pure ⟨h₂, k, hk', hip ▸ hslot, rfl⟩
        · have hpast' : ∀ j < k + 1, ∀ v, f.slot j ≠ some (name, v) := by
            intro j hj v hs
            obtain hj' | rfl := Nat.lt_succ_iff_lt_or_eq.mp hj
            · exact hpast j hj' v hs
            · obtain ⟨hne, hn, -⟩ := Node.slot_eq_some.mp hs
              exact hmiss ⟨hne, hn⟩
          exact ih h₁ (by omega) hpast' fun hk'' =>
            hd.holds.absent fun j hj => hpast' j (Nat.lt_of_lt_of_le hj hk'')
      · exact Sat.throw ⟨h, rfl, hend (Nat.not_lt.mp fun hk' => hk (hlt.mpr hk'))⟩

/-- **`dirLookupOffset` reads the map.** -/
theorem Sees.dirLookupOffset (h : Sees env e i m f s) (hd : f.Directory M) (name : Name)
    (hroom : M name = some i ∨ ∃ e', m.refs e' = 0) :
    Sat (dirLookupOffset e name env s)
      (fun r s' => Sees env e i (m.take r.1) f s' ∧ ∃ j < f.slots,
        f.slot j = some (name, (s'.icache r.1).inum) ∧ r.2 = direntSize * j)
      (fun t s' => Sees env e i m f s' ∧ t = "file not found" ∧ M name = none)
      (fun _ => False) := by
  refine Sat.bind_ok (h.typ hlock hd) ?_
  refine Sat.assert (fun hno => hno rfl) fun _ => Sat.gets ?_
  refine h.dirLookupLoop hread hlock hd hroom (by rw [h.size hlock]) ?_ fun j hj =>
    absurd hj (Nat.not_lt_zero j)
  rw [h.size hlock, Nat.zero_add]
  exact Nat.lt_succ_self _

theorem Sees.dirLookup (h : Sees env e i m f s) (hd : f.Directory M) (name : Name)
    (hroom : M name = some i ∨ ∃ e', m.refs e' = 0) :
    Sat (dirLookup e name env s)
      (fun ip s' => Sees env e i (m.take ip) f s' ∧ M name = some (s'.icache ip).inum)
      (fun t s' => Sees env e i m f s' ∧ t = "file not found" ∧ M name = none)
      (fun _ => False) :=
  Sat.seq (h.dirLookupOffset hread hlock hd name hroom) fun _ _ ⟨h', _, hj, hs, _⟩ =>
    Sat.pure ⟨h', hd.holds.found hj hs⟩

end Reading

/-! ## Adding and removing names -/

section Writing

variable {M : Name → Option UInt64} {name : Name} {k : Nat}
  (hread : ∀ k, env.readOk k = true) (hlock : m.locks e = some env.pid)

include hread hlock

/-- The loop of `dir_link` finds the first free entry, or the end. -/
theorem Sees.freeSlotLoop (h : Sees env e i m f s) (hd : f.Directory M) {fuel : Nat}
    (hfuel : f.slots < k + fuel) (hk : k ≤ f.slots) :
    Sat (freeSlotLoop e fuel (direntSize * k) env s)
      (fun off s' => Sees env e i m f s' ∧ ∃ j ≤ f.slots, off = direntSize * j ∧
        (j < f.slots → f.slot j = none))
      (fun _ _ => False) (fun _ => True) := by
  induction fuel generalizing k s with
  | zero => exact absurd hfuel (Nat.not_lt.mpr hk)
  | succ fuel ih =>
      have hlt : direntSize * k < (s.icache e).dinode.size.toNat ↔ k < f.slots := by
        rw [h.size hlock, hd.size_eq]
        exact Nat.mul_lt_mul_left (by decide)
      refine Sat.gets (Sat.ite (fun hin => ?_) fun hout => ?_)
      · have hk' := hlt.mp hin
        refine Sat.bind ((h.readDirent hread hlock hd hk').imp (fun _ _ h => h) (fun _ _ h => h)
          fun _ h => h.elim) (fun _ _ h => h.elim) ?_
        intro d s₁ ⟨hdirent, h₁⟩
        subst hdirent
        refine Sat.ite (fun hzero => ?_) fun _ => ?_
        · exact Sat.pure ⟨h₁, k, hk, rfl, fun _ => Node.slot_eq_none.mpr hzero⟩
        · exact ih h₁ (by omega) hk'
      · exact Sat.pure ⟨h, k, hk, rfl, fun hk' => absurd (hlt.mpr hk') hout⟩

/-- An entry is written, or the directory stays as it is. -/
theorem Sees.writeEntry (h : Sees env e i m f s) (hd : f.Directory M) (hk : k ≤ f.slots)
    {src : List UInt8} (hlen : src.length = direntSize)
    (hsrc : (Dirent.codec.decode src).inum ≠ 0 →
      (Dirent.codec.decode src).inum.toNat < env.sb.ninodes.toNat) :
    Sat (writei e src (UInt64.ofNat (direntSize * k)) env s)
      (fun _ s' => ∃ z : UInt64, z.toNat = max f.size.toNat (direntSize * k + direntSize) ∧
        Sees env e i m { f.write (direntSize * k) src with size := z } s')
      (fun _ s' => Sees env e i m f s') (fun _ => True) := by
  have hlock' : (s.icache e).lock = some env.pid := by rw [h.lock_eq, hlock]
  have hsize := h.size hlock
  have hle : direntSize * k ≤ f.size.toNat := by
    rw [hd.size_eq]
    exact Nat.mul_le_mul_left _ hk
  have hoff : (UInt64.ofNat (direntSize * k)).toNat = direntSize * k :=
    UInt64.toNat_ofNat_of_lt' (Nat.lt_of_le_of_lt hle (UInt64.toNat_lt _))
  have hsound := writeEntry_sound h.sound hlock' hlen (by rw [hoff, Nat.mul_mod_right]) hsrc
  have hrun := (keeps_writei e src (UInt64.ofNat (direntSize * k)) env m).sat h.marks
    (hsound.and (writei_rewrites h.sound hlock' src _))
  refine hrun.imp ?_ ?_ fun _ _ => trivial
  · intro _ s' ⟨⟨hs', _, _, hfit, hw, _⟩, hm⟩
    rw [hoff, hlen] at hfit
    have hz : (UInt64.ofNat (max f.size.toNat (direntSize * k + direntSize))).toNat =
        max f.size.toNat (direntSize * k + direntSize) :=
      UInt64.toNat_ofNat_of_lt'
        (Nat.max_lt.mpr ⟨UInt64.toNat_lt _, Nat.lt_of_le_of_lt hfit (by decide)⟩)
    obtain ⟨A, z, hself⟩ := hw.entry
    refine ⟨_, hz, hs', hm, h.ref, by rw [hself, h.inum], ?_⟩
    rw [hw.files, h.inum, Function.update_self, h.file, hsize, hoff, hlen]
  · intro _ s' ⟨⟨_, hb⟩, hm⟩
    cases hb with
    | padded hp => exact ⟨hp.sound, hm, h.ref, by rw [hp.inum, h.inum], by rw [hp.files, h.file]⟩
    | stopped hlong =>
        rw [hlen, hoff] at hlong
        simp only [direntSize, bsize] at hlong
        omega
    | unsized hno =>
        obtain ⟨j, hj⟩ := hno
        rw [hread] at hj
        cases hj

/-- **`dirLink` adds a name that the map has not got.** -/
theorem Sees.dirLink (hfree : ∀ k, env.freeReadOk k = true) (h : Sees env e i m f s)
    (hd : f.Directory M) (hroom : ∃ e', m.refs e' = 0) (hname : Storable name) {inum : UInt64}
    (hinum : inum ≠ 0) (hrange : inum.toNat < env.sb.ninodes.toNat) :
    Sat (dirLink e name inum env s)
      (fun _ s' => M name = none ∧ ∃ f', Sees env e i m f' s' ∧
        f'.Directory (Function.update M name (some inum)))
      (fun t s' => (M name ≠ none → t = "file already exists") ∧ Sees env e i m f s')
      (fun _ => True) := by
  have hfound : Sat (attempt (Fs.dirLookup e name) env s) _ (fun _ _ => False) (fun _ => True) :=
    Sat.attempt ((h.dirLookup hread hlock hd name (.inr hroom)).imp (fun _ _ h => h) (fun _ _ h => h)
      fun _ h => h.elim)
  refine Sat.bind hfound (fun _ _ h => h.elim) fun r s₁ hr => ?_
  cases r with
  | ok ip =>
      refine Sat.bind (hr.1.put hfree h.ref) (fun _ _ h => h.elim) fun _ s₂ h₂ => ?_
      exact Sat.throw ⟨fun _ => rfl, h₂⟩
  | error t =>
      obtain ⟨h₁, -, hnone⟩ := hr
      refine Sat.gets ?_
      have hfuel : f.slots < 0 + ((s₁.icache e).dinode.size.toNat / direntSize + 1) := by
        rw [h₁.size hlock, Nat.zero_add]
        exact Nat.lt_succ_self _
      have hloop := h₁.freeSlotLoop hread hlock hd hfuel (Nat.zero_le _)
      refine Sat.bind hloop (fun _ _ h => h.elim) ?_
      intro off s₂ ⟨h₂, j, hj, hoff, hfree⟩
      subst hoff
      refine Sat.bind (h₂.writeEntry hread hlock hd hj (Dirent.codec.length_encode _) fun _ => ?_)
        (fun t s' h' => ⟨fun hne => absurd hnone hne, h'⟩) ?_
      · rw [Codec.decode_encode]
        exact hrange
      · intro n s₃ ⟨z, hz, h₃⟩
        refine Sat.last_assert (fun _ => trivial) fun _ => ⟨hnone, _, h₃, ?_⟩
        exact hd.link hname hinum hnone hj hfree hz

omit hread hlock in
theorem nlinkDec_sat : Sat (nlinkDec ip env s)
    (fun _ s' => ∃ d : DInode, d.typ = (s.icache ip).dinode.typ ∧
      d.addrs = (s.icache ip).dinode.addrs ∧ d.size = (s.icache ip).dinode.size ∧
      s' = s.setDinode ip d) (fun _ _ => False) (fun _ => True) :=
  Sat.gets (Sat.assert (fun _ => trivial) fun _ => sat_last_modifyDinode
    ⟨{ (s.icache ip).dinode with nlink := (s.icache ip).dinode.nlink - 1 }, rfl, rfl, rfl, rfl⟩)

omit hread in
/-- The number of links of the directory changes. -/
theorem Sees.nlinkDec (h : Sees env e i m f s) (hd : f.Directory M) :
    Sat (nlinkDec e env s) (fun _ s' => ∃ f', Sees env e i m f' s' ∧ f'.Directory M)
      (fun _ _ => False) (fun _ => True) := by
  have hlock' : (s.icache e).lock = some env.pid := by rw [h.lock_eq, hlock]
  refine ((keeps_nlinkDec e env m).sat h.marks nlinkDec_sat).imp ?_ (fun _ _ h => h.1) fun _ h => h
  intro _ s' ⟨⟨d, ht, ha, hz, hs'⟩, hm⟩
  obtain ⟨hsound, hfiles⟩ := h.sound.header (h.sound.live hlock') ht ha hz
  rw [← hs', h.inum, h.file] at hfiles
  refine ⟨_, ⟨hs' ▸ hsound, hm, h.ref, ?_, ?_⟩, hd.header d.major d.minor d.nlink⟩
  · rw [hs', icache_setDinode, if_pos rfl, h.inum]
  · rw [hfiles, Function.update_self]

omit hread hlock in
/-- The header of another inode is changed. -/
theorem Sees.nlinkDec_other (h : Sees env e i m f s) (hlock : m.locks ip = some env.pid)
    (hne : ip ≠ e) (href : 0 < m.refs ip) :
    Sat (Fs.nlinkDec ip env s) (fun _ s' => Sees env e i m f s') (fun _ _ => False)
      (fun _ => True) := by
  have hlock' : (s.icache ip).lock = some env.pid := by rw [h.lock_eq, hlock]
  refine ((keeps_nlinkDec ip env m).sat h.marks nlinkDec_sat).imp ?_ (fun _ _ h => h.1) fun _ h => h
  intro _ s' ⟨⟨d, ht, ha, hz, hs'⟩, hm⟩
  obtain ⟨hsound, hfiles⟩ := h.sound.header (h.sound.live hlock') ht ha hz
  rw [← hs'] at hfiles
  refine ⟨hs' ▸ hsound, hm, h.ref, ?_, ?_⟩
  · rw [hs', icache_setDinode, if_neg hne.symm, h.inum]
  · rw [hfiles, Function.update_of_ne (h.inum_ne hne href).symm, h.file]

omit hlock in
theorem Sees.update (h : Sees env e i m f s) (hlock : m.locks ip = some env.pid) :
    Sat (update ip env s) (fun _ s' => Sees env e i m f s') (fun _ _ => False)
      (fun _ => True) := by
  have hlock' : (s.icache ip).lock = some env.pid := by rw [h.lock_eq, hlock]
  have hrun := (update_page h.sound (h.sound.live hlock')).and (update_stores env s ip)
  refine ((keeps_update ip env m).sat h.marks hrun).imp ?_ ?_ fun _ _ => trivial
  · intro _ s' ⟨⟨⟨hsound, hfiles, hcache⟩, _⟩, hm⟩
    exact ⟨hsound, hm, h.ref, by rw [hcache, h.inum], by rw [hfiles, h.file]⟩
  · intro _ s' ⟨⟨_, hno, _⟩, _⟩
    rw [hread] at hno
    cases hno

/-- The entry of a name is zeroed, when the inode can be unlinked. -/
theorem Sees.unlinkEntry (h : Sees env e i m f s) (hip : m.locks ip = some env.pid)
    (hd : f.Directory M) {j : UInt64} (hk : k < f.slots) (hs : f.slot k = some (name, j)) :
    Sat (unlinkEntry e ip (direntSize * k) env s)
      (fun _ s' => ∃ f', Sees env e i m f' s' ∧ f'.Directory (Function.update M name none))
      (fun _ s' => Sees env e i m f s') (fun _ => True) := by
  refine Sat.gets (Sat.assert (fun _ => trivial) fun _ => ?_)
  have hlook : Sat (isUnlinkable ip env s) (fun _ s' => Sees env e i m f s')
      (fun _ s' => Sees env e i m f s') (fun _ => True) := by
    have hpad : ∀ s', Padded env True ip s s' → Fs.marks s' = m → Sees env e i m f s' :=
      fun s' hp hm => ⟨hp.sound, hm, h.ref, by rw [(hp.refs e).2, h.inum], by rw [hp.files, h.file]⟩
    refine ((keeps_isUnlinkable ip env m).sat h.marks
      (isUnlinkable_page h.sound (by rw [h.lock_eq, hip]))).imp ?_ ?_ fun _ _ => trivial
    · exact fun _ s' ⟨hp, hm⟩ => hpad s' hp hm
    · exact fun _ s' ⟨hp, hm⟩ => hpad s' hp hm
  refine Sat.seq hlook fun empty s₁ h₁ => Sat.ite (fun _ => Sat.throw h₁) fun _ => ?_
  refine Sat.bind (Sat.expect (h₁.writeEntry hread hlock hd (Nat.le_of_lt hk)
    (List.length_replicate ..) fun h0 => absurd decode_zero h0) fun _ _ _ => trivial)
    (fun _ _ h => h) ?_
  intro n s₂ ⟨z, hz, h₂⟩
  have hsame : z = f.size := by
    refine UInt64.toNat_inj.mp ?_
    rw [hz, hd.size_eq, ← Nat.mul_succ]
    exact Nat.max_eq_left (Nat.mul_le_mul_left _ hk)
  have hd₂ := hd.unlink hk hs hsame
  refine Sat.assert (fun _ => trivial) fun _ => ?_
  refine Sat.bind (typ_page.imp (fun _ _ h => h.1) (fun _ _ h => h) fun _ _ => trivial)
    (fun _ _ h => h.elim) fun t s₃ hs₃ => ?_
  subst hs₃
  refine Sat.ite (fun _ => ?_) fun _ => Sat.pure ⟨_, h₂, hd₂⟩
  refine Sat.bind (h₂.nlinkDec hlock hd₂) (fun _ _ h => h.elim) fun _ s₄ ⟨f', h₄, hd₄⟩ => ?_
  exact (h₄.update hread hlock).imp (fun _ s' h' => ⟨f', h', hd₄⟩) (fun _ _ h => h.elim)
    fun _ h => h

omit hread hlock in
/-- A guard that is dropped on the way out of an error. -/
theorem Sees.guarded {α : Type} {p : FsM α} {Q : α → State → Prop} {E : String → Prop}
    (hfree : ∀ k, env.freeReadOk k = true) (hm : m.locks ip = none) (href : 0 < m.refs e)
    (hp : Sat (p env s) Q
      (fun t s' => E t ∧ Sees env e i ((m.take ip).setLock ip (some env.pid)) f s')
      (fun _ => True)) :
    Sat (guarded ip p env s) Q (fun t s' => E t ∧ Sees env e i m f s') (fun _ => True) :=
  Sat.onErr hp fun _ _ ⟨ht, h'⟩ => (h'.dropGuard hfree hm href).imp (fun _ _ h => ⟨ht, h⟩)
    (fun _ _ h => h.elim) fun _ h => h

omit hread hlock in
theorem room_take (href : 0 < m.refs e) (hroom : ∃ e', m.refs e' = 0) :
    ∃ e', (m.take e).refs e' = 0 := by
  obtain ⟨e', he'⟩ := hroom
  have hne : e' ≠ e := by
    intro heq
    rw [heq] at he'
    exact Nat.ne_of_gt href he'
  exact ⟨e', by simp [Marks.take, hne, he']⟩

omit hlock in
/-- **`dirUnlink` takes a name out**, and gives back the reference to the
directory. -/
theorem Sees.dirUnlink (hfree : ∀ k, env.freeReadOk k = true)
    (h : Sees env e i (m.take e) f s) (hd : f.Directory M) (href : 0 < m.refs e)
    (hroom : ∃ e', m.refs e' = 0) :
    Sat (dirUnlink e name env s)
      (fun _ s' => M name ≠ none ∧ ∃ f', Sees env e i m f' s' ∧
        f'.Directory (Function.update M name none))
      (fun t s' => (M name = none → t = "file not found") ∧ Sees env e i m f s')
      (fun _ => True) := by
  refine Sat.bind (h.lock e) (fun _ _ h => h.elim) fun _ s₁ ⟨he, h₁⟩ => ?_
  have he : m.locks e = none := he
  have hlook := h₁.dirLookupOffset hread (by simp) hd name (.inr (room_take href hroom))
  refine Sat.seq (Sees.guarded hfree he href (hlook.imp (fun _ _ h => h)
    (fun t s' ⟨h', ht, hnone⟩ => ⟨fun _ => ht, h'⟩) fun _ h => h.elim)) ?_
  intro ⟨ip, off⟩ s₂ ⟨h₂, k, hk, hs, hoff⟩
  have hsome : M name ≠ none := by
    rw [hd.holds.found hk hs]
    exact Option.some_ne_none _
  have hoff : off = direntSize * k := hoff
  subst hoff
  -- both inodes are locked before the entry is zeroed
  have hzero : Sat (Fs.guarded e (do Fs.lock ip; Fs.guarded ip (Fs.unlinkEntry e ip (direntSize * k))) env s₂)
      (fun _ s' => ip ≠ e ∧ m.locks ip = none ∧ ∃ f',
        Sees env e i ((((m.take ip).setLock ip (some env.pid)).take e).setLock e (some env.pid)) f' s' ∧
        f'.Directory (Function.update M name none))
      (fun t s' => True ∧ Sees env e i m f s') (fun _ => True) := by
    refine Sees.guarded hfree he href (Sat.bind (h₂.lock ip) (fun _ _ h => h.elim) ?_)
    intro _ s₃ ⟨hl, h₃⟩
    have hne : ip ≠ e := by
      intro heq
      rw [heq] at hl
      simp [Marks.setLock_take] at hl
    have hip : m.locks ip = none := by
      simpa [Marks.setLock_take, Marks.setLock_locks_ne _ _ hne] using hl
    have hip' : ((m.take e).setLock e (some env.pid)).locks ip = none := by
      rw [Marks.setLock_locks_ne _ _ hne]
      exact hip
    obtain ⟨m', hm'⟩ : ∃ m', m' =
      (((m.take e).setLock e (some env.pid)).take ip).setLock ip (some env.pid) := ⟨_, rfl⟩
    rw [← hm'] at h₃
    have hlocks : m'.locks e = some env.pid ∧ m'.locks ip = some env.pid := by
      rw [hm', Marks.setLock_locks_ne _ _ hne.symm]
      simp
    have hrun := h₃.unlinkEntry hread hlocks.1 hlocks.2 hd hk hs
    subst hm'
    refine (Sees.guarded (E := fun _ => True) hfree hip' h₁.ref (hrun.imp (fun _ _ h => h)
      (fun _ _ h => ⟨trivial, h⟩) fun _ h => h)).imp ?_ (fun _ _ h => h) fun _ h => h
    intro _ s' ⟨f', h', hd'⟩
    refine ⟨hne, hip, f', ?_, hd'⟩
    have hswap : (((m.take e).setLock e (some env.pid)).take ip).setLock ip (some env.pid) =
        (((m.take ip).setLock ip (some env.pid)).take e).setLock e (some env.pid) := by
      rw [Marks.setLock_take, Marks.setLock_take, Marks.setLock_comm _ _ _ hne.symm,
        Marks.take_comm]
    exact hswap ▸ h'
  refine Sat.bind hzero (fun _ _ h => ⟨fun hno => absurd hno hsome, h.2⟩) ?_
  intro _ s₃ ⟨hne, hip, f', h₃, hd'⟩
  have he' : ((m.take ip).setLock ip (some env.pid)).locks e = none := by
    rw [Marks.setLock_locks_ne _ _ hne.symm]
    exact he
  have href' : 0 < ((m.take ip).setLock ip (some env.pid)).refs e :=
    Nat.lt_of_lt_of_le href (Nat.le_add_right _ _)
  have hrest : Sat ((do Fs.unlockPut e; Fs.nlinkDec ip; Fs.update ip) env s₃)
      (fun _ s' => Sees env e i ((m.take ip).setLock ip (some env.pid)) f' s') (fun _ _ => False)
      (fun _ => True) := by
    refine Sat.seq (h₃.unlockPut hfree he' href') fun _ s₄ h₄ => ?_
    refine Sat.seq (h₄.nlinkDec_other (by simp) hne (by simp [Marks.take])) fun _ s₅ h₅ => ?_
    exact h₅.update hread (by simp)
  refine Sat.seq (Q := fun _ s' => Sees env e i ((m.take ip).setLock ip (some env.pid)) f' s')
    (Sat.onErr hrest fun _ _ h => h.elim) fun _ s₄ h₄ => ?_
  exact (h₄.unlockPut hfree hip href).imp (fun _ s' h' => ⟨hsome, f', h', hd'⟩)
    (fun _ _ h => h.elim) fun _ h => h

end Writing

end Sees

/-! ## Runs of calls -/

/-- A call on a directory, by a process with a reference to it. -/
inductive DirCall where
  | lookup (name : Name)
  | link (name : Name) (inum : UInt64)
  | unlink (name : Name)

namespace DirCall

/-- The calls as `namex` (with the `put` of what it found), `link` and
`unlink` make them, on a reference of their own. -/
def run (e : Idx) : DirCall → FsM (Option UInt64)
  | lookup name => do
      dup e
      let ip ← withPutlock e do
        isDir e
        dirLookup e name
      let inum := (← inode ip).inum
      put ip
      pure (some inum)
  | link name inum => do
      dup e
      lock e
      guarded e (dirLink e name inum)
      dropGuard e
      pure none
  | unlink name => do
      dup e
      dirUnlink e name
      pure none

/-- A name is linked that an entry has room for, to an inode of the table. -/
def Ready (sb : Superblock) : DirCall → Prop
  | link name inum => Storable name ∧ inum ≠ 0 ∧ inum.toNat < sb.ninodes.toNat
  | _ => True

/-- What a call that comes back with `r` has done to the map. -/
def Meets (M M' : Name → Option UInt64) : DirCall → Except String (Option UInt64) → Prop
  | lookup name, .ok r => M name ≠ none ∧ r = M name ∧ M' = M
  | lookup name, .error t => M name = none ∧ t = "file not found" ∧ M' = M
  | link name inum, .ok _ => M name = none ∧ M' = Function.update M name (some inum)
  | link name _, .error t => (M name ≠ none → t = "file already exists") ∧ M' = M
  | unlink name, .ok _ => M name ≠ none ∧ M' = Function.update M name none
  | unlink name, .error t => (M name = none → t = "file not found") ∧ M' = M

end DirCall

/-- The calls of `l` one after the other, by any processes, each with what it
came back with. -/
inductive DirRun (sb : Superblock) (e : Idx) :
    State → List (DirCall × Except String (Option UInt64)) → State → Prop where
  | nil (s : State) : DirRun sb e s [] s
  | cons {s s₁ s' : State} (env : Env) (c : DirCall) {r : Except String (Option UInt64)}
      {l : List (DirCall × Except String (Option UInt64))} (hsb : env.sb = sb)
      (hread : ∀ k, env.readOk k = true) (hfree : ∀ k, env.freeReadOk k = true)
      (hready : c.Ready sb) (hcall : attempt (c.run e) env s = .ok r s₁)
      (rest : DirRun sb e s₁ l s') : DirRun sb e s ((c, r) :: l) s'

/-- The calls of `l` lead the map from `M` to `M'`. -/
def Answers (M' : Name → Option UInt64) :
    (Name → Option UInt64) → List (DirCall × Except String (Option UInt64)) → Prop
  | M, [] => M' = M
  | M, (c, r) :: l => ∃ M₁, c.Meets M M₁ r ∧ Answers M' M₁ l

section DirCalls

variable {env : Env} {e : Idx} {i : UInt64} {m : Marks} {f : Node} {s : State}
  {M : Name → Option UInt64}

/-- **One call** does to the map what it came back with. -/
theorem DirCall.meets (hread : ∀ k, env.readOk k = true) (hfree : ∀ k, env.freeReadOk k = true)
    (h : Sees env e i m f s) (hd : f.Directory M) (hroom : ∃ e', m.refs e' = 0) (c : DirCall)
    (hready : c.Ready env.sb) :
    Sat (attempt (c.run e) env s)
      (fun r s' => ∃ f' M', Sees env e i m f' s' ∧ f'.Directory M' ∧ c.Meets M M' r)
      (fun _ _ => False) (fun _ => True) := by
  have hroom' := room_take h.ref hroom
  have hrun : Sat (c.run e env s)
      (fun a s' => ∃ f' M', Sees env e i m f' s' ∧ f'.Directory M' ∧ c.Meets M M' (.ok a))
      (fun t s' => ∃ f' M', Sees env e i m f' s' ∧ f'.Directory M' ∧ c.Meets M M' (.error t))
      (fun _ => True) := by
    cases c with
    | lookup name =>
        refine Sat.bind h.dup (fun _ _ h => h.elim) fun _ s₁ h₁ => ?_
        have hlook : Sat (withPutlock e (do isDir e; dirLookup e name) env s₁)
            (fun ip s' => Sees env e i (m.take ip) f s' ∧ M name = some (s'.icache ip).inum)
            (fun t s' => (t = "file not found" ∧ M name = none) ∧ Sees env e i m f s')
            (fun _ => True) := by
          refine Sat.bind (h₁.lock e) (fun _ _ h => h.elim) fun _ s₂ ⟨he, h₂⟩ => ?_
          have he : m.locks e = none := he
          have hbody : Sat ((do isDir e; dirLookup e name) env s₂)
              (fun ip s' => Sees env e i (((m.take e).setLock e (some env.pid)).take ip) f s' ∧
                M name = some (s'.icache ip).inum)
              (fun t s' => (t = "file not found" ∧ M name = none) ∧
                Sees env e i ((m.take e).setLock e (some env.pid)) f s') (fun _ => True) := by
            have hisdir : isDir e env s₂ = .ok () s₂ := bind_ok (h₂.typ (by simp) hd)
            refine Sat.bind_ok hisdir ?_
            exact (h₂.dirLookup hread (by simp) hd name (.inr hroom')).imp (fun _ _ h => h)
              (fun _ _ h => ⟨h.2, h.1⟩) fun _ h => h.elim
          refine Sat.bind (Sees.guarded hfree he h.ref hbody) (fun _ _ h => h) ?_
          intro ip s₃ ⟨h₃, hip⟩
          have he' : (m.take ip).locks e = none := he
          have hswap : ((m.take e).setLock e (some env.pid)).take ip =
              ((m.take ip).take e).setLock e (some env.pid) := by
            rw [Marks.setLock_take, Marks.take_comm]
          rw [hswap] at h₃
          refine Sat.bind (h₃.unlockPut_inum hfree he' (Nat.lt_of_lt_of_le h.ref (Nat.le_add_right _ _)))
            (fun _ _ h => h.elim) fun _ s₄ ⟨h₄, hinum⟩ => Sat.pure ⟨h₄, ?_⟩
          rw [hip, hinum]
        refine Sat.bind hlook (fun t s' h' => ⟨f, M, h'.2, hd, h'.1.2, h'.1.1, rfl⟩) ?_
        intro ip s₂ ⟨h₂, hip⟩
        refine Sat.gets (Sat.bind (h₂.put hfree h.ref) (fun _ _ h => h.elim) fun _ s₃ h₃ => ?_)
        refine Sat.pure ⟨f, M, h₃, hd, ?_, hip.symm, rfl⟩
        rw [hip]
        exact Option.some_ne_none _
    | link name inum =>
        obtain ⟨hname, hinum, hrange⟩ := hready
        refine Sat.bind h.dup (fun _ _ h => h.elim) fun _ s₁ h₁ => ?_
        refine Sat.bind (h₁.lock e) (fun _ _ h => h.elim) fun _ s₂ ⟨he, h₂⟩ => ?_
        have he : m.locks e = none := he
        have hlink := h₂.dirLink hread (by simp) hfree hd hroom' hname hinum hrange
        refine Sat.bind (Sees.guarded hfree he h.ref hlink)
          (fun t s' h' => ⟨f, M, h'.2, hd, h'.1, rfl⟩) fun _ s₃ ⟨hnone, f', h₃, hd'⟩ => ?_
        refine Sat.bind (h₃.dropGuard hfree he h.ref) (fun _ _ h => h.elim) fun _ s₄ h₄ => ?_
        exact Sat.pure ⟨f', _, h₄, hd', hnone, rfl⟩
    | unlink name =>
        refine Sat.bind h.dup (fun _ _ h => h.elim) fun _ s₁ h₁ => ?_
        refine Sat.bind (h₁.dirUnlink hread hfree hd h.ref hroom)
          (fun t s' h' => ⟨f, M, h'.2, hd, h'.1, rfl⟩) fun _ s₂ ⟨hsome, f', h₂, hd'⟩ => ?_
        exact Sat.pure ⟨f', _, h₂, hd', hsome, rfl⟩
  refine (Sat.attempt hrun).imp (fun r s' hr => ?_) (fun _ _ h => h) fun _ h => h
  cases r with
  | ok a => exact hr
  | error t => exact hr

end DirCalls

/-- **A directory is a finite map.** After any run of calls of the inode layer
without holes, the calls that look up, link and unlink names in a directory
act on one map: a lookup returns what the map has, a link adds the name if and
only if it was not there, an unlink takes it out, and a call that fails leaves
the map alone. -/
theorem directory_is_map {sb : Superblock} {s₀ s s' : State} {e : Idx}
    {l : List (DirCall × Except String (Option UInt64))} {M : Name → Option UInt64}
    (h₀ : Mounted sb True s₀) (hrun : Run sb s₀ s) (href : 0 < (s.icache e).refCnt)
    (hroom : ∃ e', (s.icache e').refCnt = 0)
    (hdir : (files sb s (s.icache e).inum).Directory M) (hcalls : DirRun sb e s l s') :
    ∃ M', (files sb s' (s.icache e).inum).Directory M' ∧ Answers M' M l := by
  obtain ⟨i, hi⟩ : ∃ i, i = (s.icache e).inum := ⟨_, rfl⟩
  obtain ⟨m, hm⟩ : ∃ m, m = marks s := ⟨_, rfl⟩
  have h : ∃ f, f.Directory M ∧ Sound sb True s ∧ marks s = m ∧ 0 < m.refs e ∧
      (s.icache e).inum = i ∧ files sb s i = f :=
    ⟨_, hi ▸ hdir, Run.sound h₀.sound hrun, hm.symm, hm ▸ href, hi.symm, rfl⟩
  replace hroom : ∃ e', m.refs e' = 0 := hm ▸ hroom
  rw [← hi]
  clear hrun href hdir hi hm
  induction hcalls generalizing M with
  | nil s =>
      obtain ⟨f, hd, -, -, -, -, hf⟩ := h
      exact ⟨M, hf ▸ hd, rfl⟩
  | cons env c hsb hread hfree hready hcall rest ih =>
      subst hsb
      obtain ⟨f, hd, hsound, hm, href, hi, hf⟩ := h
      have hsees : Sees env e i m f _ := ⟨hsound, hm, href, hi, hf⟩
      obtain ⟨f', M₁, h', hd', hmeets⟩ :=
        (DirCall.meets hread hfree hsees hd hroom c hready).of_ok hcall
      obtain ⟨M', hdir', hanswers⟩ := ih ⟨f', hd', h'.sound, h'.marks, h'.ref, h'.inum, h'.file⟩
      exact ⟨M', hdir', M₁, hmeets, hanswers⟩

/-- A directory of size 0 has no names. -/
theorem Sound.directory_empty {sb : Superblock} {dense : Prop} {s : State} {e : Idx}
    (h : Sound sb dense s) (hl : (s.icache e).Live)
    (ht : (s.icache e).dinode.typ = FileType.dir.toU32) (hz : (s.icache e).dinode.size = 0) :
    (files sb s (s.icache e).inum).Directory fun _ => none := by
  have hsize := size_files h.inv.core hl
  rw [hz] at hsize
  refine ⟨(h.typ_files hl).trans ht, by rw [hsize]; rfl, ?_⟩
  rw [Node.slots, hsize]
  exact .empty

/-! ## A name for the directory itself -/

section Own

variable {env : Env} {e : Idx} {s : State}

theorem awake_get (inum : UInt64) : Awake (get inum) := by
  refine Awake.gets fun icache => ?_
  split
  · exact Awake.modify.bind fun _ => Awake.pure
  · exact Awake.throw
  · exact Awake.modify.bind fun _ => Awake.pure

theorem awake_dirLookup (e : Idx) (name : Name) : Awake (dirLookup e name) := by
  have hloop : ∀ size fuel k, Awake (dirLookupLoop e name size fuel k) := by
    intro size fuel
    induction fuel with
    | zero => exact fun _ => Awake.throw
    | succ fuel ih =>
        intro k
        refine Awake.ite (Awake.bind ?_ fun _ => ?_) Awake.throw
        · exact (awake_readi e _ _).bind fun _ => Awake.assert Awake.pure
        · exact Awake.ite ((awake_get _).bind fun _ => Awake.pure) (ih _)
  have htyp : Awake (typ e) := by
    refine Awake.gets fun ip => ?_
    split
    · exact Awake.pure
    · exact Awake.abort
  refine Awake.bind (htyp.bind fun _ => ?_) fun _ => Awake.pure
  exact Awake.assert (Awake.gets fun _ => hloop _ _ _)

/-- `put` takes the lock of the inode, which its caller must not have. -/
theorem put_own (hlock : (s.icache e).lock = some env.pid) :
    put e env s = .panic "nested sleep lock: inode" := by
  have hacquire : acquire e env s = .panic "nested sleep lock: inode" := by
    simp only [acquire, inode, bind, Prog.bind, Prog.env, gets, hlock, if_pos]
    rfl
  exact bind_panic hacquire

end Own

/-- **A link over `.` stops the machine.** When the name stands for the
directory itself, `dir_link` finds it and gives the inode back with `put`,
which waits for the lock that the caller of `dir_link` has to hold. -/
theorem dirLink_self_panics {env : Env} {s₀ s : State} {e : Idx} {M : Name → Option UInt64}
    {name : Name} (inum : UInt64) (h₀ : Mounted env.sb True s₀) (hrun : Run env.sb s₀ s)
    (hread : ∀ k, env.readOk k = true) (hlock : (s.icache e).lock = some env.pid)
    (hdir : (files env.sb s (s.icache e).inum).Directory M)
    (hself : M name = some (s.icache e).inum) :
    dirLink e name inum env s = .panic "nested sleep lock: inode" := by
  have hsound := Run.sound h₀.sound hrun
  have h : Sees env e (s.icache e).inum (marks s) _ s :=
    ⟨hsound, rfl, (hsound.live hlock).1, rfl, rfl⟩
  have hends := (h.dirLookup hread hlock hdir name (.inl hself)).ends
    (awake_dirLookup e name env s)
  obtain ⟨ip, s₁, hok, h₁, hip⟩ | ⟨t, s₁, -, -, -, hnone⟩ := hends
  · have hinum : (s₁.icache ip).inum = (s.icache e).inum :=
      (Option.some.inj (hself.symm.trans hip)).symm
    have heq : ip = e := by
      by_contra hne
      exact h₁.inum_ne hne (by simp [Marks.take]) hinum
    subst heq
    have hfound : attempt (dirLookup ip name) env s = .ok (.ok ip) s₁ := by
      unfold attempt
      rw [hok]
    have hheld : (s₁.icache ip).lock = some env.pid := (h₁.lock_eq ip).trans hlock
    unfold dirLink
    rw [bind_ok hfound]
    exact bind_panic (put_own hheld)
  · rw [hself] at hnone
    cases hnone

theorem directory_is_map_created : ∃ s' M',
    attempt ((DirCall.link [97] 1).run OneFile.entry) (Orphan.env true) (Blank.created .dir) =
      .ok (.ok none) s' ∧
    (files OneFile.sb s' ((Blank.created .dir).icache OneFile.entry).inum).Directory M' ∧
    M' [97] = some 1 := by
  have hsome : ((DirCall.link [97] 1).run OneFile.entry (Orphan.env true)
      (Blank.created .dir)).result?.map Prod.fst = some none := by decide +kernel
  obtain ⟨a, s', hrun, ha⟩ := Outcome.ok_of_map hsome
  have hcall : attempt ((DirCall.link [97] 1).run OneFile.entry) (Orphan.env true)
      (Blank.created .dir) = .ok (.ok none) s' := by
    unfold attempt
    rw [hrun]
    exact congrArg (fun a => Outcome.ok (Except.ok a) s') ha
  obtain ⟨M', hdir, M₁, ⟨-, hM₁⟩, hM'⟩ := directory_is_map (Blank.mounted True) Blank.run_dir
    (e := OneFile.entry) (by decide +kernel) ⟨1, by decide +kernel⟩
    ((Run.sound (Blank.mounted True).sound Blank.run_dir).directory_empty (by decide +kernel)
      (by decide +kernel) (by decide +kernel))
    (.cons (Orphan.env true) (.link [97] 1) rfl (fun _ => rfl) (fun _ => rfl)
      ⟨by decide, by decide, by decide⟩ hcall (.nil s'))
  refine ⟨s', M', hcall, hdir, ?_⟩
  rw [hM', hM₁, Function.update_self]

namespace Blank

/-- A new directory under its lock. -/
def opened : State := after (.lock OneFile.entry) (created .dir)

theorem run_opened : Run OneFile.sb state opened := by
  refine .tail run_dir (step ?_ ?_)
  · exact trivial
  · decide +kernel

/-- The directory has got its `.`. -/
def dotted : State := after (.dirLink OneFile.entry dot 1) opened

theorem dirLink_dot : dirLink OneFile.entry dot 1 (Orphan.env true) opened = .ok () dotted := by
  have hsome : (dirLink OneFile.entry dot 1 (Orphan.env true) opened).result?.isSome = true := by
    decide +kernel
  obtain ⟨⟨⟩, s', hrun⟩ := Outcome.ok_of_isSome hsome
  have hafter : dotted = s' := @after_ok (.dirLink OneFile.entry dot 1) opened s' hrun
  rw [hafter]
  exact hrun

theorem run_dotted : Run OneFile.sb state dotted :=
  .tail run_opened (.call (Orphan.env true) (.dirLink OneFile.entry dot 1) rfl (fun _ => rfl)
    ⟨by decide +kernel, by decide⟩ (.inl dirLink_dot))

end Blank

theorem dirLink_self_panics_dot : dirLink OneFile.entry dot 1 (Orphan.env true) Blank.dotted =
    .panic "nested sleep lock: inode" := by
  have hsound := Run.sound (Blank.mounted True).sound Blank.run_opened
  have hlock : (Blank.opened.icache OneFile.entry).lock = some (Orphan.env true).pid := by
    decide +kernel
  have hinum : (Blank.opened.icache OneFile.entry).inum = 1 := by decide +kernel
  have hl : (Blank.opened.icache OneFile.entry).Live :=
    @Sound.live (Orphan.env true) True _ _ hsound hlock
  have hsees : Sees (Orphan.env true) OneFile.entry 1 (marks Blank.opened) _ Blank.opened :=
    ⟨hsound, rfl, by decide +kernel, hinum, rfl⟩
  have hdir := @Sound.directory_empty OneFile.sb True Blank.opened OneFile.entry hsound hl
    (by decide +kernel) (by decide +kernel)
  rw [hinum] at hdir
  have hheld := (hsees.lock_eq OneFile.entry).symm.trans hlock
  obtain ⟨-, f, h, hd⟩ := (hsees.dirLink (fun _ => rfl) hheld (fun _ => rfl) hdir
    ⟨1, by decide +kernel⟩ (by decide) (by decide) (by decide)).of_ok Blank.dirLink_dot
  have hdir' : (files OneFile.sb Blank.dotted (Blank.dotted.icache OneFile.entry).inum).Directory
      (Function.update (fun _ => none) dot (some 1)) := by
    rw [h.inum]
    exact h.file ▸ hd
  refine @dirLink_self_panics (Orphan.env true) Blank.state Blank.dotted OneFile.entry _ dot 1
    (Blank.mounted True) Blank.run_dotted (fun _ => rfl) (by decide +kernel) hdir' ?_
  rw [h.inum, Function.update_self]

end Rxv64.Fs
