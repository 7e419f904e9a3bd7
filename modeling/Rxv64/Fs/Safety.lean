import Rxv64.Fs.Marks
import Rxv64.Fs.Sound

/-!
# Fs.Safety — what the functions of the inode layer keep

`Safe` is a triple for an invariant of the file system: code is safe from
given references and locks if it keeps the invariant whether it returns or
fails, and never frees a free block. The references and locks come along
because an inode may be changed only under its lock.

An invariant that the functions at the bottom of the layer keep (`Upheld`) is
kept by those that are made of them.
-/

namespace Rxv64.Fs

open Layout Prog Places

/-! ## Safe code -/

/-- Started in a state with the invariant `I` and the marks `m`, code keeps the
invariant and frees no free block; what it returns satisfies `V`. -/
def Safe {α : Type} (I : State → Prop) (env : Env) (m : Marks) (p : FsM α) (V : α → Prop) : Prop :=
  ∀ s, I s → marks s = m →
    Sat (p env s) (fun a s' => I s' ∧ V a) (fun _ s' => I s') (fun t => t ≠ freeingFree)

/-- Any value. -/
abbrev Any {α : Type} : α → Prop := fun _ => True

namespace Safe

variable {α β : Type} {I : State → Prop} {env : Env} {m : Marks} {p : FsM α} {g : α → FsM β}
  {V : α → Prop} {W : β → Prop}

theorem pure {a : α} (h : V a) : Safe I env m (Pure.pure a : FsM α) V :=
  fun _ hs _ => Sat.pure ⟨hs, h⟩

theorem throw {t : String} : Safe I env m (Prog.throw t : FsM α) V :=
  fun _ hs _ => Sat.throw hs

theorem abort {t : String} (h : t ≠ freeingFree) : Safe I env m (Prog.abort t : FsM α) V :=
  fun _ _ _ => Sat.abort h

theorem env' {g : Env → FsM β} (h : Safe I env m (g env) W) :
    Safe I env m (Prog.env >>= g) W := h

theorem gets {f : State → α} (hg : ∀ a, Safe I env m (g a) W) :
    Safe I env m (Prog.gets f >>= g) W := fun s h hm => Sat.gets (hg (f s) s h hm)

theorem assert {c : Prop} [Decidable c] {t : String} {g : Unit → FsM β} (ht : t ≠ freeingFree)
    (h : c → Safe I env m (g ()) W) : Safe I env m (Prog.assert c t >>= g) W :=
  fun s hs hm => Sat.assert (fun _ => ht) fun hc => h hc s hs hm

theorem last_assert {c : Prop} [Decidable c] {t : String} (ht : t ≠ freeingFree) :
    Safe I env m (Prog.assert c t : FsM Unit) Any :=
  fun _ hs _ => Sat.last_assert (fun _ => ht) fun _ => ⟨hs, trivial⟩

theorem ite {c : Prop} [Decidable c] {p p' : FsM α} (h : c → Safe I env m p V)
    (h' : ¬c → Safe I env m p' V) : Safe I env m (if c then p else p') V :=
  fun s hs hm => Sat.ite (fun hc => h hc s hs hm) fun hc => h' hc s hs hm

/-- One part after the other, with what the first does to the marks. -/
theorem bind {Q : α → Marks → Prop} {E : Marks → Prop} (hp : Safe I env m p V)
    (ht : Tri env m p Q E) (hg : ∀ a m', V a → Q a m' → Safe I env m' (g a) W) :
    Safe I env m (p >>= g) W := by
  intro s hs hm
  refine Sat.bind ((hp s hs hm).and (ht s hm)) (fun _ _ h => h.1) ?_ |>.imp (fun _ _ h => h)
    (fun _ _ h => h) fun _ h => h.1
  intro a s' ⟨⟨hs', hv⟩, hq⟩
  exact ((hg a _ hv hq s' hs' rfl).imp (fun _ _ h => h) (fun _ _ h => h) fun _ h => ⟨h, trivial⟩)

/-- The same when the second part is safe from any marks. -/
theorem next (hp : Safe I env m p V) (hg : ∀ a m', V a → Safe I env m' (g a) W) :
    Safe I env m (p >>= g) W :=
  fun s hs hm => Sat.seq (hp s hs hm) fun a s' h => hg a _ h.2 s' h.1 rfl

/-- The same when the first part leaves the marks alone. -/
theorem keep (hp : Safe I env m p V) (hk : Keeps p) (hg : ∀ a, V a → Safe I env m (g a) W) :
    Safe I env m (p >>= g) W := by
  refine hp.bind (hk env m) fun a m' hv hm' => ?_
  rw [hm']
  exact hg a hv

theorem attempt (hp : Safe I env m p V) :
    Safe I env m (Prog.attempt p) (fun r => ∀ a, r = .ok a → V a) := by
  intro s hs hm
  have hrun : Sat (Prog.attempt p env s) _ (fun _ _ => False) _ := Sat.attempt (hp s hs hm)
  refine hrun.imp (fun r s' h => ?_)
    (fun _ _ h => h.elim) fun _ h => h
  cases r with
  | ok a => exact ⟨h.1, fun _ ha => (Except.ok.inj ha) ▸ h.2⟩
  | error _ => exact ⟨h, fun _ ha => nomatch ha⟩

theorem ignore (hp : Safe I env m p V) : Safe I env m (Prog.ignore p) Any :=
  hp.attempt.next fun _ _ _ => pure trivial

theorem expect {t : String} (ht : t ≠ freeingFree) (hp : Safe I env m p V) :
    Safe I env m (Prog.expect p t) V :=
  fun s hs hm => Sat.expect (hp s hs hm) fun _ _ _ => ht

theorem onErr {fin : FsM Unit} (hp : Safe I env m p V)
    (hfin : ∀ m', Safe I env m' fin Any) : Safe I env m (Prog.onErr p fin) V :=
  fun s hs hm => Sat.onErr (hp s hs hm) fun _ s' hs' =>
    (hfin _ s' hs' rfl).imp (fun _ _ h => h.1) (fun _ _ h => h) fun _ h => h

end Safe

/-! ## What the functions at the bottom keep -/

/-- Every function that the rest of the layer is made of keeps `I`. -/
structure Upheld (env : Env) (I : State → Prop) : Prop where
  range : ∀ {s : State} {e : Idx}, I s → (s.icache e).lock = some env.pid →
    (s.icache e).inum.toNat < env.sb.ninodes.toNat
  root : ∀ {s : State}, I s → rootIno.toNat < env.sb.ninodes.toNat
  bmap : ∀ {m : Marks} {e : Idx}, m.locks e = some env.pid → ∀ bn,
    Safe I env m (Fs.bmap e bn) Any
  readi : ∀ {m : Marks} {e : Idx}, m.locks e = some env.pid → ∀ len off,
    Safe I env m (Fs.readi e len off) Any
  lock : ∀ {m : Marks} (e : Idx), Safe I env m (Fs.lock e) Any
  unlock : ∀ {m : Marks} (e : Idx), Safe I env m (Fs.unlock e) Any
  dup : ∀ {m : Marks} {e : Idx}, 0 < m.refs e → Safe I env m (Fs.dup e) Any
  get : ∀ {m : Marks} {i : UInt64}, i.toNat < env.sb.ninodes.toNat → Safe I env m (Fs.get i) Any
  ialloc : ∀ {m : Marks} (t : FileType), Safe I env m (Fs.ialloc t) Any
  update : ∀ {m : Marks} {e : Idx}, m.locks e = some env.pid → Safe I env m (Fs.update e) Any
  header : ∀ {m : Marks} {e : Idx} {f : DInode → DInode}, m.locks e = some env.pid →
    (∀ d, (f d).typ = d.typ) → (∀ d, (f d).addrs = d.addrs) → (∀ d, (f d).size = d.size) →
    Safe I env m (modifyDinode e f) Any
  writeEntry : ∀ {m : Marks} {e : Idx} {src : List UInt8} {off : Nat},
    m.locks e = some env.pid → src.length = direntSize → off % direntSize = 0 →
    ((Dirent.codec.decode src).inum ≠ 0 →
      (Dirent.codec.decode src).inum.toNat < env.sb.ninodes.toNat) →
    Safe I env m (Fs.writei e src (UInt64.ofNat off)) Any
  writei : ∀ {s : State} {e : Idx} (src : List UInt8) (off : UInt64), I s →
    (s.icache e).lock = some env.pid → (s.icache e).dinode.typ ≠ FileType.dir.toU32 →
    Sat (Fs.writei e src off env s) (fun _ s' => I s') (fun _ s' => I s') (fun t => t ≠ freeingFree)
  dirLookupOffset : ∀ {m : Marks} {e : Idx}, m.locks e = some env.pid → ∀ name,
    Safe I env m (Fs.dirLookupOffset e name) (fun r => r.2 % direntSize = 0)
  freeSlotLoop : ∀ {m : Marks} {e : Idx}, m.locks e = some env.pid → ∀ fuel,
    Safe I env m (Fs.freeSlotLoop e fuel 0) (fun off => off % direntSize = 0)
  isUnlinkable : ∀ {m : Marks} {e : Idx}, m.locks e = some env.pid →
    Safe I env m (Fs.isUnlinkable e) Any
  put : ∀ {m : Marks}, (∀ k, env.freeReadOk k = true) → ∀ e, Safe I env m (Fs.put e) Any
  trunc : ∀ {m : Marks} {e : Idx}, (∀ k, env.freeReadOk k = true) → m.locks e = some env.pid →
    Safe I env m (within Env.freeing (Fs.trunc e)) Any
  opBegin : ∀ {m : Marks}, Safe I env m Fs.opBegin Any

section Calls

variable {I : State → Prop} {env : Env} (hI : Upheld env I) {m : Marks} {e : Idx}

include hI in
/-- What the marks say about an entry that is locked. -/
theorem safe_inode {α : Type} {g : Inode → FsM α} {W : α → Prop} (e : Idx)
    (hk : m.locks e = some env.pid)
    (hg : ∀ ip : Inode, ip.inum.toNat < env.sb.ninodes.toNat → Safe I env m (g ip) W) :
    Safe I env m (inode e >>= g) W := by
  intro s hs hm
  subst hm
  exact Sat.gets (hg _ (hI.range hs hk) s hs rfl)

theorem safe_typ (e : Idx) : Safe I env m (typ e) Any := by
  intro s hs _
  refine typ_page.imp (fun _ s' h => ⟨?_, trivial⟩) (fun _ _ h => h.elim) fun _ h => h
  rw [h.1]
  exact hs

include hI

theorem safe_nlinkInc (hk : m.locks e = some env.pid) : Safe I env m (nlinkInc e) Any :=
  Safe.gets fun _ => Safe.assert (by decide) fun _ =>
    hI.header hk (fun _ => rfl) (fun _ => rfl) fun _ => rfl

theorem safe_nlinkDec (hk : m.locks e = some env.pid) : Safe I env m (nlinkDec e) Any :=
  Safe.gets fun _ => Safe.assert (by decide) fun _ =>
    hI.header hk (fun _ => rfl) (fun _ => rfl) fun _ => rfl

theorem safe_setDevice (hk : m.locks e = some env.pid) (t : CreateType) :
    Safe I env m (setDevice e t) Any := by
  unfold setDevice
  split
  · exact hI.header hk (fun _ => rfl) (fun _ => rfl) fun _ => rfl
  · exact Safe.pure trivial

omit hI in
theorem keeps_setDevice (e : Idx) (t : CreateType) : Keeps (setDevice e t) := by
  unfold setDevice
  split
  · exact keeps_modifyDinode e _
  · exact Keeps.pure

theorem safe_dirLookup (hk : m.locks e = some env.pid) (name : Name) :
    Safe I env m (dirLookup e name) Any :=
  (hI.dirLookupOffset hk name).next fun _ _ _ => Safe.pure trivial

theorem safe_unlinkEntry {ip : Idx} (hk : m.locks e = some env.pid)
    (hk' : m.locks ip = some env.pid) {off : Nat} (hoff : off % direntSize = 0) :
    Safe I env m (unlinkEntry e ip off) Any := by
  refine Safe.gets fun _ => Safe.assert (by decide) fun _ => ?_
  refine (hI.isUnlinkable hk').keep (keeps_isUnlinkable ip) fun empty _ => ?_
  refine Safe.ite (fun _ => Safe.throw) fun _ => ?_
  refine ((hI.writeEntry hk (List.length_replicate ..) hoff fun h0 => absurd decode_zero h0).expect
    (by decide)).keep (keeps_writei e _ _).expect fun _ _ => Safe.assert (by decide) fun _ => ?_
  refine (safe_typ ip).keep (keeps_typ ip) fun _ _ => Safe.ite (fun _ => ?_) fun _ => Safe.pure trivial
  exact (safe_nlinkDec hI hk).keep (keeps_nlinkDec e) fun _ _ => hI.update hk

omit hI in
/-- The marks after code under a guard that returned. -/
theorem tri_guarded_ok {α : Type} {p : FsM α} {Q : α → Marks → Prop} {E : Marks → Prop} (e : Idx)
    (hp : Tri env m p Q E) : Tri env m (guarded e p) Q Any :=
  Tri.onErr hp fun _ _ _ _ => Sat.trivial _

section Guards

variable (hfree : ∀ k, env.freeReadOk k = true)

include hfree

theorem safe_unlockPut (e : Idx) : Safe I env m (unlockPut e) Any :=
  (hI.unlock e).next fun _ _ _ => hI.put hfree e

theorem safe_dropGuard (e : Idx) : Safe I env m (dropGuard e) Any := (safe_unlockPut hI hfree e).ignore

theorem safe_guarded {α : Type} {p : FsM α} {V : α → Prop} (e : Idx) (hp : Safe I env m p V) :
    Safe I env m (guarded e p) V := hp.onErr fun _ => safe_dropGuard hI hfree e

theorem safe_withPutlock {α : Type} {p : FsM α} {V : α → Prop} (e : Idx)
    (hp : Safe I env (m.setLock e (some env.pid)) p V) :
    Safe I env m (withPutlock e p) V := by
  refine (hI.lock e).bind (E := Any) (tri_lock e) fun _ m' _ hm' => ?_
  rw [hm'.2]
  refine (safe_guarded hI hfree e hp).next fun a _ ha => ?_
  exact (safe_unlockPut hI hfree e).next fun _ _ _ => Safe.pure ha

/-! ## Directories and paths -/

theorem safe_dirLink (hk : m.locks e = some env.pid) (name : Name) {inum : UInt64}
    (hi : inum.toNat < env.sb.ninodes.toNat) : Safe I env m (dirLink e name inum) Any := by
  refine (safe_dirLookup hI hk name).attempt.bind (E := Any) (Tri.attempt (tri_dirLookup e name)) ?_
  intro r m' _ hr
  cases r with
  | ok ip => exact (hI.put hfree ip).next fun _ _ _ => Safe.throw
  | error _ =>
      rw [show m' = m from hr]
      refine Safe.gets fun _ => (hI.freeSlotLoop hk _).keep (keeps_freeSlotLoop e _ _) ?_
      intro off hoff
      refine (hI.writeEntry hk (Dirent.codec.length_encode _) hoff fun _ => ?_).next fun _ _ _ =>
        Safe.last_assert (by decide)
      rw [Codec.decode_encode]
      exact hi

theorem safe_dirUnlink (e : Idx) (name : Name) :
    Safe I env (m.take e) (dirUnlink e name) Any := by
  refine (hI.lock e).bind (E := Any) (tri_lock e) fun _ m₁ _ hm₁ => ?_
  obtain ⟨he, rfl⟩ := hm₁
  have he : m.locks e = none := he
  refine (safe_guarded hI hfree e (hI.dirLookupOffset (by simp) name)).bind
    (tri_guarded_ok e (tri_dirLookupOffset e name)) fun r m₂ hoff hm₂ => ?_
  subst hm₂
  obtain ⟨ip, off⟩ := r
  -- both inodes are locked before the entry is zeroed
  have hlocked : ∀ m', (((m.take e).setLock e (some env.pid)).take ip).locks ip = none ∧
      m' = (((m.take e).setLock e (some env.pid)).take ip).setLock ip (some env.pid) →
      ip ≠ e ∧ m.locks ip = none ∧
        m' = (((m.take ip).setLock ip (some env.pid)).take e).setLock e (some env.pid) := by
    intro m' ⟨hl, hm'⟩
    have hne : ip ≠ e := by
      intro heq
      rw [heq] at hl
      simp [Marks.setLock_take] at hl
    refine ⟨hne, by simpa [Marks.setLock_take, Marks.setLock_locks_ne _ _ hne] using hl, ?_⟩
    rw [hm', Marks.setLock_take, Marks.setLock_take, Marks.setLock_comm _ _ _ hne.symm,
      Marks.take_comm]
  refine Safe.bind (V := Any) (E := Any) (Q := fun _ m' => ip ≠ e ∧ m.locks ip = none ∧
    m' = (((m.take ip).setLock ip (some env.pid)).take e).setLock e (some env.pid)) ?_ ?_ ?_
  · refine safe_guarded hI hfree e ((hI.lock ip).bind (E := Any) (tri_lock ip) fun _ m' _ hm' => ?_)
    obtain ⟨hne, -, rfl⟩ := hlocked m' hm'
    refine safe_guarded hI hfree ip (safe_unlinkEntry hI (by simp) ?_ hoff)
    rw [Marks.setLock_locks_ne _ _ hne]
    simp
  · refine tri_guarded_ok (E := Any) e ((tri_lock ip).bind fun _ m' hm' => ?_)
    refine tri_guarded_ok ip ((keeps_unlinkEntry e ip off env m').imp (fun _ _ h => ?_) fun _ h => h)
    rw [h]
    exact hlocked m' hm'
  · intro _ m₃ _ ⟨hne, hip, hm₃⟩
    subst hm₃
    have he' : ((m.take ip).setLock ip (some env.pid)).locks e = none := by
      rw [Marks.setLock_locks_ne _ _ hne.symm]
      exact he
    refine Safe.next (V := Any) (safe_guarded hI hfree ip ?_) fun _ _ _ => safe_unlockPut hI hfree ip
    refine (safe_unlockPut hI hfree e).bind (E := Any) (tri_unlockPut hfree he') fun _ m₄ _ hm₄ => ?_
    subst hm₄
    exact (safe_nlinkDec hI (by simp)).keep (keeps_nlinkDec ip) fun _ _ => hI.update (by simp)

theorem safe_namexLoop (fuel : Nat) (path : Name) (ip : Idx) :
    Safe I env m (namexLoop fuel path ip) Any := by
  induction fuel generalizing m path ip with
  | zero => exact Safe.pure trivial
  | succ fuel ih =>
      unfold namexLoop
      split
      · exact Safe.pure trivial
      · refine Safe.ite (fun _ => Safe.pure trivial) fun _ => ?_
        refine Safe.next (V := Any) (safe_withPutlock hI hfree ip ?_) fun next _ _ => ih _ next
        refine ((safe_typ ip).keep (V := Any) (keeps_typ ip) fun _ _ => ?_).keep (V := Any) ?_
          fun _ _ => safe_dirLookup hI (by simp) _
        · exact Safe.ite (fun _ => Safe.throw) fun _ => Safe.pure trivial
        · exact (keeps_typ ip).bind fun _ => Keeps.ite Keeps.throw Keeps.pure

variable (hroot : rootIno.toNat < env.sb.ninodes.toNat)
  (hcwd : ∀ e, env.cwd = some e → 0 < m.refs e)

include hroot hcwd

theorem safe_namex (path : Name) : Safe I env m (namex path) Any := by
  unfold namex
  dsimp only
  split
  · exact (hI.get hroot).next fun ip _ _ => safe_namexLoop hI hfree _ _ ip
  · refine Safe.keep (V := fun e => env.cwd = some e) (Safe.env' ?_) (Keeps.env fun _ => ?_)
      fun e he => (hI.dup (hcwd e he)).next fun _ _ _ => safe_namexLoop hI hfree _ _ e
    · cases hc : env.cwd with
      | none => exact Safe.abort (by decide)
      | some e => exact Safe.pure rfl
    · split
      · exact Keeps.pure
      · exact Keeps.abort

theorem safe_namei (path : Name) : Safe I env m (namei path) Any :=
  Safe.ite (fun _ => Safe.throw) fun _ => safe_namex hI hfree hroot hcwd path

theorem safe_nameiParent (path : Name) : Safe I env m (nameiParent path) Any := by
  refine Safe.ite (fun _ => Safe.throw) fun _ => ?_
  refine (safe_namex hI hfree hroot hcwd _).next fun ip _ _ => (hI.lock ip).next fun _ _ _ => ?_
  refine (safe_typ ip).next fun _ _ _ => Safe.ite (fun _ => ?_) fun _ => ?_
  · exact (safe_dropGuard hI hfree ip).next fun _ _ _ => Safe.throw
  · exact (hI.unlock ip).next fun _ _ _ => Safe.pure trivial

omit hroot hcwd

theorem safe_linkDots {dp ip : Idx} (hd : m.locks dp = some env.pid)
    (hk : m.locks ip = some env.pid) (t : CreateType) :
    Safe I env m (linkDots dp ip t) Any := by
  cases t with
  | file => exact Safe.pure trivial
  | dev major minor => exact Safe.pure trivial
  | dir =>
      refine (safe_nlinkInc hI hd).keep (keeps_nlinkInc dp) fun _ _ => ?_
      refine ((hI.update hd).expect (by decide)).keep (keeps_update dp).expect fun _ _ => ?_
      refine safe_inode hI ip hk fun nip hi => ?_
      refine ((safe_dirLink hI hfree hk dot hi).expect (by decide)).bind (E := Any)
        (Tri.expect (tri_dirLink hfree ip dot _)) fun _ m' _ hm' => ?_
      rw [hm']
      exact safe_inode hI dp hd fun ndp hi' => (safe_dirLink hI hfree hk dotdot hi').expect (by decide)

theorem safe_initInode {dp : Idx} (hd : m.locks dp = some env.pid) (ip : Idx) (name : Name)
    (t : CreateType) : Safe I env m (initInode dp ip name t) Any := by
  refine (hI.lock ip).bind (E := Any) (tri_lock ip) fun _ m' _ hm' => ?_
  obtain ⟨hl, rfl⟩ := hm'
  have hne : dp ≠ ip := by
    intro heq
    rw [heq, hl] at hd
    cases hd
  have hd' : (m.setLock ip (some env.pid)).locks dp = some env.pid := by
    rw [Marks.setLock_locks_ne _ _ hne]
    exact hd
  have hk : (m.setLock ip (some env.pid)).locks ip = some env.pid := by simp
  refine (safe_nlinkInc hI hk).keep (keeps_nlinkInc ip) fun _ _ => ?_
  refine (safe_setDevice hI hk t).keep (keeps_setDevice ip t) fun _ _ => ?_
  refine ((hI.update hk).expect (by decide)).keep (keeps_update ip).expect fun _ _ => ?_
  refine (safe_linkDots hI hfree hd' hk t).bind (E := Any) (tri_linkDots hfree dp ip t)
    fun _ m' _ hm' => ?_
  rw [hm']
  exact safe_inode hI ip hk fun nip hi => (safe_dirLink hI hfree hd' name hi).expect (by decide)

theorem safe_reuseInode (ip : Idx) (t : CreateType) : Safe I env m (reuseInode ip t) Any := by
  refine (hI.lock ip).next fun _ _ _ => safe_guarded hI hfree ip
    (Safe.ite (fun _ => Safe.throw) fun _ => ?_)
  exact (safe_typ ip).next fun _ _ _ => Safe.ite (fun _ => Safe.throw) fun _ => Safe.pure trivial

include hroot hcwd

theorem safe_create (path : Name) (t : CreateType) : Safe I env m (create path t) Any := by
  refine (safe_nameiParent hI hfree hroot hcwd path).next fun r _ _ => ?_
  refine (hI.lock r.1).bind (E := Any) (tri_lock r.1) fun _ m' _ hm' => ?_
  obtain ⟨-, rfl⟩ := hm'
  refine (safe_dirLookup hI (by simp) r.2).attempt.bind (E := Any) (Tri.attempt (tri_dirLookup r.1 r.2))
    fun found m₁ _ hm₁ => ?_
  cases found with
  | ok ip =>
      refine (safe_dropGuard hI hfree r.1).next fun _ _ _ => ?_
      exact (safe_reuseInode hI hfree ip t).next fun _ _ _ => Safe.pure trivial
  | error _ =>
      rw [show m₁ = _ from hm₁]
      refine (safe_guarded hI hfree r.1 (hI.ialloc _)).bind (tri_guarded_ok r.1 (tri_ialloc _))
        fun ip m₂ _ hm₂ => ?_
      rw [show m₂ = _ from hm₂]
      refine (safe_initInode hI hfree (by simp) ip r.2 t).next fun _ _ _ => ?_
      exact (safe_dropGuard hI hfree r.1).next fun _ _ _ => Safe.pure trivial

end Guards

end Calls

/-! ## Calls -/

/-- The calls of the inode layer. -/
inductive Call where
  | opBegin
  | opEnd
  | get (inum : UInt64)
  | dup (e : Idx)
  | lock (e : Idx)
  | unlock (e : Idx)
  | put (e : Idx)
  | ialloc (t : FileType)
  | nlinkInc (e : Idx)
  | nlinkDec (e : Idx)
  | setDevice (e : Idx) (t : CreateType)
  | update (e : Idx)
  | trunc (e : Idx)
  | bmap (e : Idx) (bn : Nat)
  | readi (e : Idx) (len : Nat) (off : UInt64)
  | writei (e : Idx) (src : List UInt8) (off : UInt64)
  | dirLookup (e : Idx) (name : Name)
  | dirLink (e : Idx) (name : Name) (inum : UInt64)
  | unlinkEntry (e ip : Idx) (off : Nat)
  | dirUnlink (e : Idx) (name : Name)
  | namei (path : Name)
  | nameiParent (path : Name)
  | create (path : Name) (t : CreateType)

namespace Call

/-- The result of a call does not matter here. -/
def drop {α : Type} (p : FsM α) : FsM Unit := do
  let _ ← p
  pure ()

/-- `trunc` reads with the luck of the branch of `put` it is called from. -/
def run : Call → FsM Unit
  | opBegin => Fs.opBegin
  | opEnd => Fs.opEnd
  | get inum => drop (Fs.get inum)
  | dup e => Fs.dup e
  | lock e => Fs.lock e
  | unlock e => Fs.unlock e
  | put e => Fs.put e
  | ialloc t => drop (Fs.ialloc t)
  | nlinkInc e => Fs.nlinkInc e
  | nlinkDec e => Fs.nlinkDec e
  | setDevice e t => Fs.setDevice e t
  | update e => Fs.update e
  | trunc e => within Env.freeing (Fs.trunc e)
  | bmap e bn => drop (Fs.bmap e bn)
  | readi e len off => drop (Fs.readi e len off)
  | writei e src off => drop (Fs.writei e src off)
  | dirLookup e name => drop (Fs.dirLookup e name)
  | dirLink e name inum => Fs.dirLink e name inum
  | unlinkEntry e ip off => Fs.unlinkEntry e ip off
  | dirUnlink e name => Fs.dirUnlink e name
  | namei path => drop (Fs.namei path)
  | nameiParent path => drop (Fs.nameiParent path)
  | create path t => drop (Fs.create path t)

/-- What the callers of the kernel see to: an inode is worked on under its
lock, a directory is written entry by entry only, inode numbers are those of
the table, and a working directory is referenced. -/
def Ready (env : Env) (s : State) : Call → Prop
  | get inum => inum.toNat < env.sb.ninodes.toNat
  | dup e => 0 < (s.icache e).refCnt
  | nlinkInc e => (s.icache e).lock = some env.pid
  | nlinkDec e => (s.icache e).lock = some env.pid
  | setDevice e _ => (s.icache e).lock = some env.pid
  | update e => (s.icache e).lock = some env.pid
  | trunc e => (s.icache e).lock = some env.pid
  | bmap e _ => (s.icache e).lock = some env.pid
  | readi e _ _ => (s.icache e).lock = some env.pid
  | writei e _ _ => (s.icache e).lock = some env.pid ∧
      (s.icache e).dinode.typ ≠ FileType.dir.toU32
  | dirLookup e _ => (s.icache e).lock = some env.pid
  | dirLink e _ inum => (s.icache e).lock = some env.pid ∧ inum.toNat < env.sb.ninodes.toNat
  | unlinkEntry e ip off => (s.icache e).lock = some env.pid ∧
      (s.icache ip).lock = some env.pid ∧ off % direntSize = 0
  | dirUnlink e _ => 0 < (s.icache e).refCnt
  | namei _ => ∀ e, env.cwd = some e → 0 < (s.icache e).refCnt
  | nameiParent _ => ∀ e, env.cwd = some e → 0 < (s.icache e).refCnt
  | create _ _ => ∀ e, env.cwd = some e → 0 < (s.icache e).refCnt
  | _ => True

instance (env : Env) (s : State) (c : Call) : Decidable (c.Ready env s) := by
  delta Ready
  cases c <;> infer_instance

end Call

section Calls

variable {I : State → Prop} {env : Env} {s : State}

theorem Safe.drop {α : Type} {m : Marks} {p : FsM α} {V : α → Prop} (h : Safe I env m p V) :
    Safe I env m (Call.drop p) Any := h.next fun _ _ _ => Safe.pure trivial

/-- The marks are those of a state with one reference fewer to an entry that
is referenced. -/
theorem marks_take {e : Idx} (href : 0 < (s.icache e).refCnt) : ∃ m : Marks, marks s = m.take e := by
  refine ⟨{ marks s with refs := (marks s).refs - Pi.single e 1 }, Marks.ext (funext fun e' => ?_) rfl⟩
  by_cases he : e' = e
  · subst he
    simp [marks, Marks.take]
    omega
  · simp [marks, Marks.take, he]

/-- **Every call keeps the invariant.** -/
theorem Call.safe {c : Call} (hI : Upheld env I) (h : I s) (hfree : ∀ k, env.freeReadOk k = true)
    (hend : c = .opEnd → Safe I env (marks s) Fs.opEnd Any) (hready : c.Ready env s) :
    Sat (c.run env s) (fun _ s' => I s') (fun _ s' => I s') (fun t => t ≠ freeingFree) := by
  have hsafe : ∀ p : FsM Unit, Safe I env (marks s) p Any → Sat (p env s) (fun _ s' => I s')
      (fun _ s' => I s') (fun t => t ≠ freeingFree) :=
    fun p hp => (hp s h rfl).imp (fun _ _ h => h.1) (fun _ _ h => h) fun _ h => h
  cases c with
  | opBegin => exact hsafe _ hI.opBegin
  | opEnd => exact hsafe _ (hend rfl)
  | get inum => exact hsafe _ (hI.get hready).drop
  | dup e => exact hsafe _ (hI.dup hready)
  | lock e => exact hsafe _ (hI.lock e)
  | unlock e => exact hsafe _ (hI.unlock e)
  | put e => exact hsafe _ (hI.put hfree e)
  | ialloc t => exact hsafe _ (hI.ialloc t).drop
  | nlinkInc e => exact hsafe _ (safe_nlinkInc hI hready)
  | nlinkDec e => exact hsafe _ (safe_nlinkDec hI hready)
  | setDevice e t => exact hsafe _ (safe_setDevice hI (m := marks s) hready t)
  | update e => exact hsafe _ (hI.update hready)
  | trunc e => exact hsafe _ (hI.trunc hfree hready)
  | bmap e bn => exact hsafe _ (hI.bmap (m := marks s) hready bn).drop
  | readi e len off => exact hsafe _ (hI.readi (m := marks s) hready len off).drop
  | writei e src off =>
      exact Sat.seq (hI.writei src off h hready.1 hready.2) fun _ _ hs => Sat.pure hs
  | dirLookup e name => exact hsafe _ (safe_dirLookup hI (m := marks s) hready name).drop
  | dirLink e name inum => exact hsafe _ (safe_dirLink hI hfree hready.1 name hready.2)
  | unlinkEntry e ip off => exact hsafe _ (safe_unlinkEntry hI hready.1 hready.2.1 hready.2.2)
  | dirUnlink e name =>
      obtain ⟨m, hm⟩ := marks_take hready
      refine hsafe _ ?_
      rw [hm]
      exact safe_dirUnlink hI hfree e name
  | namei path => exact hsafe _ (safe_namei hI (m := marks s) hfree (hI.root h) hready path).drop
  | nameiParent path => exact hsafe _ (safe_nameiParent hI (m := marks s) hfree (hI.root h) hready path).drop
  | create path t => exact hsafe _ (safe_create hI (m := marks s) hfree (hI.root h) hready path t).drop

end Calls

end Rxv64.Fs
