import Mathlib.Algebra.Group.Pi.Basic
import Rxv64.Fs.Dir

/-!
# Fs.Marks — references and locks

What file system code does to the reference counts and the locks of the
inode cache. Most functions leave both alone; `get` adds one reference to
the entry it returns, `put` takes one away, `lock` and `unlock` do what they
say, and the effect of everything above them follows from these four.

`Tri` is a triple over the two vectors. It is a partial one: code that
panics or sleeps forever owes nothing, so the lock that `put` takes and
releases need not be free beforehand for the rule to hold.

`put` gives its reference back only when it does not fail, and it fails only
when a block read fails while it frees the inode (`hfree` below).
-/

namespace Rxv64.Fs

open Prog

/-- The reference counts and the holders of the locks. -/
@[ext] structure Marks where
  refs : Idx → Nat
  locks : Idx → Option Pid

def marks (s : State) : Marks := ⟨fun e => (s.icache e).refCnt, fun e => (s.icache e).lock⟩

namespace Marks

/-- One more reference to `e`. -/
def take (m : Marks) (e : Idx) : Marks := { m with refs := m.refs + Pi.single e 1 }

def setLock (m : Marks) (e : Idx) (l : Option Pid) : Marks :=
  { m with locks := Function.update m.locks e l }

@[simp] theorem take_locks (m : Marks) (e : Idx) : (m.take e).locks = m.locks := rfl

@[simp] theorem setLock_refs (m : Marks) (e : Idx) (l : Option Pid) :
    (m.setLock e l).refs = m.refs := rfl

@[simp] theorem setLock_locks_self (m : Marks) (e : Idx) (l : Option Pid) :
    (m.setLock e l).locks e = l := Function.update_self ..

theorem setLock_locks_ne (m : Marks) {e e' : Idx} (l : Option Pid) (h : e' ≠ e) :
    (m.setLock e l).locks e' = m.locks e' := Function.update_of_ne h ..

theorem take_comm (m : Marks) (e e' : Idx) : (m.take e).take e' = (m.take e').take e := by
  simp only [take, add_right_comm]

theorem setLock_take (m : Marks) (e e' : Idx) (l : Option Pid) :
    (m.setLock e l).take e' = (m.take e').setLock e l := rfl

theorem setLock_comm (m : Marks) {e e' : Idx} (l l' : Option Pid) (h : e ≠ e') :
    (m.setLock e l).setLock e' l' = (m.setLock e' l').setLock e l := by
  simp only [setLock, Function.update_comm h]

/-- Releasing a lock that was free before. -/
theorem setLock_none (m : Marks) {e : Idx} (l : Option Pid) (h : m.locks e = none) :
    (m.setLock e l).setLock e none = m := by
  simp only [setLock, Function.update_idem, ← h, Function.update_eq_self]

end Marks

/-- Started with the marks `m`, code ends with marks that satisfy `Q a` when
it returns `a` and `E` when it returns an error. -/
def Tri {α : Type} (env : Env) (m : Marks) (p : FsM α) (Q : α → Marks → Prop)
    (E : Marks → Prop) : Prop :=
  ∀ s, marks s = m →
    Sat (p env s) (fun a s' => Q a (marks s')) (fun _ s' => E (marks s')) (fun _ => True)

namespace Tri

variable {α β : Type} {env : Env} {m : Marks} {p : FsM α} {g : α → FsM β}
  {Q Q' : α → Marks → Prop} {R : β → Marks → Prop} {E E' : Marks → Prop}

theorem imp (hp : Tri env m p Q E) (hq : ∀ a m', Q a m' → Q' a m')
    (he : ∀ m', E m' → E' m') : Tri env m p Q' E' := fun s hs =>
  (hp s hs).imp (fun a _ => hq a _) (fun _ _ => he _) (fun _ h => h)

theorem pure {a : α} (h : Q a m) : Tri env m (Pure.pure a : FsM α) Q E := by
  rintro s rfl
  exact ⟨h⟩

theorem bind (hp : Tri env m p Q E) (hg : ∀ a m', Q a m' → Tri env m' (g a) R E) :
    Tri env m (p >>= g) R E := fun s hs => (hp s hs).seq fun a s' h => hg a _ h s' rfl

theorem env' {g : Env → FsM β} (h : Tri env m (g env) R E) :
    Tri env m (Prog.env >>= g) R E := h

theorem gets {h : State → α} (hg : ∀ a, Tri env m (g a) R E) :
    Tri env m (Prog.gets h >>= g) R E := fun s hs => hg (h s) s hs

theorem throw {e : String} (h : E m) : Tri env m (Prog.throw e : FsM α) Q E := by
  rintro s rfl
  exact ⟨h⟩

theorem abort {t : String} : Tri env m (Prog.abort t : FsM α) Q E := fun _ _ => ⟨trivial⟩

theorem assert {c : Prop} [Decidable c] {t : String} {g : Unit → FsM β}
    (h : c → Tri env m (g ()) R E) : Tri env m (Prog.assert c t >>= g) R E :=
  fun s hs => Sat.assert (fun _ => trivial) fun hc => h hc s hs

theorem attempt (hp : Tri env m p Q E') :
    Tri env m (Prog.attempt p)
      (fun a m' => match a with | .ok a => Q a m' | .error _ => E' m') E := by
  intro s hs
  refine (Sat.attempt (hp s hs)).imp ?_ (fun _ _ h => h) (fun _ h => h)
  rintro (e | a) s' h <;> exact h

theorem ignore (hp : Tri env m p (fun _ => E') E') : Tri env m (Prog.ignore p) (fun _ => E') E :=
  fun s hs => Sat.ignore (hp s hs)

theorem expect {t : String} (hp : Tri env m p Q E') : Tri env m (Prog.expect p t) Q E :=
  fun s hs => Sat.expect (hp s hs) fun _ _ _ => trivial

theorem onErr {fin : FsM Unit} (hp : Tri env m p Q E')
    (hfin : ∀ m', E' m' → Tri env m' fin (fun _ => E) E) : Tri env m (Prog.onErr p fin) Q E :=
  fun s hs => Sat.onErr (hp s hs) fun _ s' h => hfin _ h s' rfl

theorem within {t : Env → Env} (hp : Tri (t env) m p Q E) :
    Tri env m (Prog.within t p) Q E := fun s hs => hp s hs

end Tri

/-! ## Code that leaves the marks alone -/

/-- The marks are the same after `p`, whether it returns or fails. -/
def Keeps {α : Type} (p : FsM α) : Prop :=
  ∀ env m, Tri env m p (fun _ m' => m' = m) (fun m' => m' = m)

namespace Keeps

variable {α β : Type} {p : FsM α} {g : α → FsM β}

theorem pure {a : α} : Keeps (Pure.pure a : FsM α) := fun _ _ => Tri.pure rfl

theorem bind (hp : Keeps p) (hg : ∀ a, Keeps (g a)) : Keeps (p >>= g) := by
  intro env m
  refine (hp env m).bind ?_
  rintro a _ rfl
  exact hg a env _

theorem env {g : Env → FsM β} (h : ∀ a, Keeps (g a)) : Keeps (Prog.env >>= g) :=
  fun env m => Tri.env' (h env env m)

theorem gets {h : State → α} (hg : ∀ a, Keeps (g a)) : Keeps (Prog.gets h >>= g) :=
  fun env m => Tri.gets fun a => hg a env m

theorem throw {e : String} : Keeps (Prog.throw e : FsM α) := fun _ _ => Tri.throw rfl

theorem abort {t : String} : Keeps (Prog.abort t : FsM α) := fun _ _ => Tri.abort

theorem assert {c : Prop} [Decidable c] {t : String} {g : Unit → FsM β} (h : Keeps (g ())) :
    Keeps (Prog.assert c t >>= g) := fun env m => Tri.assert fun _ => h env m

theorem last_assert {c : Prop} [Decidable c] {t : String} : Keeps (Prog.assert c t) :=
  fun _ _ _ hs => Sat.last_assert (fun _ => trivial) fun _ => hs

theorem ite {c : Prop} [Decidable c] {p p' : FsM α} (h : Keeps p) (h' : Keeps p') :
    Keeps (if c then p else p') := by
  split
  · exact h
  · exact h'

theorem expect {t : String} (hp : Keeps p) : Keeps (Prog.expect p t) :=
  fun env m => (hp env m).expect

theorem modify {h : State → State} (hh : ∀ s, marks (h s) = marks s) :
    Keeps (Prog.modify h) := fun _ _ s hs => ⟨(hh s).trans hs⟩

/-- Code that keeps the marks and cannot fail meets any error condition. -/
theorem tri {env : Env} (h : Keeps p) (hn : NeverFails env p) (m : Marks) {E : Marks → Prop} :
    Tri env m p (fun _ m' => m' = m) E := fun s hs =>
  ((h env m s hs).and (hn s)).imp (fun _ _ h => h.1) (fun _ _ h => h.2.elim) (fun _ h => h.1)

end Keeps

theorem marks_setInode (s : State) (e : Idx) (ip : Inode) :
    marks (s.setInode e ip) =
      ⟨Function.update (marks s).refs e ip.refCnt, Function.update (marks s).locks e ip.lock⟩ := by
  ext e'
  · by_cases he : e' = e
    · subst he
      simp [marks, State.setInode]
    · simp [marks, State.setInode, he]
  · by_cases he : e' = e
    · subst he
      simp [marks, State.setInode]
    · simp [marks, State.setInode, he]

theorem keeps_inode {β : Type} {e : Idx} {g : Inode → FsM β} (hg : ∀ a, Keeps (g a)) :
    Keeps (inode e >>= g) := Keeps.gets hg

theorem keeps_modifyInode (e : Idx) {h : Inode → Inode} (hr : ∀ ip, (h ip).refCnt = ip.refCnt)
    (hl : ∀ ip, (h ip).lock = ip.lock) : Keeps (modifyInode e h) := by
  refine Keeps.modify fun s => ?_
  rw [marks_setInode, hr, hl]
  exact Marks.ext (Function.update_eq_self _ _) (Function.update_eq_self _ _)

theorem keeps_modifyDinode (e : Idx) (h : DInode → DInode) : Keeps (modifyDinode e h) :=
  keeps_modifyInode e (fun _ => rfl) (fun _ => rfl)

theorem keeps_bread (b : UInt64) : Keeps (bread b) := by
  intro env m s hs
  unfold bread
  dsimp only
  split
  · exact ⟨hs⟩
  · exact ⟨hs⟩

theorem keeps_fslogWrite (b : UInt64) : Keeps (fslogWrite b) := by
  intro env m s hs
  unfold fslogWrite
  split
  · exact ⟨trivial⟩
  · split
    · exact ⟨trivial⟩
    · split
      · exact ⟨hs⟩
      · exact ⟨trivial⟩

theorem keeps_poke (b : UInt64) (blk : Block) : Keeps (poke b blk) := Keeps.modify fun _ => rfl

theorem keeps_store (b : UInt64) (blk : Block) : Keeps (store b blk) :=
  (keeps_poke b blk).bind fun _ => keeps_fslogWrite b

theorem keeps_bzero (b : UInt64) : Keeps (bzero b) :=
  (keeps_bread b).expect.bind fun _ => keeps_store b _

theorem keeps_ballocLoop (sb : Superblock) (fuel j : Nat) : Keeps (ballocLoop sb fuel j) := by
  induction fuel generalizing j with
  | zero => exact Keeps.throw
  | succ fuel ih =>
      unfold ballocLoop
      refine Keeps.ite Keeps.throw ((keeps_bread _).bind fun blk => ?_)
      split
      · exact (keeps_store _ _).bind fun _ => (keeps_bzero _).bind fun _ => Keeps.pure
      · exact ih _

theorem keeps_balloc : Keeps balloc := Keeps.env fun _ => keeps_ballocLoop _ _ _

theorem keeps_bfree (b : UInt64) : Keeps (bfree b) :=
  Keeps.env fun _ => (keeps_bread _).expect.bind fun _ => Keeps.assert (keeps_store _ _)

theorem keeps_holding (e : Idx) : Keeps (holding e) :=
  Keeps.env fun _ => keeps_inode fun _ => Keeps.pure

theorem keeps_typ (e : Idx) : Keeps (typ e) := by
  refine keeps_inode fun ip => ?_
  split
  · exact Keeps.pure
  · exact Keeps.abort

theorem keeps_nlinkInc (e : Idx) : Keeps (nlinkInc e) :=
  keeps_inode fun _ => Keeps.assert (keeps_modifyDinode e _)

theorem keeps_nlinkDec (e : Idx) : Keeps (nlinkDec e) :=
  keeps_inode fun _ => Keeps.assert (keeps_modifyDinode e _)

theorem keeps_update (e : Idx) : Keeps (update e) :=
  Keeps.env fun _ => keeps_inode fun _ => (keeps_bread _).bind fun _ => keeps_store _ _

theorem keeps_lockRead (e : Idx) : Keeps (lockRead e) := by
  refine Keeps.env fun _ => keeps_inode fun _ => Keeps.ite Keeps.pure ?_
  refine (keeps_bread _).expect.bind fun _ => Keeps.bind (keeps_modifyInode e ?_ ?_) fun _ => ?_
  · exact fun _ => rfl
  · exact fun _ => rfl
  · exact (keeps_typ e).bind fun _ => Keeps.last_assert

theorem keeps_bmapRoot (e : Idx) : Keeps (bmapRoot balloc e) := by
  refine keeps_inode fun _ => Keeps.ite ?_ Keeps.pure
  exact keeps_balloc.bind fun _ => (keeps_modifyDinode e _).bind fun _ => Keeps.pure

theorem keeps_bmap (e : Idx) (bn : Nat) : Keeps (bmap e bn) := by
  refine (keeps_holding e).bind fun _ => Keeps.assert ?_
  split
  · refine keeps_inode fun _ => Keeps.ite ?_ Keeps.pure
    exact keeps_balloc.bind fun _ => (keeps_modifyDinode e _).bind fun _ => Keeps.pure
  · refine Keeps.ite ((keeps_bmapRoot e).bind fun a => (keeps_bread a).bind fun blk => ?_) Keeps.throw
    split
    · refine keeps_balloc.bind fun _ => Keeps.gets fun _ => ?_
      exact (keeps_store _ _).bind fun _ => Keeps.pure
    · exact Keeps.pure

theorem keeps_readiLoop (e : Idx) (n fuel total off : Nat) (acc : List UInt8) :
    Keeps (readiLoop balloc e n fuel total off acc) := by
  induction fuel generalizing total off acc with
  | zero => exact Keeps.pure
  | succ fuel ih =>
      exact Keeps.ite ((keeps_bmap e _).bind fun _ => (keeps_bread _).bind fun _ => ih _ _ _)
        Keeps.pure

theorem keeps_readi (e : Idx) (len : Nat) (off : UInt64) : Keeps (readi e len off) :=
  keeps_inode fun _ => Keeps.ite Keeps.throw (Keeps.ite Keeps.throw (keeps_readiLoop e _ _ _ _ _))

theorem keeps_writeiLoop (e : Idx) (src : List UInt8) (fuel total off : Nat) :
    Keeps (writeiLoop e src fuel total off) := by
  induction fuel generalizing total off with
  | zero => exact Keeps.pure
  | succ fuel ih =>
      refine Keeps.ite ((keeps_bmap e _).bind fun _ => (keeps_bread _).bind fun _ => ?_) Keeps.pure
      exact (keeps_store _ _).bind fun _ => ih _ _

theorem keeps_extend (e : Idx) (n off : Nat) : Keeps (extend e n off) := by
  refine keeps_inode fun _ => Keeps.ite ?_ Keeps.pure
  exact (keeps_modifyDinode e _).bind fun _ => keeps_update e

theorem keeps_writei (e : Idx) (src : List UInt8) (off : UInt64) : Keeps (writei e src off) := by
  refine keeps_inode fun _ => Keeps.ite Keeps.throw (Keeps.ite Keeps.throw (Keeps.ite Keeps.throw ?_))
  exact (keeps_writeiLoop e src _ _ _).bind fun _ => (keeps_extend e _ _).bind fun _ => Keeps.pure

theorem keeps_readDirent (e : Idx) (off : Nat) : Keeps (readDirent e off) :=
  (keeps_readi e _ _).bind fun _ => Keeps.assert Keeps.pure

theorem keeps_freeSlotLoop (e : Idx) (fuel off : Nat) : Keeps (freeSlotLoop e fuel off) := by
  induction fuel generalizing off with
  | zero => exact Keeps.pure
  | succ fuel ih =>
      refine keeps_inode fun _ => Keeps.ite ?_ Keeps.pure
      exact (keeps_readDirent e _).bind fun _ => Keeps.ite Keeps.pure (ih _)

theorem keeps_isUnlinkableLoop (e : Idx) (size fuel k : Nat) :
    Keeps (isUnlinkableLoop e size fuel k) := by
  induction fuel generalizing k with
  | zero => exact Keeps.pure
  | succ fuel ih =>
      exact Keeps.ite ((keeps_readDirent e _).bind fun _ => Keeps.ite Keeps.pure (ih _)) Keeps.pure

theorem keeps_isUnlinkable (e : Idx) : Keeps (isUnlinkable e) :=
  (keeps_typ e).bind fun _ =>
    Keeps.ite (keeps_inode fun _ => keeps_isUnlinkableLoop e _ _ _) Keeps.pure

theorem keeps_unlinkEntry (e ip : Idx) (off : Nat) : Keeps (unlinkEntry e ip off) := by
  refine keeps_inode fun _ => Keeps.assert ((keeps_isUnlinkable ip).bind fun _ => ?_)
  refine Keeps.ite Keeps.throw ((keeps_writei e _ _).expect.bind fun _ => Keeps.assert ?_)
  refine (keeps_typ ip).bind fun _ => Keeps.ite ?_ Keeps.pure
  exact (keeps_nlinkDec e).bind fun _ => keeps_update e

/-! ## Code that cannot fail

These return no error in an environment whose reads all succeed. -/

theorem neverFails_fslogWrite {env : Env} (b : UInt64) : NeverFails env (fslogWrite b) := by
  intro s
  unfold fslogWrite
  split
  · exact ⟨trivial⟩
  · split
    · exact ⟨trivial⟩
    · split <;> exact ⟨trivial⟩

theorem neverFails_store {env : Env} (b : UInt64) (blk : Block) :
    NeverFails env (store b blk) := NeverFails.modify.bind fun _ => neverFails_fslogWrite b

theorem neverFails_bread {env : Env} (hr : ∀ n, env.readOk n = true) (b : UInt64) :
    NeverFails env (bread b) := by
  intro s
  unfold bread
  simp only [hr, if_true]
  exact ⟨trivial⟩

theorem neverFails_bfree {env : Env} (b : UInt64) : NeverFails env (bfree b) :=
  NeverFails.env ((NeverFails.expect _).bind fun _ => NeverFails.assert (neverFails_store _ _))

theorem neverFails_holding {env : Env} (e : Idx) : NeverFails env (holding e) :=
  NeverFails.env (NeverFails.gets fun _ => NeverFails.pure)

theorem neverFails_typ {env : Env} (e : Idx) : NeverFails env (typ e) := by
  refine NeverFails.gets fun ip => ?_
  split
  · exact NeverFails.pure
  · exact NeverFails.abort

theorem neverFails_lockRead {env : Env} (e : Idx) : NeverFails env (lockRead e) := by
  refine NeverFails.env (NeverFails.gets fun _ => NeverFails.ite NeverFails.pure ?_)
  refine (NeverFails.expect _).bind fun _ => NeverFails.modify.bind fun _ => ?_
  exact (neverFails_typ e).bind fun _ => NeverFails.last_assert

theorem neverFails_nlinkInc {env : Env} (e : Idx) : NeverFails env (nlinkInc e) :=
  NeverFails.gets fun _ => NeverFails.assert NeverFails.modify

theorem neverFails_update {env : Env} (hr : ∀ n, env.readOk n = true) (e : Idx) :
    NeverFails env (update e) :=
  NeverFails.env (NeverFails.gets fun _ => (neverFails_bread hr _).bind fun _ =>
    neverFails_store _ _)

theorem neverFails_truncDirect {env : Env} (e : Idx) (fuel k : Nat) :
    NeverFails env (truncDirect e fuel k) := by
  induction fuel generalizing k with
  | zero => exact NeverFails.pure
  | succ fuel ih =>
      unfold truncDirect
      split
      · refine NeverFails.gets fun _ => NeverFails.ite (ih _) ?_
        exact (neverFails_bfree _).bind fun _ => NeverFails.modify.bind fun _ => ih _
      · exact NeverFails.pure

theorem neverFails_truncIndirect {env : Env} (a : UInt64) (fuel k : Nat) :
    NeverFails env (truncIndirect a fuel k) := by
  induction fuel generalizing k with
  | zero => exact NeverFails.pure
  | succ fuel ih =>
      unfold truncIndirect
      refine NeverFails.gets fun blk => ?_
      split
      · exact ih _
      · refine (neverFails_bfree _).bind fun _ => NeverFails.gets fun _ => ?_
        exact NeverFails.modify.bind fun _ => ih _

theorem neverFails_trunc1 {env : Env} (hr : ∀ n, env.readOk n = true) (e : Idx) :
    NeverFails env (trunc1 e) := by
  refine (neverFails_truncDirect e _ _).bind fun _ => NeverFails.gets fun _ => ?_
  dsimp only
  refine NeverFails.ite NeverFails.modify ((neverFails_bread hr _).bind fun _ => ?_)
  refine (neverFails_truncIndirect _ _ _).bind fun _ => (neverFails_bfree _).bind fun _ => ?_
  exact NeverFails.modify

theorem neverFails_putFree {env : Env} (hr : ∀ n, env.readOk n = true) (e : Idx) :
    NeverFails env (putFree e) := by
  refine NeverFails.bind ?_ fun _ => NeverFails.modify.bind fun _ => ?_
  · exact (neverFails_holding e).bind fun _ => NeverFails.assert
      ((neverFails_trunc1 hr e).bind fun _ => neverFails_update hr e)
  · exact (neverFails_update hr e).bind fun _ => NeverFails.modify

theorem keeps_truncDirect (e : Idx) (fuel k : Nat) : Keeps (truncDirect e fuel k) := by
  induction fuel generalizing k with
  | zero => exact Keeps.pure
  | succ fuel ih =>
      unfold truncDirect
      split
      · refine keeps_inode fun _ => Keeps.ite (ih _) ?_
        exact (keeps_bfree _).bind fun _ => (keeps_modifyDinode e _).bind fun _ => ih _
      · exact Keeps.pure

theorem keeps_truncIndirect (a : UInt64) (fuel k : Nat) : Keeps (truncIndirect a fuel k) := by
  induction fuel generalizing k with
  | zero => exact Keeps.pure
  | succ fuel ih =>
      unfold truncIndirect
      refine Keeps.gets fun blk => ?_
      split
      · exact ih _
      · refine (keeps_bfree _).bind fun _ => Keeps.gets fun _ => ?_
        exact (keeps_poke _ _).bind fun _ => ih _

theorem keeps_trunc1 (e : Idx) : Keeps (trunc1 e) := by
  refine (keeps_truncDirect e _ _).bind fun _ => keeps_inode fun _ => ?_
  dsimp only
  refine Keeps.ite (keeps_modifyDinode e _) ((keeps_bread _).bind fun _ => ?_)
  refine (keeps_truncIndirect _ _ _).bind fun _ => (keeps_bfree _).bind fun _ => ?_
  exact keeps_modifyDinode e _

theorem keeps_putFree (e : Idx) : Keeps (putFree e) := by
  refine Keeps.bind ?_ fun _ => (keeps_modifyDinode e _).bind fun _ => ?_
  · exact (keeps_holding e).bind fun _ => Keeps.assert ((keeps_trunc1 e).bind fun _ => keeps_update e)
  · exact (keeps_update e).bind fun _ => keeps_modifyInode e (fun _ => rfl) (fun _ => rfl)

/-! ## Locks -/

section Locks

variable {env : Env} {m : Marks} {E : Marks → Prop}

theorem holding_apply (e : Idx) (env : Env) (s : State) :
    holding e env s = .ok (decide ((s.icache e).lock = some env.pid)) s := rfl

theorem tri_acquire (e : Idx) : Tri env m (acquire e)
    (fun _ m' => m.locks e = none ∧ m' = m.setLock e (some env.pid)) E := by
  rintro s rfl
  refine Sat.env (Sat.gets ?_)
  cases h : (s.icache e).lock with
  | none =>
      refine ⟨⟨h, ?_⟩⟩
      rw [marks_setInode]
      exact Marks.ext (Function.update_eq_self _ _) rfl
  | some holder => exact Sat.ite (fun _ => Sat.abort trivial) (fun _ => Sat.block)

theorem tri_release (e : Idx) : Tri env m (release e)
    (fun _ m' => m.locks e = some env.pid ∧ m' = m.setLock e none) E := by
  rintro s rfl
  refine Sat.bind_ok (holding_apply e env s) (Sat.assert (fun _ => trivial) fun h => ⟨⟨?_, ?_⟩⟩)
  · exact of_decide_eq_true h
  · rw [marks_setInode]
    exact Marks.ext (Function.update_eq_self _ _) rfl

theorem tri_lock (e : Idx) : Tri env m (lock e)
    (fun _ m' => m.locks e = none ∧ m' = m.setLock e (some env.pid)) E := by
  refine Tri.gets fun _ => Tri.assert fun _ => (tri_acquire e).bind ?_
  rintro _ _ ⟨h, rfl⟩
  exact ((keeps_lockRead e).tri (neverFails_lockRead e) _).imp (fun _ _ hm => ⟨h, hm⟩)
    (fun _ h => h)

theorem tri_unlock (e : Idx) : Tri env m (unlock e)
    (fun _ m' => m.locks e = some env.pid ∧ m' = m.setLock e none) E := by
  refine Tri.bind ((keeps_holding e).tri (neverFails_holding e) m) ?_
  rintro _ _ rfl
  exact Tri.gets fun _ => Tri.assert fun _ => tri_release e

end Locks

/-! ## References taken and given back -/

theorem tri_dup (e : Idx) {env : Env} {m : Marks} {E : Marks → Prop} :
    Tri env m (dup e) (fun _ m' => m' = m.take e) E := by
  rintro s rfl
  refine ⟨?_⟩
  show marks (s.setInode e _) = _
  rw [marks_setInode]
  refine Marks.ext (funext fun e' => ?_) (Function.update_eq_self _ _)
  by_cases he : e' = e
  · subst he
    simp [marks, Marks.take]
  · simp [Marks.take, he]

theorem tri_get (inum : UInt64) {env : Env} {m : Marks} :
    Tri env m (get inum) (fun e m' => m' = m.take e) (fun m' => m' = m) := by
  have htake (s : State) (e : Idx) (ip : Inode) (hr : ip.refCnt = (s.icache e).refCnt + 1)
      (hl : ip.lock = (s.icache e).lock) : marks (s.setInode e ip) = (marks s).take e := by
    rw [marks_setInode, hr, hl]
    refine Marks.ext (funext fun e' => ?_) (Function.update_eq_self _ _)
    by_cases he : e' = e
    · subst he
      simp [marks, Marks.take]
    · simp [Marks.take, he]
  refine Tri.gets fun icache => ?_
  split
  · next e _ =>
      rintro s rfl
      exact Sat.modify ⟨htake s e _ rfl rfl⟩
  · exact Tri.throw rfl
  · next e _ =>
      rintro s rfl
      exact Sat.modify ⟨htake s e _ rfl rfl⟩

theorem tri_iallocLoop (sb : Superblock) (t : FileType) (fuel inum : Nat) {env : Env}
    {m : Marks} :
    Tri env m (iallocLoop sb t fuel inum) (fun e m' => m' = m.take e) (fun m' => m' = m) := by
  induction fuel generalizing inum with
  | zero => exact Tri.throw rfl
  | succ fuel ih =>
      unfold iallocLoop
      split
      · exact Tri.throw rfl
      · refine (keeps_bread _ env m).bind ?_
        rintro blk _ rfl
        split
        · refine (keeps_store _ _ env _).bind ?_
          rintro _ _ rfl
          exact tri_get _
        · exact ih _

theorem tri_ialloc (t : FileType) {env : Env} {m : Marks} :
    Tri env m (ialloc t) (fun e m' => m' = m.take e) (fun m' => m' = m) :=
  Tri.env' (tri_iallocLoop _ t _ _)

section Put

variable {env : Env} (hfree : ∀ n, env.freeReadOk n = true) {m : Marks} {E : Marks → Prop}

include hfree

theorem tri_putLast (e : Idx) : Tri env m (putLast e) (fun _ m' => m' = m) E := by
  refine Tri.gets fun ip => ?_
  split
  · exact Tri.within ((keeps_putFree e).tri (neverFails_putFree hfree e) m)
  · exact Tri.pure rfl

/-- `put` gives one reference back and does not fail. -/
theorem tri_put (e : Idx) :
    Tri env (m.take e) (put e) (fun _ m' => m.locks e = none ∧ m' = m) E := by
  refine (tri_acquire e).bind ?_
  rintro _ _ ⟨hl, rfl⟩
  refine (tri_putLast hfree e).bind ?_
  rintro _ _ rfl
  refine (tri_release e).bind ?_
  rintro _ _ ⟨_, rfl⟩
  rw [Marks.setLock_none _ _ hl]
  refine Tri.gets fun ip => Tri.assert fun _ s hs => ?_
  refine Sat.last_modify ⟨hl, ?_⟩
  rw [marks_setInode, hs]
  refine Marks.ext (funext fun e' => ?_) ?_
  · have h := congrFun (congrArg Marks.refs hs) e'
    by_cases he : e' = e
    · subst he
      simp [marks, Marks.take] at h ⊢
      omega
    · simp [Marks.take, he]
  · have h := congrFun (congrArg Marks.locks hs) e
    exact (congrArg _ h).trans (Function.update_eq_self e m.locks)

theorem tri_unlockPut {e : Idx} (hm : m.locks e = none) :
    Tri env ((m.take e).setLock e (some env.pid)) (unlockPut e) (fun _ m' => m' = m) E := by
  refine (tri_unlock e).bind ?_
  rintro _ _ ⟨_, rfl⟩
  rw [Marks.setLock_none (m.take e) _ hm]
  exact (tri_put hfree e).imp (fun _ _ h => h.2) (fun _ h => h)

theorem tri_dropGuard {e : Idx} (hm : m.locks e = none) :
    Tri env ((m.take e).setLock e (some env.pid)) (dropGuard e) (fun _ m' => m' = m) E :=
  Tri.ignore (tri_unlockPut hfree hm)

/-- Under a guard an error costs the lock and the reference of the guard. -/
theorem tri_guarded {α : Type} {p : FsM α} {Q : α → Marks → Prop} {u : Marks} {e : Idx}
    (hm : m.locks e = none)
    (hp : Tri env u p Q (fun m' => m' = (m.take e).setLock e (some env.pid))) :
    Tri env u (guarded e p) Q (fun m' => m' = m) := by
  refine Tri.onErr hp ?_
  rintro _ rfl
  exact tri_dropGuard hfree hm

/-- `with_putlock` gives one reference back, whatever its closure returns. -/
theorem tri_withPutlock {α : Type} {p : FsM α} {Q : α → Marks → Prop} (e : Idx)
    (hp : m.locks e = none → Tri env ((m.take e).setLock e (some env.pid)) p
      (fun a m' => ∃ u, Q a u ∧ u.locks e = none ∧ m' = (u.take e).setLock e (some env.pid))
      (fun m' => m' = (m.take e).setLock e (some env.pid))) :
    Tri env (m.take e) (withPutlock e p) Q (fun m' => m' = m) := by
  refine (tri_lock e).bind ?_
  rintro _ _ ⟨hl, rfl⟩
  have hl : m.locks e = none := hl
  refine (tri_guarded hfree hl (hp hl)).bind ?_
  rintro a _ ⟨u, hq, hu, rfl⟩
  refine (tri_unlockPut hfree hu).bind ?_
  rintro _ _ rfl
  exact Tri.pure hq

end Put

/-! ## Directories and paths -/

theorem tri_dirLookupLoop (e : Idx) (name : Name) (size fuel k : Nat) {env : Env}
    {m : Marks} :
    Tri env m (dirLookupLoop e name size fuel k) (fun p m' => m' = m.take p.1)
      (fun m' => m' = m) := by
  induction fuel generalizing k with
  | zero => exact Tri.throw rfl
  | succ fuel ih =>
      unfold dirLookupLoop
      split
      · refine (keeps_readDirent e _ env m).bind ?_
        rintro entry _ rfl
        split
        · exact (tri_get _).bind fun _ _ h => Tri.pure h
        · exact ih _
      · exact Tri.throw rfl

theorem tri_dirLookupOffset (e : Idx) (name : Name) {env : Env} {m : Marks} :
    Tri env m (dirLookupOffset e name) (fun p m' => m' = m.take p.1) (fun m' => m' = m) := by
  refine (keeps_typ e env m).bind ?_
  rintro _ _ rfl
  exact Tri.assert fun _ => Tri.gets fun _ => tri_dirLookupLoop e name _ _ _

/-- A lookup takes one reference, to what it found. -/
theorem tri_dirLookup (e : Idx) (name : Name) {env : Env} {m : Marks} :
    Tri env m (dirLookup e name) (fun ip m' => m' = m.take ip) (fun m' => m' = m) :=
  (tri_dirLookupOffset e name).bind fun _ _ h => Tri.pure h

section Dir

variable {env : Env} (hfree : ∀ n, env.freeReadOk n = true) {m : Marks}

include hfree

theorem tri_dirLink (e : Idx) (name : Name) (inum : UInt64) :
    Tri env m (dirLink e name inum) (fun _ m' => m' = m) (fun m' => m' = m) := by
  refine (Tri.attempt (tri_dirLookup e name)).bind ?_
  rintro (_ | ip) _ h
  · obtain rfl := h
    refine Tri.gets fun _ => (keeps_freeSlotLoop e _ _ env _).bind ?_
    rintro _ _ rfl
    refine (keeps_writei e _ _ env _).bind ?_
    rintro _ _ rfl
    exact Keeps.last_assert env _
  · obtain rfl := h
    refine (tri_put hfree ip).bind ?_
    rintro _ _ ⟨_, rfl⟩
    exact Tri.throw rfl

/-- `dir_unlink` uses up the reference to the directory. -/
theorem tri_dirUnlink (e : Idx) (name : Name) :
    Tri env (m.take e) (dirUnlink e name) (fun _ m' => m' = m) (fun m' => m' = m) := by
  refine (tri_lock e).bind ?_
  rintro _ _ ⟨he, rfl⟩
  have he : m.locks e = none := he
  refine (tri_guarded hfree he (tri_dirLookupOffset e name)).bind ?_
  rintro ⟨ip, off⟩ _ rfl
  -- an error before the release of the directory's guard drops both guards
  refine Tri.bind (Q := fun _ m' => ip ≠ e ∧ m.locks ip = none ∧
    m' = ((((m.take ip).setLock ip (some env.pid)).take e).setLock e (some env.pid)))
    (tri_guarded hfree he ((tri_lock ip).bind ?_)) ?_
  · rintro _ _ ⟨hl, rfl⟩
    have hne : ip ≠ e := by
      rintro rfl
      simp [Marks.setLock_take] at hl
    have hip : m.locks ip = none := by
      simpa [Marks.setLock_take, Marks.setLock_locks_ne _ _ hne] using hl
    refine (tri_guarded hfree (m := (m.take e).setLock e (some env.pid)) ?_
      (keeps_unlinkEntry e ip off env _)).imp ?_ fun _ h => h
    · simpa [Marks.setLock_locks_ne _ _ hne] using hip
    · rintro _ _ rfl
      refine ⟨hne, hip, ?_⟩
      rw [Marks.setLock_take, Marks.setLock_take, Marks.setLock_comm _ _ _ hne.symm,
        Marks.take_comm]
  -- one after it only the guard of the inode unlinked
  · rintro _ _ ⟨hne, hip, rfl⟩
    have he' : ((m.take ip).setLock ip (some env.pid)).locks e = none := by
      simpa [Marks.setLock_locks_ne _ _ hne.symm] using he
    refine Tri.bind (Q := fun _ m' => m' = (m.take ip).setLock ip (some env.pid))
      (tri_guarded hfree hip ((tri_unlockPut hfree he').bind ?_)) ?_
    · rintro _ _ rfl
      refine (keeps_nlinkDec ip env _).bind ?_
      rintro _ _ rfl
      exact keeps_update ip env _
    · rintro _ _ rfl
      exact tri_unlockPut hfree hip

theorem tri_namexLoop (fuel : Nat) (path : Name) (ip : Idx) :
    Tri env (m.take ip) (namexLoop fuel path ip) (fun e m' => m' = m.take e)
      (fun m' => m' = m) := by
  induction fuel generalizing path ip with
  | zero => exact Tri.pure rfl
  | succ fuel ih =>
      unfold namexLoop
      split
      · exact Tri.pure rfl
      · split
        · exact Tri.pure rfl
        · next name rest _ _ =>
            refine (tri_withPutlock hfree ip (Q := fun e m' => m' = m.take e) fun hl => ?_).bind ?_
            · refine Tri.bind (Q := fun _ m' => m' = (m.take ip).setLock ip (some env.pid)) ?_ ?_
              · exact (keeps_typ ip).bind (fun _ => Keeps.ite Keeps.throw Keeps.pure) env _
              · rintro _ _ rfl
                refine (tri_dirLookup ip name).imp ?_ fun _ h => h
                rintro next _ rfl
                exact ⟨m.take next, rfl, hl, by rw [Marks.setLock_take, Marks.take_comm]⟩
            · rintro next _ rfl
              exact ih rest next

/-- `namex` takes one reference, to the inode the path leads to. -/
theorem tri_namex (path : Name) :
    Tri env m (namex path) (fun e m' => m' = m.take e) (fun m' => m' = m) := by
  unfold namex
  dsimp only
  split
  · refine (tri_get _).bind ?_
    rintro ip _ rfl
    exact tri_namexLoop hfree _ _ ip
  · refine Tri.bind (Q := fun _ m' => m' = m) ?_ ?_
    · refine Tri.env' ?_
      split
      · exact Tri.pure rfl
      · exact Tri.abort
    · rintro e _ rfl
      refine (tri_dup e).bind ?_
      rintro _ _ rfl
      exact tri_namexLoop hfree _ _ e

theorem tri_namei (path : Name) :
    Tri env m (namei path) (fun e m' => m' = m.take e) (fun m' => m' = m) := by
  unfold namei
  split
  · exact Tri.throw rfl
  · exact tri_namex hfree path

theorem tri_nameiParent (path : Name) :
    Tri env m (nameiParent path) (fun p m' => m' = m.take p.1) (fun m' => m' = m) := by
  unfold nameiParent
  split
  · exact Tri.throw rfl
  · refine (tri_namex hfree _).bind ?_
    rintro ip _ rfl
    refine (tri_lock ip).bind ?_
    rintro _ _ ⟨hl, rfl⟩
    have hl : m.locks ip = none := hl
    refine ((keeps_typ ip).tri (neverFails_typ ip) _).bind ?_
    rintro _ _ rfl
    split
    · refine (tri_dropGuard hfree hl).bind ?_
      rintro _ _ rfl
      exact Tri.throw rfl
    · refine (tri_unlock ip).bind ?_
      rintro _ _ ⟨_, rfl⟩
      exact Tri.pure (Marks.setLock_none _ _ hl)

theorem tri_linkDots (dp ip : Idx) (t : CreateType) {E : Marks → Prop} :
    Tri env m (linkDots dp ip t) (fun _ m' => m' = m) E := by
  unfold linkDots
  split
  · refine ((keeps_nlinkInc dp).tri (neverFails_nlinkInc dp) _).bind ?_
    rintro _ _ rfl
    refine (Tri.expect (keeps_update dp env _)).bind ?_
    rintro _ _ rfl
    refine Tri.gets fun _ => (Tri.expect (tri_dirLink hfree ip _ _)).bind ?_
    rintro _ _ rfl
    exact Tri.gets fun _ => Tri.expect (tri_dirLink hfree ip _ _)
  · exact Tri.pure rfl

/-- A new inode is locked, and nothing else changes. -/
theorem tri_initInode (dp ip : Idx) (name : Name) (t : CreateType) {E : Marks → Prop} :
    Tri env m (initInode dp ip name t)
      (fun _ m' => m.locks ip = none ∧ m' = m.setLock ip (some env.pid)) E := by
  refine (tri_lock ip).bind ?_
  rintro _ _ ⟨hl, rfl⟩
  refine Tri.imp (Q := fun _ m' => m' = m.setLock ip (some env.pid)) ?_
    (fun _ _ h => ⟨hl, h⟩) (fun _ h => h)
  refine ((keeps_nlinkInc ip).tri (neverFails_nlinkInc ip) _).bind ?_
  rintro _ _ rfl
  refine Tri.bind (Q := fun _ m' => m' = m.setLock ip (some env.pid)) ?_ ?_
  · unfold setDevice
    split
    · exact (keeps_modifyDinode ip _).tri NeverFails.modify _
    · exact Tri.pure rfl
  · rintro _ _ rfl
    refine (Tri.expect (keeps_update ip env _)).bind ?_
    rintro _ _ rfl
    refine (tri_linkDots hfree dp ip t).bind ?_
    rintro _ _ rfl
    exact Tri.gets fun _ => Tri.expect (tri_dirLink hfree dp _ _)

theorem tri_reuseInode (ip : Idx) (t : CreateType) :
    Tri env (m.take ip) (reuseInode ip t)
      (fun _ m' => m.locks ip = none ∧ m' = (m.take ip).setLock ip (some env.pid))
      (fun m' => m' = m) := by
  refine (tri_lock ip).bind ?_
  rintro _ _ ⟨hl, rfl⟩
  have hl : m.locks ip = none := hl
  refine tri_guarded hfree hl (Tri.imp ?_ (fun _ _ h => ⟨hl, h⟩) (fun _ h => h))
  exact Keeps.ite Keeps.throw ((keeps_typ ip).bind fun _ => Keeps.ite Keeps.throw Keeps.pure) env _

/-- `create` takes one reference, to the inode it returns, and locks it. -/
theorem tri_create (path : Name) (t : CreateType) :
    Tri env m (create path t)
      (fun e m' => m.locks e = none ∧ m' = (m.take e).setLock e (some env.pid))
      (fun m' => m' = m) := by
  refine (tri_nameiParent hfree path).bind ?_
  rintro ⟨dp, name⟩ _ rfl
  refine (tri_lock dp).bind ?_
  rintro _ _ ⟨hd, rfl⟩
  have hd : m.locks dp = none := hd
  refine (Tri.attempt (tri_dirLookup dp name)).bind ?_
  rintro (_ | ip) _ h
  · obtain rfl := h
    refine (tri_guarded hfree hd (tri_ialloc _)).bind ?_
    rintro ip _ rfl
    refine (tri_initInode hfree dp ip name t).bind ?_
    rintro _ _ ⟨hl, rfl⟩
    -- the new inode is not the directory: that one was locked already
    have hne : ip ≠ dp := by
      rintro rfl
      simp [Marks.setLock_take] at hl
    have hip : m.locks ip = none := by
      simpa [Marks.setLock_take, Marks.setLock_locks_ne _ _ hne] using hl
    have hd' : ((m.take ip).setLock ip (some env.pid)).locks dp = none := by
      simpa [Marks.setLock_locks_ne _ _ hne.symm] using hd
    rw [Marks.setLock_take, Marks.setLock_comm _ _ _ hne.symm, Marks.take_comm,
      ← Marks.setLock_take]
    refine (tri_dropGuard hfree hd').bind ?_
    rintro _ _ rfl
    exact Tri.pure ⟨hip, rfl⟩
  · obtain rfl := h
    rw [Marks.setLock_take, Marks.take_comm]
    refine (tri_dropGuard hfree (m := m.take ip) hd).bind ?_
    rintro _ _ rfl
    refine (tri_reuseInode hfree ip t).bind ?_
    rintro _ _ h
    exact Tri.pure h

end Dir

end Rxv64.Fs
