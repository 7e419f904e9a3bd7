import Mathlib.Logic.Function.Basic
import Mathlib.Data.List.Nodup

/-!
# Blocks — memory blocks linked in the order of their addresses

A block starts with a header that has its size, in units of `w` bytes, and the
address of another block. `Chain` is the list segment predicate, `Sorted` says
that blocks follow each other with a gap, and `join` puts a block in front of
such a list, together with its neighbour when they touch.
-/

namespace Blocks

structure Header where
  next : Nat
  nunits : Nat

@[ext] structure Block where
  addr : Nat
  units : Nat
  deriving DecidableEq

variable {w : Nat} {mem mem' : Nat → Header} {s e a n : Nat} {x y b : Block} {l m : List Block}

/-- The first address behind the block. -/
def Block.stop (w : Nat) (b : Block) : Nat := b.addr + w * b.units

/-- The addresses of the block. -/
def Block.Has (w : Nat) (b : Block) (i : Nat) : Prop := b.addr ≤ i ∧ i < b.stop w

def Apart (w : Nat) (x y : Block) : Prop := x.stop w ≤ y.addr ∨ y.stop w ≤ x.addr

/-- By address, and no two blocks touch. -/
def Sorted (w : Nat) (l : List Block) : Prop := l.Pairwise fun x y => x.stop w < y.addr

def Covers (w : Nat) (l : List Block) (i : Nat) : Prop := ∃ b ∈ l, b.Has w i

theorem Apart.symm (h : Apart w x y) : Apart w y x := Or.symm h

instance : Std.Symm (Apart w) := ⟨fun _ _ => Apart.symm⟩

theorem Apart.addr_ne (h : Apart w x y) (hx : 0 < w * x.units) (hy : 0 < w * y.units) :
    x.addr ≠ y.addr := by
  intro e
  unfold Apart Block.stop at h
  omega

/-- Apart from a block is apart from its parts. -/
theorem Apart.sub (h : Apart w x b) (haddr : b.addr ≤ y.addr) (hstop : y.stop w ≤ b.stop w) :
    Apart w x y := by
  rcases h with h | h
  · exact .inl (Nat.le_trans h haddr)
  · exact .inr (Nat.le_trans hstop h)

/-- A block of a sorted list is apart from the others. -/
theorem Sorted.apart (h : Sorted w (l ++ b :: m)) (hx : x ∈ l ++ m) : Apart w b x := by
  obtain ⟨-, hm, hl⟩ := List.pairwise_append.mp h
  rcases List.mem_append.mp hx with hx | hx
  · exact .inr (Nat.le_of_lt (hl x hx b List.mem_cons_self))
  · exact .inl (Nat.le_of_lt ((List.pairwise_cons.mp hm).1 x hx))

/-- A block of a sorted list may get smaller. -/
theorem Sorted.shrink (h : Sorted w (l ++ b :: m)) (hy : y.addr = b.addr)
    (hstop : y.stop w ≤ b.stop w) : Sorted w (l ++ y :: m) := by
  obtain ⟨hl, hm, hlm⟩ := List.pairwise_append.mp h
  obtain ⟨hbm, hm⟩ := List.pairwise_cons.mp hm
  refine List.pairwise_append.mpr ⟨hl, List.pairwise_cons.mpr ⟨fun c hc => ?_, hm⟩, ?_⟩
  · exact Nat.lt_of_le_of_lt hstop (hbm c hc)
  · intro c hc d hd
    rcases List.mem_cons.mp hd with rfl | hd
    · rw [hy]
      exact hlm c hc b List.mem_cons_self
    · exact hlm c hc d (List.mem_cons_of_mem _ hd)

/-! ## Segments -/

/-- Following `next` from `s` visits the blocks of the list and arrives at `e`. -/
def Chain (mem : Nat → Header) : Nat → List Block → Nat → Prop
  | s, [], e => s = e
  | s, b :: l, e => s = b.addr ∧ (mem s).nunits = b.units ∧ Chain mem (mem s).next l e

theorem chain_append :
    Chain mem s (l ++ m) e ↔ ∃ i, Chain mem s l i ∧ Chain mem i m e := by
  induction l generalizing s with
  | nil => simp [Chain]
  | cons b l ih => simp [Chain, ih, and_assoc]

/-- A segment does not see a change outside of its headers. -/
theorem Chain.congr (h : Chain mem s l e) (heq : ∀ b ∈ l, mem' b.addr = mem b.addr) :
    Chain mem' s l e := by
  induction l generalizing s with
  | nil => exact h
  | cons b l ih =>
      obtain ⟨rfl, hn, hl⟩ := h
      have hb : mem' b.addr = mem b.addr := heq b List.mem_cons_self
      refine ⟨rfl, ?_, ?_⟩
      · rw [hb]
        exact hn
      · rw [hb]
        exact ih hl fun c hc => heq c (List.mem_cons_of_mem _ hc)

theorem Chain.update (h : Chain mem s l e) (ha : ∀ b ∈ l, b.addr ≠ a) (v : Header) :
    Chain (Function.update mem a v) s l e :=
  h.congr fun b hb => Function.update_of_ne (ha b hb) _ _

/-- The header of a block in the middle. -/
theorem Chain.mid (h : Chain mem s (l ++ b :: m) e) :
    Chain mem s l b.addr ∧ (mem b.addr).nunits = b.units ∧ Chain mem (mem b.addr).next m e := by
  obtain ⟨i, hl, rfl, hn, hm⟩ := chain_append.mp h
  exact ⟨hl, hn, hm⟩

theorem Chain.of_mid (hl : Chain mem s l b.addr) (hn : (mem b.addr).nunits = b.units)
    (hm : Chain mem (mem b.addr).next m e) : Chain mem s (l ++ b :: m) e :=
  chain_append.mpr ⟨b.addr, hl, rfl, hn, hm⟩

/-- Where a segment starts. -/
theorem Chain.start (h : Chain mem s (b :: l) e) : s = b.addr := h.1

/-- The blocks met in `k` steps, and where these lead. -/
def walk (mem : Nat → Header) : Nat → Nat → List Block × Nat
  | 0, s => ([], s)
  | k + 1, s => (⟨s, (mem s).nunits⟩ :: (walk mem k (mem s).next).1, (walk mem k (mem s).next).2)

theorem Chain.walk_eq (h : Chain mem s l e) : walk mem l.length s = (l, e) := by
  induction l generalizing s with
  | nil => exact Prod.ext rfl h
  | cons b l ih =>
      obtain ⟨rfl, hn, hl⟩ := h
      rw [List.length_cons, walk, ih hl, hn]

/-! ## Joining -/

/-- `x` in front of the list, as one block with the first when they touch. -/
def join (w : Nat) (x : Block) : List Block → List Block
  | [] => [x]
  | y :: l => if x.stop w = y.addr then ⟨x.addr, x.units + y.units⟩ :: l else x :: y :: l

theorem join_ne_nil : join w x l ≠ [] := by
  cases l with
  | nil => exact List.cons_ne_nil _ _
  | cons y l =>
      rw [join]
      split <;> exact List.cons_ne_nil _ _

theorem exists_mem_join : ∃ c ∈ join w x l, c.addr = x.addr := by
  cases l with
  | nil => exact ⟨x, List.mem_cons_self, rfl⟩
  | cons y l =>
      rw [join]
      split
      · exact ⟨_, List.mem_cons_self, rfl⟩
      · exact ⟨_, List.mem_cons_self, rfl⟩

theorem join_of_lt (h : ∀ b ∈ l, x.stop w < b.addr) : join w x l = x :: l := by
  cases l with
  | nil => rfl
  | cons y l => rw [join, if_neg (Nat.ne_of_lt (h y List.mem_cons_self))]

/-- What `join` does in memory: the header at `a` gets `next` as its neighbour. -/
def joinNext (w : Nat) (mem : Nat → Header) (a next : Nat) : Nat → Header :=
  Function.update mem a
    (if a + w * (mem a).nunits = next then ⟨(mem next).next, (mem a).nunits + (mem next).nunits⟩
     else ⟨next, (mem a).nunits⟩)

theorem joinNext_of_ne {i : Nat} (h : i ≠ a) : joinNext w mem a n i = mem i :=
  Function.update_of_ne h _ _

theorem Chain.join (h : Chain mem s l e) (hx : (mem x.addr).nunits = x.units)
    (hl : ∀ b ∈ l, b.addr ≠ x.addr) (he : l = [] → x.stop w ≠ e) :
    Chain (joinNext w mem x.addr s) x.addr (join w x l) e := by
  have hself : joinNext w mem x.addr s x.addr =
      if x.stop w = s then ⟨(mem s).next, x.units + (mem s).nunits⟩ else ⟨s, x.units⟩ := by
    rw [joinNext, Function.update_self, hx]
    rfl
  cases l with
  | nil =>
      have hne : x.stop w ≠ s := fun heq => he rfl (heq.trans h)
      refine ⟨rfl, ?_, ?_⟩
      · rw [hself, if_neg hne]
      · rw [hself, if_neg hne]
        exact h
  | cons y l =>
      have hother : ∀ b ∈ l, joinNext w mem x.addr s b.addr = mem b.addr :=
        fun b hb => joinNext_of_ne (hl b (List.mem_cons_of_mem _ hb))
      have hy : joinNext w mem x.addr s y.addr = mem y.addr :=
        joinNext_of_ne (hl y List.mem_cons_self)
      obtain ⟨rfl, hn, hrest⟩ := h
      by_cases htouch : x.stop w = y.addr
      · rw [Blocks.join, if_pos htouch]
        rw [if_pos htouch] at hself
        refine ⟨rfl, ?_, ?_⟩
        · rw [hself, hn]
        · rw [hself]
          exact hrest.congr hother
      · rw [Blocks.join, if_neg htouch]
        rw [if_neg htouch] at hself
        refine ⟨rfl, ?_, ?_⟩
        · rw [hself]
        · rw [hself]
          refine ⟨rfl, ?_, ?_⟩
          · rw [hy]
            exact hn
          · rw [hy]
            exact hrest.congr hother

theorem stop_join (u v : Nat) : Block.stop w ⟨a, u + v⟩ = Block.stop w ⟨a, u⟩ + w * v := by
  show a + w * (u + v) = a + w * u + w * v
  rw [Nat.mul_add, Nat.add_assoc]

theorem covers_cons {i : Nat} : Covers w (b :: l) i ↔ b.Has w i ∨ Covers w l i := by
  unfold Covers
  rw [List.exists_mem_cons_iff]

theorem covers_append {i : Nat} : Covers w (l ++ m) i ↔ Covers w l i ∨ Covers w m i := by
  unfold Covers
  simp only [List.mem_append, or_and_right, exists_or]

theorem covers_join {i : Nat} : Covers w (join w x l) i ↔ x.Has w i ∨ Covers w l i := by
  cases l with
  | nil => exact covers_cons
  | cons y l =>
      rw [Blocks.join]
      split
      · rename_i htouch
        rw [covers_cons, covers_cons, ← or_assoc]
        apply or_congr_left
        show x.addr ≤ i ∧ i < Block.stop w ⟨x.addr, x.units + y.units⟩ ↔
          (x.addr ≤ i ∧ i < x.stop w) ∨ (y.addr ≤ i ∧ i < y.stop w)
        rw [stop_join]
        have hx : x.stop w = x.addr + w * x.units := rfl
        have hx' : Block.stop w ⟨x.addr, x.units⟩ = x.stop w := rfl
        have hy : y.stop w = y.addr + w * y.units := rfl
        omega
      · exact covers_cons

/-- A block of `join` has the addresses of `x`, of its neighbour or of both. -/
theorem mem_join (hb : b ∈ join w x l) :
    b = x ∨ b ∈ l ∨ ∃ y ∈ l, x.stop w = y.addr ∧ b = ⟨x.addr, x.units + y.units⟩ := by
  cases l with
  | nil => exact .inl (List.mem_singleton.mp hb)
  | cons y l =>
      rw [Blocks.join] at hb
      split at hb
      · rename_i htouch
        rcases List.mem_cons.mp hb with rfl | hb
        · exact .inr (.inr ⟨y, List.mem_cons_self, htouch, rfl⟩)
        · exact .inr (.inl (List.mem_cons_of_mem _ hb))
      · rcases List.mem_cons.mp hb with rfl | hb
        · exact .inl rfl
        · exact .inr (.inl hb)

/-- A property that merging keeps holds of all blocks of `join`. -/
theorem forall_join {P : Block → Prop} (hx : P x) (hl : ∀ b ∈ l, P b)
    (hmerge : ∀ y ∈ l, x.stop w = y.addr → P ⟨x.addr, x.units + y.units⟩) :
    ∀ b ∈ join w x l, P b := by
  intro b hb
  rcases mem_join hb with rfl | hb | ⟨y, hy, htouch, rfl⟩
  · exact hx
  · exact hl b hb
  · exact hmerge y hy htouch

/-- What is apart from two blocks that touch is apart from both together. -/
theorem Apart.merge {z : Block} (hx : Apart w z x) (hy : Apart w z y) (hz : 0 < w * z.units)
    (htouch : x.stop w = y.addr) : Apart w z ⟨x.addr, x.units + y.units⟩ := by
  have hstop := stop_join (w := w) (a := x.addr) x.units y.units
  have hstop' : Block.stop w ⟨x.addr, x.units⟩ = x.stop w := rfl
  have hys : y.stop w = y.addr + w * y.units := rfl
  have hzs : z.stop w = z.addr + w * z.units := rfl
  rcases hx with hx | hx
  · exact .inl hx
  · rcases hy with hy | hy
    · omega
    · right
      omega

theorem Sorted.join (h : Sorted w l) (hx : ∀ b ∈ l, x.stop w ≤ b.addr) :
    Sorted w (join w x l) := by
  cases l with
  | nil => exact List.pairwise_singleton _ _
  | cons y l =>
      obtain ⟨hy, hl⟩ := List.pairwise_cons.mp h
      rw [Blocks.join]
      split
      · rename_i htouch
        refine List.pairwise_cons.mpr ⟨fun b hb => ?_, hl⟩
        have hb := hy b hb
        rw [stop_join]
        have hstop : y.stop w = y.addr + w * y.units := rfl
        have hstop' : Block.stop w ⟨x.addr, x.units⟩ = x.stop w := rfl
        omega
      · rename_i htouch
        refine List.pairwise_cons.mpr ⟨fun b hb => ?_, h⟩
        have hle := hx y List.mem_cons_self
        rcases List.mem_cons.mp hb with rfl | hb
        · omega
        · have hb := hy b hb
          have hstop : y.stop w = y.addr + w * y.units := rfl
          omega

end Blocks
