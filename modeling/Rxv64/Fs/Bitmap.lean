import Rxv64.Fs.Put

/-!
# Fs.Bitmap — the bits that `balloc` and `bfree` change

For any super block and any contents of the free map. Nothing is asked of the
format: a block whose own number is clear in the map is handed out and zeroed,
even if the map itself is stored there.
-/

namespace Rxv64.Fs

open Layout Prog

variable {env : Env} {sb : Superblock} {s s' : State} {b : UInt64}

/-- Reads find buffers, an operation is open and the log has room for `n` blocks. -/
structure Calm (env : Env) (s : State) (n : Nat) : Prop where
  reads : ∀ k, env.readOk k = true
  inOp : 0 < s.outstanding
  room : s.log.len + n ≤ s.log.cap

theorem Calm.not_denied {n k : Nat} {W : Finset UInt64} (h : Calm env s n) (hW : W.card < n) :
    ¬Denied env s k W := by
  intro hd
  obtain ⟨i, -, -, hi⟩ | h0 | hfull := hd
  · rw [h.reads i] at hi
    cases hi
  · have := h.inOp
    omega
  · have hcard : (newIn s W).card ≤ W.card := Finset.card_filter_le _ _
    have := h.room
    omega

/-- What was logged takes its room. -/
theorem Calm.logged {n k : Nat} {W : Finset UInt64} (h : Calm env s (n + k))
    (hl : Logged s W s') (hW : W.card ≤ k) : Calm env s' n where
  reads := h.reads
  inOp := by
    rw [hl.outstanding]
    exact h.inOp
  room := by
    have hcard : (newIn s W).card ≤ W.card := Finset.card_filter_le _ _
    have hroom := h.room
    rw [hl.len, hl.cap]
    omega

/-! ## Taking a block -/

/-- The first free block was taken: its bit is set, its bytes are zero and
nothing else has changed. -/
structure Allocates (sb : Superblock) (s : State) (b : UInt64) (s' : State) : Prop where
  lt : b.toNat < sb.size.toNat
  unused : used sb s.blocks b = false
  least : ∀ c : UInt64, c.toNat < b.toNat → used sb s.blocks c = true
  bits : ∀ c, sb.bblock c ≠ b →
    used sb s'.blocks c = (decide (c = b) || used sb s.blocks c)
  zero : s'.blocks b = Block.zero
  other : ∀ c, c ≠ b → c ≠ sb.bblock b → s'.blocks c = s.blocks c
  icache : s'.icache = s.icache

theorem Took.allocates (h : Took sb s b s') : Allocates sb s b s' where
  lt := h.lt
  unused := h.unused
  least := h.least
  bits := by
    intro c hc
    rw [← used_setUsed sb s.blocks b c, h.blocks, used, used, Function.update_of_ne hc]
  zero := by rw [h.blocks, Function.update_self]
  other := by
    intro c hb hmap
    rw [h.blocks, Function.update_of_ne hb, setUsed, Function.update_of_ne hmap]
  icache := h.icache

/-- The scan meets a clear bit or has seen that there is none. -/
theorem Calm.balloc {n : Nat} (h : Calm env s (n + 2)) :
    (∃ b s', balloc env s = .ok b s' ∧ Allocates env.sb s b s' ∧ Calm env s' n) ∨
      ∃ m s', balloc env s = .err m s' ∧ AllUsed env.sb s := by
  have hsat : Sat (Fs.balloc env s) _ _ (fun _ => False) :=
    (balloc_took env s).imp (fun _ _ hok => hok) (fun _ _ he => he) fun _ hx => by
      obtain ⟨k, W, hW, hd⟩ := hx
      exact h.not_denied (by omega) hd
  rcases hsat.ends (awake_balloc env s) with
    ⟨b, s', heq, -, hl, ht⟩ | ⟨m, s', heq, -, -, -, hno | hfull⟩
  · exact .inl ⟨b, s', heq, ht.allocates, h.logged hl (Finset.card_le_two)⟩
  · obtain ⟨k, hk⟩ := hno.2
    rw [h.reads k] at hk
    cases hk
  · exact .inr ⟨m, s', heq, hfull.2⟩

theorem Allocates.not_allUsed (h : Allocates sb s b s') : ¬AllUsed sb s := by
  intro hall
  have hused := hall b h.lt
  rw [h.unused] at hused
  cases hused

/-! ## Giving it back -/

/-- The bit of a block was cleared and nothing else. -/
structure Frees (sb : Superblock) (s : State) (b : UInt64) (s' : State) : Prop where
  bits : ∀ c, used sb s'.blocks c = (decide (c ≠ b) && used sb s.blocks c)
  other : ∀ c, c ≠ sb.bblock b → s'.blocks c = s.blocks c
  icache : s'.icache = s.icache

theorem Calm.bfree (h : Calm env s 1) (hused : used env.sb s.blocks b = true) :
    ∃ s', bfree b env s = .ok () s' ∧ Frees env.sb s b s' := by
  have hsat : Sat (Fs.bfree b env s) _ _ (fun _ => False) :=
    (bfree_sat hused).imp (fun _ _ hok => hok) (fun _ _ he => he) fun _ hd =>
      h.not_denied (by simp) hd
  obtain ⟨⟨⟩, s', heq, -, -, hb, hi⟩ := hsat.returns (awake_bfree b env s)
  refine ⟨s', heq, fun c => by rw [hb, used_clearUsed], fun c hc => ?_, hi⟩
  rw [hb, clearUsed, Function.update_of_ne hc]

/-- **`balloc` takes the least clear bit and `bfree` gives it back.** -/
theorem balloc_bfree_exact (h : Calm env s 3) :
    ((∃ m s', balloc env s = .err m s') ↔ AllUsed env.sb s) ∧
    (¬AllUsed env.sb s → ∃ b s', balloc env s = .ok b s' ∧ Allocates env.sb s b s') ∧
    (∀ b, b.toNat < env.sb.size.toNat → used env.sb s.blocks b = true →
      ∃ s', bfree b env s = .ok () s' ∧ Frees env.sb s b s') ∧
    ∀ b s', balloc env s = .ok b s' → env.sb.bblock b ≠ b →
      ∃ s'', bfree b env s' = .ok () s'' ∧
        ∀ c, env.sb.bblock c ≠ b → used env.sb s''.blocks c = used env.sb s.blocks c := by
  have h1 : Calm env s 1 := ⟨h.reads, h.inOp, by have := h.room; omega⟩
  have hfree : ∀ b, b.toNat < env.sb.size.toNat → used env.sb s.blocks b = true →
      ∃ s', bfree b env s = .ok () s' ∧ Frees env.sb s b s' := fun b _ hused => h1.bfree hused
  rcases Calm.balloc (n := 1) h with ⟨b, s', heq, ha, h'⟩ | ⟨m, s', heq, hall⟩
  · refine ⟨iff_of_false ?_ ha.not_allUsed, fun _ => ⟨b, s', heq, ha⟩, hfree, ?_⟩
    · intro he
      obtain ⟨m, s'', herr⟩ := he
      rw [heq] at herr
      cases herr
    · intro b' s'' hok hown
      rw [heq] at hok
      cases hok
      have hused : used env.sb s'.blocks b = true := by
        rw [ha.bits b hown]
        simp
      obtain ⟨s'', hrun, hf⟩ := h'.bfree hused
      refine ⟨s'', hrun, fun c hc => ?_⟩
      rw [hf.bits, ha.bits c hc]
      by_cases hcb : c = b
      · rw [hcb, ha.unused]
        simp
      · simp [hcb]
  · refine ⟨iff_of_true ⟨m, s', heq⟩ hall, fun hn => absurd hall hn, hfree, fun b s'' hok => ?_⟩
    rw [heq] at hok
    cases hok

/-- Four blocks, of which the last holds the free map. -/
def fourBlocks (buffers : Bool) : Env :=
  ⟨⟨4, 0, 0, 0, 0, 0, 3⟩, 0, none, fun _ => buffers, fun _ => true⟩

/-- The first byte of the map is `bits`. -/
def withBits (bits : UInt8) : State where
  blocks c := if c = 3 then Block.zero.splice 0 [bits] else Block.zero
  icache _ := Inode.new
  log := Fslog.Log.new.setMetadata 1 0 64
  outstanding := 1
  reads := 0

theorem calm_withBits (bits : UInt8) : Calm (fourBlocks true) (withBits bits) 3 := by
  have hcap : (Fslog.Log.new.setMetadata 1 0 64).cap = 63 := by decide
  have hlog : (withBits bits).log.cap = (Fslog.Log.new.setMetadata 1 0 64).cap := rfl
  have hlen : (withBits bits).log.len = 0 := rfl
  exact ⟨fun _ => rfl, Nat.one_pos, by omega⟩

/-- The map does not mark its own block: it is zeroed with the bit that was just
set. And without a buffer there is an error although that bit is clear. -/
theorem balloc_takes_map : (∃ s', balloc (fourBlocks true) (withBits 7) = .ok 3 s' ∧
      used (fourBlocks true).sb (withBits 7).blocks 0 = true ∧
      used (fourBlocks true).sb s'.blocks 0 = false ∧
      used (fourBlocks true).sb s'.blocks 3 = false) ∧
    ∃ s', balloc (fourBlocks false) (withBits 7) = .err "bget: no buffers" s' ∧
      used (fourBlocks false).sb (withBits 7).blocks 3 = false := by
  have hrun : ((balloc (fourBlocks true) (withBits 7)).result?.map fun r =>
      (r.1, used (fourBlocks true).sb r.2.blocks 0, used (fourBlocks true).sb r.2.blocks 3)) =
        some (3, false, false) := by decide +kernel
  obtain ⟨b, s', hok, hbits⟩ := Outcome.ok_of_map hrun
  simp only [Prod.mk.injEq] at hbits
  obtain ⟨hb, h0, h3⟩ := hbits
  rw [hb] at hok
  exact ⟨⟨s', hok, by decide +kernel, h0, h3⟩, _, rfl, by decide +kernel⟩

theorem balloc_bfree_four : ∃ b s', balloc (fourBlocks true) (withBits 8) = .ok b s' ∧
    Allocates (fourBlocks true).sb (withBits 8) b s' := by
  refine (balloc_bfree_exact (calm_withBits 8)).2.1 fun hall => ?_
  have hclear : used (fourBlocks true).sb (withBits 8).blocks 0 = false := by decide +kernel
  rw [hall 0 (by decide)] at hclear
  cases hclear

end Rxv64.Fs
