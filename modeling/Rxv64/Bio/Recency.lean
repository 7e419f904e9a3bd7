import Rxv64.Bio.Cache
import Rxv64.Lib.Firsts

/-!
# Bio.Recency — the order of the buffer list

`cache.head` to `cache.tail` in `kernel/src/bio.rs` is the order in which the buffers
lost their last reference, the latest in front. A run is any sequence of `bget`s
and `relse`s, with whatever the holders of buffers do to them in between.
-/

namespace Rxv64.Bio

open Dlist Firsts

namespace BCache

/-- What happens to the cache. `fill` is what the holder of a buffer does to it:
new data and flags. -/
inductive Call where
  | bget (dev : UInt32) (blockno : BlockNo)
  | relse (k : BufIdx)
  | fill (k : BufIdx) (valid dirty : Bool) (data : Block)

/-- One call. A `bget` that finds no buffer leaves the cache as it was; `none` is a
panic or a search that does not end. -/
def call (c : BCache) : Call → Option BCache
  | .bget dev blockno =>
      match c.bget dev blockno with
      | none => none
      | some (.error _) => some c
      | some (.ok (_, c')) => some c'
  | .relse k => c.drop k
  | .fill k valid dirty data => some (c.set k { c.bufs k with valid, dirty, data })

/-- The buffers that lost their last reference, the latest first. -/
def released (c : BCache) (recent : List BufIdx) : Call → List BufIdx
  | .relse k => if (c.bufs k).refCnt = 1 then k :: recent else recent
  | _ => recent

/-- A run of calls from a cache in which the buffers of `recent` were released. -/
def run : List Call → BCache → List BufIdx → Option (BCache × List BufIdx)
  | [], c, recent => some (c, recent)
  | e :: es, c, recent => (c.call e).bind fun c' => run es c' (c.released recent e)

/-- The order by most recent release; buffers that were never released come last, as
`bio::init` lined them up. -/
@[irreducible] def byRelease (recent : List BufIdx) : List BufIdx := (recent ++ List.finRange nbuf).eraseDups

theorem mem_byRelease (recent : List BufIdx) (k : BufIdx) : k ∈ byRelease recent := by
  rw [byRelease, List.mem_eraseDups, List.mem_append]
  exact .inr (List.mem_finRange k)

theorem byRelease_cons (k : BufIdx) (recent : List BufIdx) :
    byRelease (k :: recent) = k :: (byRelease recent).erase k := by
  rw [byRelease, byRelease]
  exact eraseDups_cons_erase k (recent ++ List.finRange nbuf)

theorem init_linked (pages : BufIdx → Block) : (init pages).Linked (byRelease []) := by
  have hrow : byRelease [] = List.finRange nbuf := by
    rw [byRelease, List.nil_append, eraseDups_of_nodup (List.nodup_finRange nbuf)]
  rw [hrow]
  exact Links.row _

/-- A call keeps the order. -/
theorem Linked.call {c c' : BCache} {recent : List BufIdx} {e : Call}
    (h : c.Linked (byRelease recent)) (hc : c.call e = some c') :
    c'.Linked (byRelease (c.released recent e)) := by
  have hlisted : c.Listed := ⟨_, h, mem_byRelease recent⟩
  cases e with
  | bget dev blockno =>
      simp only [BCache.call] at hc
      split at hc
      · cases hc
      · cases hc
        exact h
      · next hget =>
          cases hc
          rcases hlisted.bget_cases hget with ⟨-, rfl⟩ | ⟨-, -, rfl⟩
          · exact h
          · exact h
  | relse k =>
      have hdrop := Linked.drop h (mem_byRelease recent k) hc
      rw [released]
      split at hdrop
      · next hone =>
          rw [if_pos hone, byRelease_cons]
          exact hdrop
      · next hmore =>
          rw [if_neg hmore]
          exact hdrop
  | fill k valid dirty data =>
      cases hc
      exact h

theorem Linked.run {c c' : BCache} {recent recent' : List BufIdx} {es : List Call}
    (h : c.Linked (byRelease recent)) (hr : run es c recent = some (c', recent')) :
    c'.Linked (byRelease recent') := by
  induction es generalizing c recent with
  | nil =>
      cases hr
      exact h
  | cons e es ih =>
      obtain ⟨c₁, hcall, hrest⟩ := Option.bind_eq_some_iff.mp hr
      exact ih (h.call hcall) hrest

/-- Both searches of `bget` end, wherever they stop on the list. -/
theorem Linked.searches {c : BCache} {l : List BufIdx} (h : c.Linked l) (ok : BufIdx → Bool) :
    search c.next ok nbuf c.head = some (l.find? ok) ∧
      search c.prev ok nbuf c.tail = some (l.reverse.find? ok) := by
  have hlen : l.length ≤ nbuf := by
    have := List.Nodup.length_le_card h.nodup
    simpa using this
  exact ⟨search_path h.forth hlen, search_path h.back (by simpa using hlen)⟩

/-- **The buffer list stays a list**, ordered by most recent release: forth from the head
and back from the tail it visits every buffer once, in opposite orders, and a search of
`bget` ends there, having seen every buffer before it fails. -/
theorem lru_list {pages : BufIdx → Block} {es : List Call} {c : BCache} {recent : List BufIdx}
    (hr : run es (init pages) [] = some (c, recent)) :
    Path c.next c.head (byRelease recent) none ∧
      Path c.prev c.tail (byRelease recent).reverse none ∧
      (byRelease recent).Nodup ∧ (∀ k, k ∈ byRelease recent) ∧
      (∀ ok, search c.next ok nbuf c.head = some ((byRelease recent).find? ok) ∧
        search c.prev ok nbuf c.tail = some ((byRelease recent).reverse.find? ok)) ∧
      ∀ dev blockno, c.bget dev blockno ≠ none := by
  have hlinked := Linked.run (init_linked pages) hr
  exact ⟨hlinked.forth, hlinked.back, hlinked.nodup, mem_byRelease recent, hlinked.searches,
    Listed.bget_ends ⟨_, hlinked, mem_byRelease recent⟩⟩

theorem drop_last {c : BCache} {k head : BufIdx} (hone : (c.bufs k).refCnt = 1)
    (hhead : c.head = some head) : ∃ c', c.drop k = some c' := by
  unfold BCache.drop
  rw [if_neg (by omega), if_pos (by omega), hhead]
  dsimp only
  split
  · exact ⟨_, rfl⟩
  · exact ⟨_, rfl⟩

/-- A buffer is used for block 7 and released. -/
theorem lru_list_reused : ∃ (k : BufIdx) (c : BCache),
    run [.bget 1 7, .relse k] (init fun _ => Block.zero) [] = some (c, [k]) ∧
      Path c.next c.head (byRelease [k]) none := by
  obtain ⟨k, hget⟩ := bget_init (fun _ => Block.zero) (show (1 : UInt32) ≠ 0 by decide) 7
  have hone : (((init fun _ => Block.zero).rebind k 1 7).bufs k).refCnt = 1 := by
    rw [rebind, set_bufs_self]
    rfl
  obtain ⟨c, hdrop⟩ := drop_last hone rfl
  have hr : run [.bget 1 7, .relse k] (init fun _ => Block.zero) [] = some (c, [k]) := by
    have hfirst : (init fun _ => Block.zero).call (.bget 1 7) =
        some ((init fun _ => Block.zero).rebind k 1 7) := by
      simp only [BCache.call, hget]
    have hsecond : ((init fun _ => Block.zero).rebind k 1 7).call (.relse k) = some c := hdrop
    rw [run, hfirst, Option.bind_some, run, hsecond, Option.bind_some, run]
    simp only [released, hone, if_true]
  obtain ⟨hforth, -⟩ := lru_list hr
  exact ⟨k, c, hr, hforth⟩

end BCache

end Rxv64.Bio
