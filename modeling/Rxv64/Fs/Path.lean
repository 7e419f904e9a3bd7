import Mathlib.Data.List.TakeWhile
import Rxv64.Fs.Dir

/-!
# Fs.Path — the components a path walk visits

`skip_elem` of `kernel/src/fs.rs` with its four searches on successive
sub-slices, and the walk of `namex` over the components of a path.
-/

namespace Rxv64.Fs

/-! ## `skip_elem` by positions -/

/-- `path.iter().position(p).unwrap_or(path.len())`. -/
def position (p : UInt8 → Bool) (path : Name) : Nat := (path.findIdx? p).getD path.length

/-- The body of `skip_elem`: `&path[start..]` and what follows. -/
def skipElemAt (path : Name) (start : Nat) : Name × Name :=
  let path := path.drop start
  let stop := position (· = slash) path
  let name := path.take (min stop dirSiz)
  let path := path.drop stop
  (name, path.drop (position (· ≠ slash) path))

/-- `skip_elem` as it is written; `skipElem_eq` has it without positions. -/
def skipElemSlices (path : Name) : Option (Name × Name) :=
  (path.findIdx? (· ≠ slash)).map (skipElemAt path)

theorem position_eq (p : UInt8 → Bool) (path : Name) : position p path = path.findIdx p :=
  List.findIdx_eq_getD_findIdx?.symm

theorem drop_position (p : UInt8 → Bool) (path : Name) :
    path.drop (position p path) = path.dropWhile (fun b => !p b) := by
  rw [position_eq, List.dropWhile_eq_drop_findIdx_not]
  simp

theorem take_position (p : UInt8 → Bool) (path : Name) :
    path.take (position p path) = path.takeWhile (fun b => !p b) := by
  rw [position_eq, List.takeWhile_eq_take_findIdx_not]
  simp

theorem skipElem_eq (path : Name) : skipElemSlices path = skipElem path := by
  unfold skipElemSlices skipElem
  have hdrop : path.drop (path.findIdx (· ≠ slash)) = path.dropWhile (· = slash) := by
    have h := drop_position (· ≠ slash) path
    rw [position_eq] at h
    rw [h]
    simp
  cases hstart : path.findIdx? (· ≠ slash) with
  | none =>
      have hall : path.dropWhile (· = slash) = [] := by
        have hend := List.findIdx?_eq_none_iff_findIdx_eq.mp hstart
        rw [← hdrop, hend, List.drop_length]
      rw [hall]
      rfl
  | some start =>
      obtain ⟨hlt, hidx⟩ := List.findIdx?_eq_some_iff_findIdx_eq.mp hstart
      rw [hidx] at hdrop
      have hne : path.dropWhile (· = slash) ≠ [] := by
        rw [← hdrop]
        intro hnil
        rw [List.drop_eq_nil_iff] at hnil
        omega
      cases hpath : path.dropWhile (· = slash) with
      | nil => exact absurd hpath hne
      | cons p ps =>
          rw [Option.map_some, skipElemAt, hdrop, hpath]
          dsimp only
          rw [drop_position, Nat.min_comm, ← List.take_take, take_position, drop_position]
          simp

/-! ## Walking -/

/-- The turns of the loop in `namex`: the name taken off and the path left at
each; `none` while the loop still runs after `fuel` turns. -/
def walkElems : (fuel : Nat) → (path : Name) → Option (List (Name × Name))
  | 0, _ => none
  | fuel + 1, path =>
      match skipElemSlices path with
      | none => some []
      | some (name, rest) =>
          if name = [] then some [] else (walkElems fuel rest).map ((name, rest) :: ·)

/-- The components of a path: the pieces between slashes that are not empty. -/
def pieces (path : Name) : List Name := (path.splitOn slash).filter (· ≠ [])

/-- The components as a directory can hold them. -/
def components (path : Name) : List Name := (pieces path).map (·.take dirSiz)

theorem pieces_slash (path : Name) : pieces (slash :: path) = pieces path := by
  simp [pieces, List.splitOn, List.splitOnP_cons_eq_if_modifyHead]

theorem pieces_dropWhile (path : Name) : pieces (path.dropWhile (· = slash)) = pieces path := by
  induction path with
  | nil => rfl
  | cons b path ih =>
      by_cases hb : b = slash
      · rw [List.dropWhile_cons_of_pos (by simp [hb]), ih, hb, pieces_slash]
      · rw [List.dropWhile_cons_of_neg (by simp [hb])]

/-- A path that does not start with a slash starts with a component. -/
theorem pieces_cons {p : UInt8} {ps : Name} (hp : p ≠ slash) :
    pieces (p :: ps) = (p :: ps).takeWhile (· ≠ slash) ::
      pieces ((p :: ps).dropWhile (· ≠ slash)) := by
  have hfree : ∀ b ∈ (p :: ps).takeWhile (· ≠ slash), (b == slash) = false := by
    intro b hb
    simpa using List.mem_takeWhile_imp hb
  have hsplit := List.takeWhile_append_dropWhile (p := (· ≠ slash)) (l := p :: ps)
  have hne : (p :: ps).takeWhile (· ≠ slash) ≠ [] := by
    rw [List.takeWhile_cons_of_pos (by simp [hp])]
    simp
  generalize (p :: ps).takeWhile (· ≠ slash) = name at hfree hsplit hne
  cases hrest : (p :: ps).dropWhile (· ≠ slash) with
  | nil =>
      rw [hrest, List.append_nil] at hsplit
      subst hsplit
      simp [pieces, List.splitOn, List.splitOnP_eq_singleton hfree]
  | cons b rest =>
      have hb : b = slash := by
        have := List.head?_dropWhile_not (· ≠ slash) (p :: ps)
        rw [hrest] at this
        simpa using this
      rw [hrest, hb] at hsplit
      rw [hb, pieces_slash, ← hsplit]
      simp [pieces, List.splitOn, List.splitOnP_append_cons_of_forall_mem hfree, hne]

/-- One turn takes the first component off. -/
theorem skipElem_pieces {path name rest : Name} (h : skipElem path = some (name, rest)) :
    name ≠ [] ∧ components path = name :: components rest ∧ rest.head? ≠ some slash ∧
      rest.length < path.length := by
  unfold skipElem at h
  cases hpath : path.dropWhile (· = slash) with
  | nil =>
      rw [hpath] at h
      cases h
  | cons p ps =>
      rw [hpath] at h
      cases h
      have hp : p ≠ slash := by
        have := List.head?_dropWhile_not (· = slash) path
        rw [hpath] at this
        simpa using this
      have htake : (p :: ps).takeWhile (· ≠ slash) = p :: ps.takeWhile (· ≠ slash) :=
        List.takeWhile_cons_of_pos (by simp [hp])
      refine ⟨?_, ?_, ?_, ?_⟩
      · rw [htake]
        simp
      · rw [components, components, ← pieces_dropWhile path, hpath, pieces_cons hp,
          pieces_dropWhile, List.map_cons]
      · intro hhead
        have := List.head?_dropWhile_not (· = slash) ((p :: ps).dropWhile (· ≠ slash))
        rw [hhead] at this
        simp at this
      · have hdrop := List.length_dropWhile_le (· = slash) path
        have hrest := List.length_dropWhile_le (· = slash) ((p :: ps).dropWhile (· ≠ slash))
        have hps := List.length_dropWhile_le (· ≠ slash) ps
        rw [List.dropWhile_cons_of_pos (by simp [hp])] at hrest ⊢
        rw [hpath, List.length_cons] at hdrop
        omega

/-- Without a component there are only slashes. -/
theorem skipElem_none {path : Name} (h : skipElem path = none) : components path = [] := by
  unfold skipElem at h
  cases hpath : path.dropWhile (· = slash) with
  | nil => rw [components, ← pieces_dropWhile, hpath]; rfl
  | cons p ps =>
      rw [hpath] at h
      cases h

/-- `namex`'s turns over a list of names. -/
def walkNames : List Name → Idx → FsM Idx
  | [], ip => pure ip
  | name :: names, ip => do
      let next ← withPutlock ip do
        isDir ip
        dirLookup ip name
      walkNames names next

/-- The walk of `namex` looks the components up, one after the other. -/
theorem namexLoop_eq {fuel : Nat} {path : Name} (h : path.length < fuel) (ip : Idx) :
    namexLoop fuel path ip = walkNames (components path) ip := by
  induction fuel generalizing path ip with
  | zero => omega
  | succ fuel ih =>
      rw [namexLoop]
      cases hskip : skipElem path with
      | none => rw [skipElem_none hskip]; rfl
      | some r =>
          obtain ⟨name, rest⟩ := r
          obtain ⟨hname, hcomps, -, hlen⟩ := skipElem_pieces hskip
          rw [hcomps]
          dsimp only
          rw [if_neg hname, walkNames]
          congr 1
          funext next
          exact ih (by omega) next

theorem walkElems_visits {fuel : Nat} {path : Name} (h : path.length < fuel) :
    ∃ turns, walkElems fuel path = some turns ∧ turns.map Prod.fst = components path ∧
      ∀ r ∈ turns.map Prod.snd, r.head? ≠ some slash := by
  induction fuel generalizing path with
  | zero => omega
  | succ fuel ih =>
      rw [walkElems, skipElem_eq]
      cases hskip : skipElem path with
      | none => exact ⟨[], rfl, (skipElem_none hskip).symm, by simp⟩
      | some r =>
          obtain ⟨name, rest⟩ := r
          obtain ⟨hname, hcomps, hhead, hlen⟩ := skipElem_pieces hskip
          have hshort : rest.length < fuel := by omega
          obtain ⟨turns, hturns, hnames, hrests⟩ := ih hshort
          refine ⟨(name, rest) :: turns, ?_, ?_, ?_⟩
          · dsimp only
            rw [if_neg hname, hturns]
            rfl
          · rw [List.map_cons, hnames, hcomps]
          · rw [List.map_cons, List.forall_mem_cons]
            exact ⟨hhead, hrests⟩

/-- **A path walk visits the components**: the turns end, take the pieces between
slashes in order, each cut to `DIRSIZ` bytes, and leave a path without leading slash
behind; `namex` looks up exactly these names. -/
theorem namex_visits (path : Name) :
    (∃ turns, walkElems (path.length + 1) path = some turns ∧
      turns.map Prod.fst = ((path.splitOn slash).filter (· ≠ [])).map (·.take dirSiz) ∧
      ∀ r ∈ turns.map Prod.snd, r = [] ∨ ∃ b rest, r = b :: rest ∧ b ≠ slash) ∧
    ∀ ip, namexLoop (path.length + 1) path ip =
      walkNames (((path.splitOn slash).filter (· ≠ [])).map (·.take dirSiz)) ip := by
  constructor
  · obtain ⟨turns, hturns, hnames, hrests⟩ := walkElems_visits (Nat.lt_succ_self path.length)
    refine ⟨turns, hturns, hnames, fun r hr => ?_⟩
    cases r with
    | nil => exact .inl rfl
    | cons b rest =>
        refine .inr ⟨b, rest, rfl, fun hb => hrests _ hr ?_⟩
        rw [hb]
        rfl
  · exact fun ip => namexLoop_eq (Nat.lt_succ_self path.length) ip

end Rxv64.Fs
