import Rxv64.Vm.Programs

/-!
# Vm.Roles — what each page is used for

A page of the free list is found by following the links, a table or a page of
user memory by following the entries from the root of a live page table: one of
a process, or the one that its `exec` is building. No page is found in two
places.
-/

namespace Rxv64.Vm

open Radix Places Runs

inductive Role where
  /-- the `i`-th page of the free list -/
  | free (i : Nat)
  /-- a table of the user half, behind these indices from the root on -/
  | node (o : Owner) (path : List (Fin 512))
  /-- the user page at an address -/
  | leaf (o : Owner) (va : Nat)
  /-- a kernel stack -/
  | stack (p : ProcIdx)
  deriving DecidableEq

/-- The page that has a role, if there is one. -/
def Sys.page (s : Sys) : Role → Option Frame
  | .free i => s.mem.nth i
  | .node o path =>
      if path.length < 4 ∧ path.head?.all (fun k => k.val < 256) then
        (s.root o).bind fun root => walk Entry.frame s.mem.heap root path
      else none
  | .leaf o va =>
      if va < userEnd ∧ va % pageSize = 0 then
        (s.root o).bind fun root => (s.mem.entryFor root va).map Entry.frame
      else none
  | .stack p => (s.procs p).kstack

def Role.owner : Role → Owner
  | .free _ => .free
  | .node o _ => o
  | .leaf o _ => o
  | .stack p => .stack p

variable {s s' : Sys} {l l' : List Frame} {o : Owner} {f root : Frame} {r r' : Role}

/-- Tables and user pages stand at the end of a path. -/
def Role.path : Role → List (Fin 512)
  | .node _ path => path
  | .leaf _ va => digits 4 va
  | _ => []

theorem Sys.page_node {path : List (Fin 512)} (hf : s.page (.node o path) = some f) :
    path.length < 4 ∧ (∀ k ∈ path.head?, UserHalf k) ∧
      ∃ root, s.root o = some root ∧ walk Entry.frame s.mem.heap root path = some f := by
  simp only [Sys.page] at hf
  split at hf
  · next hp =>
    refine ⟨hp.1, fun k hk => ?_, Option.bind_eq_some_iff.mp hf⟩
    have hall := hp.2
    rw [Option.mem_def.mp hk] at hall
    have hlt : k.val < 256 := of_decide_eq_true hall
    exact hlt
  · cases hf

theorem Sys.page_leaf {va : Nat} (hf : s.page (.leaf o va) = some f) :
    va < userEnd ∧ va % pageSize = 0 ∧
      ∃ root, s.root o = some root ∧ walk Entry.frame s.mem.heap root (digits 4 va) = some f := by
  simp only [Sys.page] at hf
  split at hf
  · next hva =>
    obtain ⟨root, hroot, hw⟩ := Option.bind_eq_some_iff.mp hf
    refine ⟨hva.1, hva.2, root, hroot, ?_⟩
    rw [entryFor_eq_view] at hw
    rw [walk, if_neg (by simp [digits])]
    exact hw
  · cases hf

/-- Where a page is found. -/
theorem Sys.page_cases (hf : s.page r = some f) :
    (∃ i, r = .free i ∧ s.mem.nth i = some f) ∨
    (∃ p, r = .stack p ∧ (s.procs p).kstack = some f) ∨
    ∃ root, s.root r.owner = some root ∧ walk Entry.frame s.mem.heap root r.path = some f ∧
      r.path.length ≤ 4 ∧ ∀ k ∈ r.path.head?, UserHalf k := by
  cases r with
  | free i => exact .inl ⟨i, rfl, hf⟩
  | stack p => exact .inr (.inl ⟨p, rfl, hf⟩)
  | node o path =>
      obtain ⟨hlen, hhead, root, hroot, hw⟩ := Sys.page_node hf
      exact .inr (.inr ⟨root, hroot, hw, Nat.le_of_lt hlen, hhead⟩)
  | leaf o va =>
      obtain ⟨hva, -, root, hroot, hw⟩ := Sys.page_leaf hf
      exact .inr (.inr ⟨root, hroot, hw, (length_digits 4 va).le, head_userHalf hva⟩)

theorem Sys.page_holds (h : Owns s l) (hf : s.page r = some f) : f ∈ s.holds l r.owner := by
  rcases Sys.page_cases hf with ⟨i, rfl, hi⟩ | ⟨p, rfl, hp⟩ | ⟨root, hroot, hw, hlen, hhead⟩
  · rw [nth_chain h.pool.chain] at hi
    exact List.mem_of_getElem? hi
  · exact hp
  · exact (Sys.root_holds hroot).mpr (walk_mem_foot hlen hhead hw)

/-- In a table, the path says which role it is. -/
theorem Sys.page_path {f' : Frame} (hf : s.page r = some f) (hf' : s.page r' = some f')
    (hroot : s.root r.owner = some root) (ho : r.owner = r'.owner) (hp : r.path = r'.path) :
    r = r' := by
  have hroot' : s.root r'.owner = some root := ho ▸ hroot
  cases r with
  | free i => cases hroot
  | stack p => cases hroot
  | node o path =>
      cases r' with
      | free i => cases hroot'
      | stack p => cases hroot'
      | node o' path' =>
          cases ho
          cases hp
          rfl
      | leaf o' va =>
          have hlen := (Sys.page_node hf).1
          have hpath : path = digits 4 va := hp
          rw [hpath, length_digits] at hlen
          exact absurd hlen (Nat.lt_irrefl 4)
  | leaf o va =>
      cases r' with
      | free i => cases hroot'
      | stack p => cases hroot'
      | node o' path' =>
          have hlen := (Sys.page_node hf').1
          have hpath : digits 4 va = path' := hp
          rw [← hpath, length_digits] at hlen
          exact absurd hlen (Nat.lt_irrefl 4)
      | leaf o' va' =>
          cases ho
          obtain ⟨hva, hmod, -⟩ := Sys.page_leaf hf
          obtain ⟨hva', hmod', -⟩ := Sys.page_leaf hf'
          have hdiv := (digits_four hva hva').mp hp
          have heq : va = va' := by
            simp only [pageSize] at hdiv hmod hmod'
            omega
          rw [heq]

/-- In a state whose pages are divided, a page has one role. -/
theorem Owns.role (h : Owns s l) (hf : s.page r = some f) (hf' : s.page r' = some f) : r = r' := by
  have hholds := Sys.page_holds h hf
  have hholds' := Sys.page_holds h hf'
  have ho : r.owner = r'.owner := by
    by_contra hne
    exact h.apart hne f hholds hholds'
  rcases Sys.page_cases hf with ⟨i, rfl, hi⟩ | ⟨p, rfl, -⟩ | ⟨root, hroot, hw, hlen, hhead⟩
  · rcases Sys.page_cases hf' with ⟨j, rfl, hj⟩ | ⟨q, rfl, -⟩ | ⟨root, hroot, -⟩
    · rw [nth_chain h.pool.chain] at hi hj
      obtain ⟨hi', hi⟩ := List.getElem?_eq_some_iff.mp hi
      obtain ⟨hj', hj⟩ := List.getElem?_eq_some_iff.mp hj
      rw [(h.pool.nodup.getElem_inj_iff).mp (hi.trans hj.symm)]
    · cases ho
    · rw [← ho] at hroot
      cases hroot
  · rcases Sys.page_cases hf' with ⟨j, rfl, -⟩ | ⟨q, rfl, -⟩ | ⟨root, hroot, -⟩
    · cases ho
    · cases ho
      rfl
    · rw [← ho] at hroot
      cases hroot
  · rcases Sys.page_cases hf' with ⟨j, rfl, -⟩ | ⟨q, rfl, -⟩ | ⟨root', hroot', hw', hlen', hhead'⟩
    · rw [ho] at hroot
      cases hroot
    · rw [ho] at hroot
      cases hroot
    · rw [← ho] at hroot'
      cases hroot.symm.trans hroot'
      exact Sys.page_path hf hf' hroot ho
        ((h.tree _ root hroot).walk_inj hlen hlen' hhead hhead' hw hw')

/-- **No page has two roles**, whatever calls are made and whichever
allocations are refused: it is found once on the free list, or behind one path
of one live page table, or it is one process's kernel stack. -/
theorem one_role (h : Reach Sys.Init Sys.Step s) (hne : r ≠ r') (hf : s.page r = some f) :
    s.page r' ≠ some f := by
  obtain ⟨l, hown⟩ := owns_of_reach h
  exact fun hf' => hne (hown.role hf hf')

/-- The first process after an `exec` and an `sbrk`: the page of its heap is used for nothing else. -/
theorem one_role_grown : ∃ s f, Reach Sys.Init Sys.Step s ∧ (s.procs initProc).execed = true ∧
    s.page (.leaf (.table initProc) 0) = some f ∧
    ∀ r, r ≠ .leaf (.table initProc) 0 → s.page r ≠ some f := by
  obtain ⟨s, root, e, hreach, hexec, hroot, -, he⟩ := grown_run
  have hsteps : Reach Sys.Init Sys.Step s := hreach.mono fun _ _ _ hs => hs.2
  have hroot' : s.root (.table initProc) = some root := hroot
  have hpage : s.page (.leaf (.table initProc) 0) = some e.frame := by
    rw [Sys.page, if_pos (by decide), hroot', Option.bind_some, he]
    rfl
  exact ⟨s, e.frame, hsteps, hexec, hpage, fun r hr => one_role hsteps hr.symm hpage⟩

end Rxv64.Vm
