import Rxv64.Vm.Owners

/-!
# Vm.Calls — what each call does to the pages of the system

Every call keeps the division of the pages. It also keeps the memory of the
processes complete, with one exception: `sbrk` only knows sizes. When it gives
pages back, because it shrinks the heap or because it could not grow it, it
gives back the stack too if that lies in the range. Pages that may only be read
come from segments of files.
-/

namespace Rxv64.Vm

open Radix Places

variable {s s' : Sys} {l l' : List Frame} {p : ProcIdx} {env : Env}

/-- A call of `sbrk` for which no pages of the stack can be given back. -/
def Spared (oldSize : Nat) (delta : Int64) : Prop :=
  (delta < 0 → oldSize < wrapAdd oldSize delta ∨ oldSize ≤ userStack ∨
    pageRoundUp (wrapAdd oldSize delta) = pageRoundUp oldSize) ∧
  (¬delta < 0 → wrapAdd oldSize delta < oldSize ∨ wrapAdd oldSize delta ≤ userStack ∨
    userEnd < wrapAdd oldSize delta ∨ pageRoundUp (wrapAdd oldSize delta) = pageRoundUp oldSize)

instance (oldSize : Nat) (delta : Int64) : Decidable (Spared oldSize delta) :=
  inferInstanceAs (Decidable (_ ∧ _))

/-- The pages are still divided, and under the condition `G` the memory of the
processes is still complete. -/
def Kept (s : Sys) (G : Prop) (s' : Sys) : Prop :=
  ∃ l', Owns s' l' ∧ (G → Full s → Full s')

/-- And under the condition `W` all pages may still be written. -/
structure Keeps (s : Sys) (G W : Prop) (s' : Sys) : Prop where
  kept : Kept s G s'
  writable : W → s.Writable → s'.Writable

theorem Keeps.refl {G W : Prop} (h : Owns s l) : Keeps s G W s :=
  ⟨⟨l, h, fun _ hf => hf⟩, fun _ hw => hw⟩

theorem vm_sat {α : Type} {q : VmM α} {Q : α → Mem → Prop} {E : String → Mem → Prop}
    {X : String → Prop} (h : Sat (q env s.mem) Q E X) :
    Sat (vm q env s) (fun a s' => ∃ m, s' = { s with mem := m } ∧ Q a m)
      (fun e s' => ∃ m, s' = { s with mem := m } ∧ E e m) X :=
  h.zoom (fun _ m hq => ⟨m, rfl, hq⟩) (fun _ m he => ⟨m, rfl, he⟩)

theorem holds_table {g : Frame} (q : ProcIdx) (hg : g ∈ s.holds l (.table q)) :
    ∃ r, s.root (.table q) = some r ∧ g ∈ s.mem.foot 4 UserHalf r := hg

theorem holds_image {g : Frame} (q : ProcIdx) (hg : g ∈ s.holds l (.image q)) :
    ∃ r, s.root (.image q) = some r ∧ g ∈ s.mem.foot 4 UserHalf r := hg

theorem setProc_self (pr : Proc) : (s.setProc p pr).procs p = pr := Function.update_self ..

theorem setProc_other {q : ProcIdx} (pr : Proc) (h : q ≠ p) :
    (s.setProc p pr).procs q = s.procs q := Function.update_of_ne h ..

/-- One process gets other fields. -/
theorem fit_setProc (h : ∀ q, Fit (s.procs q)) {pr : Proc} (hpr : Fit pr) (q : ProcIdx) :
    Fit ((s.setProc p pr).procs q) := by
  by_cases hq : q = p
  · rw [hq, setProc_self]
    exact hpr
  · rw [setProc_other pr hq]
    exact h q

theorem root_setProc {o : Owner} (pr : Proc) (ht : o ≠ .table p) (hi : o ≠ .image p) :
    (s.setProc p pr).root o = s.root o := by
  cases o with
  | free => rfl
  | stack q => rfl
  | table q =>
      have hq : q ≠ p := fun he => ht (he ▸ rfl)
      exact congrArg Proc.pgtbl (setProc_other pr hq)
  | image q =>
      have hq : q ≠ p := fun he => hi (he ▸ rfl)
      exact congrArg (fun pr => pr.image.map Image.pgtbl) (setProc_other pr hq)

theorem root_table (pr : Proc) : (s.setProc p pr).root (.table p) = pr.pgtbl :=
  congrArg Proc.pgtbl (setProc_self pr)

theorem root_image (pr : Proc) : (s.setProc p pr).root (.image p) = pr.image.map Image.pgtbl :=
  congrArg (fun pr => pr.image.map Image.pgtbl) (setProc_self pr)

theorem kstack_setProc {pr : Proc} (h : pr.kstack = (s.procs p).kstack) (q : ProcIdx) :
    ((s.setProc p pr).procs q).kstack = (s.procs q).kstack := by
  by_cases hq : q = p
  · rw [hq, setProc_self]
    exact h
  · rw [setProc_other pr hq]

/-- A process whose table has changed. -/
theorem Owns.setTable (h : Owns s l) (pr : Proc) {m : Mem} {A : Set Frame}
    (hA : ∀ g ∈ A, g ∈ s.holds l (.table p) ∨ g ∈ l) (hsame : Same A s.mem m) (hpool : Pool A m l')
    (hnew : ∀ r, pr.pgtbl = some r → OwnTable A m r l') (himage : pr.image = (s.procs p).image)
    (hkstack : pr.kstack = (s.procs p).kstack) (hfit : Fit pr) :
    Change s l (fun o => o = .free ∨ o = .table p) A (({ s with mem := m } : Sys).setProc p pr) l' := by
  refine .oneTable (fun g hg => holds_table p hg) hA hsame hpool (fun r hr => ?_) (fun o ho => ?_)
    (fun q => ?_) (fit_setProc h.fit hfit)
  · rw [root_table] at hr
    exact hnew r hr
  · by_cases hi : o = .image p
    · rw [hi, root_image, himage]
      rfl
    · rw [root_setProc pr ho hi]
      rfl
  · exact kstack_setProc (s := { s with mem := m }) hkstack q

/-- A process whose `exec` has gone on. -/
theorem Owns.setImage (h : Owns s l) (pr : Proc) {m : Mem} {A : Set Frame}
    (hA : ∀ g ∈ A, g ∈ s.holds l (.image p) ∨ g ∈ l) (hsame : Same A s.mem m) (hpool : Pool A m l')
    (hnew : ∀ im, pr.image = some im → OwnTable A m im.pgtbl l')
    (hpgtbl : pr.pgtbl = (s.procs p).pgtbl) (hkstack : pr.kstack = (s.procs p).kstack)
    (hfit : Fit pr) :
    Change s l (fun o => o = .free ∨ o = .image p) A (({ s with mem := m } : Sys).setProc p pr) l' := by
  refine .oneTable (fun g hg => holds_image p hg) hA hsame hpool (fun r hr => ?_) (fun o ho => ?_)
    (fun q => ?_) (fit_setProc h.fit hfit)
  · rw [root_image] at hr
    obtain ⟨im, him, rfl⟩ := Option.map_eq_some_iff.mp hr
    exact hnew im him
  · by_cases ht : o = .table p
    · rw [ht, root_table, hpgtbl]
      rfl
    · rw [root_setProc pr ht ho]
      rfl
  · exact kstack_setProc (s := { s with mem := m }) hkstack q

/-- A process with a table is in use. -/
theorem Fit.of_table {pr : Proc} (h : Fit pr) {r : Frame} (hr : pr.pgtbl = some r) {size : Nat}
    (hsize : size ≤ userEnd) : Fit { pr with size } := by
  refine ⟨fun hlife => ?_, h.idle, hsize, h.image⟩
  rw [h.clean hlife] at hr
  cases hr

/-- The table of `p` alone has changed, and its size. -/
theorem Owns.resize (h : Owns s l) {r : Frame} (hr : (s.procs p).pgtbl = some r) {m : Mem}
    (hown : OwnTable (s.world l (.table p)) m r l')
    (hsame : Same (s.world l (.table p)) s.mem m) {size : Nat} (hsize : size ≤ userEnd) {G W : Prop}
    (hback : G → (s.procs p).execed = true → Backed s.mem r (s.procs p).size → Backed m r size)
    (hwrite : Writable s.mem r → Writable m r) :
    Keeps s G W (({ s with mem := m } : Sys).setProc p { s.procs p with size }) := by
  have c := h.setTable (p := p) { s.procs p with size } (fun g hg => hg) hsame hown.pool
    (fun r' hr' => by cases hr.symm.trans hr'; exact hown) rfl rfl ((h.fit p).of_table hr hsize)
  refine ⟨⟨l', c.owns h, fun hG hfull => c.full h hfull (fun q hq => ?_) fun q im him =>
    .inl ⟨by simp, ?_⟩⟩, fun _ hw => c.writable h hw ?_⟩
  · by_cases hqp : q = p
    · subst hqp
      rw [setProc_self] at hq ⊢
      obtain ⟨r', hr', hold⟩ := hfull.table q hq
      cases hr.symm.trans hr'
      exact .inr ⟨r, hr, hback hG hq hold⟩
    · rw [setProc_other _ hqp] at hq ⊢
      exact .inl ⟨by simp [hqp], hq, rfl⟩
  · by_cases hqp : q = p
    · subst hqp
      rw [setProc_self] at him
      exact him
    · rw [setProc_other _ hqp] at him
      exact him
  · rintro o r' (rfl | rfl) hr'
    · cases hr'
    · rw [root_table] at hr'
      cases hr.symm.trans hr'
      exact hwrite (hw (.table p) r hr)

/-- The table of `p` alone has changed. -/
theorem Owns.remap (h : Owns s l) {r : Frame} (hr : (s.procs p).pgtbl = some r) {m : Mem}
    (hown : OwnTable (s.world l (.table p)) m r l')
    (hsame : Same (s.world l (.table p)) s.mem m) {G W : Prop}
    (hback : G → (s.procs p).execed = true → Backed s.mem r (s.procs p).size →
      Backed m r (s.procs p).size) (hwrite : Writable s.mem r → Writable m r) :
    Keeps s G W { s with mem := m } := by
  have hself : ({ s with mem := m } : Sys) =
      ({ s with mem := m } : Sys).setProc p { s.procs p with size := (s.procs p).size } := by
    simp [Sys.setProc]
  rw [hself]
  exact h.resize hr hown hsame (h.fit p).size hback hwrite

/-- Pages that are there as before, or new and writable. -/
theorem Writable.of_view {m m' : Mem} {r : Frame} (h : Writable m r)
    (hview : ∀ v, v < userEnd → m'.entryFor r v = m.entryFor r v ∨
      ∀ e, m'.entryFor r v = some e → e.isWrite = true) : Writable m' r := by
  intro v hv e he
  rcases hview v hv with hold | hnew
  · exact h v hv e (hold ▸ he)
  · exact hnew e he

/-! ## `sbrk` -/

/-- A range from the end of the heap on is unmapped, but no page of the stack. -/
theorem backed_cut {m m' : Mem} {r : Frame} {size cut oldSize : Nat} (hle : size ≤ oldSize)
    (hspare : cut ≤ userStack ∨ pageRoundUp cut = pageRoundUp size)
    (hview : ∀ v, v < userEnd → m'.entryFor r v =
      if pageRoundUp size ≤ v ∧ v < pageRoundUp cut then none else m.entryFor r v)
    (hback : Backed m r oldSize) : Backed m' r size := by
  intro v hv hcop
  have hmono := pageRoundUp_mono hle
  have hout : ¬(pageRoundUp size ≤ v ∧ v < pageRoundUp cut) := by
    rcases hcop with hlow | ⟨hst, -⟩
    · omega
    · rcases hspare with hspare | hspare
      · have := pageRoundUp_mono hspare
        have hround : pageRoundUp userStack = userStack := by decide
        omega
      · omega
  rw [UserPage, hview v hv, if_neg hout]
  exact hback v hv (hcop.imp_left fun hlow => by omega)

theorem writable_cut {m m' : Mem} {r : Frame} {lo hi : Nat}
    (hview : ∀ v, v < userEnd → m'.entryFor r v =
      if lo ≤ v ∧ v < hi then none else m.entryFor r v)
    (hw : Writable m r) : Writable m' r := by
  refine hw.of_view fun v hv => ?_
  rw [hview v hv]
  split
  · exact .inr fun e he => by cases he
  · exact .inl rfl

theorem backed_grow {m m' : Mem} {r : Frame} {oldSize newSize : Nat} {flags : PageFlags}
    (hview : ∀ v, v < userEnd → if pageRoundUp oldSize ≤ v ∧ v < pageRoundUp newSize
      then Granted m' r flags v else m'.entryFor r v = m.entryFor r v)
    (hback : Backed m r oldSize) : Backed m' r newSize := by
  intro v hv hcop
  have hv' := hview v hv
  by_cases hin : pageRoundUp oldSize ≤ v ∧ v < pageRoundUp newSize
  · rw [if_pos hin] at hv'
    exact hv'.userPage
  · rw [if_neg hin] at hv'
    rw [UserPage, hv']
    refine hback v hv (hcop.imp_left fun hlow => ?_)
    omega

theorem writable_grow {m m' : Mem} {r : Frame} {P : Nat → Prop} [DecidablePred P]
    {flags : PageFlags} (hview : ∀ v, v < userEnd → if P v then Granted m' r flags v
      else m'.entryFor r v = m.entryFor r v)
    (hflags : ∀ v, P v → (flags.union .user).bits.getLsbD 1 = true)
    (hw : Writable m r) : Writable m' r := by
  refine hw.of_view fun v hv => ?_
  have hv' := hview v hv
  by_cases hin : P v
  · rw [if_pos hin] at hv'
    exact .inr (hv'.isWrite (hflags v hin))
  · rw [if_neg hin] at hv'
    exact .inl hv'

/-- `adjsize`. -/
theorem adjsize_spec (h : Owns s l) (delta : Int64) {W : Prop} :
    Sat (adjsize p delta env s)
      (fun _ s' => Keeps s ((s.procs p).execed = true → Spared (s.procs p).size delta) W s')
      (fun _ s' => Keeps s ((s.procs p).execed = true → Spared (s.procs p).size delta) W s')
      (fun _ => True) := by
  unfold adjsize
  refine Sat.gets ?_
  generalize hnew : wrapAdd (s.procs p).size delta = newSize
  have hold := (h.fit p).size
  cases hr : (s.procs p).pgtbl with
  | none => exact Sat.abort True.intro
  | some r =>
      have hown := h.ownTable (o := .table p) hr
      refine Sat.ite (fun hneg => Sat.ite (fun hlt => Sat.throw (.refl h)) fun hle => ?_)
        fun hpos => Sat.ite (fun hlt => Sat.throw (.refl h)) fun hle => ?_
      · have hle := Nat.not_lt.mp hle
        refine Sat.seq ((vm_sat (deallocUser_spec hown hold)).imp (fun _ _ hq => hq)
          (fun _ _ ⟨_, _, hf⟩ => hf.elim) (fun _ hx => hx.elim)) ?_
        rintro - s₁ ⟨m, rfl, -, l₁, hown₁, hsame, hview⟩
        refine Sat.modify (Sat.pure ?_)
        rw [← hr]
        refine h.resize hr hown₁ hsame (Nat.le_trans hle hold) (fun hG hx hb => ?_)
          (writable_cut hview)
        have hG := (hG hx).1 hneg
        rw [hnew] at hG
        exact backed_cut hle ((hG.resolve_left (Nat.not_lt.mpr hle)).imp_right Eq.symm) hview hb
      · have hle := Nat.not_lt.mp hle
        refine Sat.bind ((vm_sat (allocUser_spec hown)).imp (fun _ _ hq => hq) (fun _ _ hq => hq)
          (fun _ hx => hx.elim)) ?_ ?_
        · rintro - s₁ ⟨m, rfl, ⟨-, rfl⟩ | ⟨hend, l₁, hown₁, hsame, hview⟩⟩
          · exact .refl h
          · -- the growth is rolled back
            refine h.remap hr hown₁ hsame (fun hG hx hb => ?_) (writable_cut hview)
            have hG := (hG hx).2 hpos
            rw [hnew] at hG
            exact backed_cut (Nat.le_refl _) (((hG.resolve_left (Nat.not_lt.mpr hle))).imp_right
              fun hG => hG.resolve_left (Nat.not_lt.mpr hend)) hview hb
        · rintro - s₁ ⟨m, rfl, -, hend, l₁, hown₁, hsame, hview⟩
          refine Sat.modify (Sat.pure ?_)
          rw [← hr]
          exact h.resize hr hown₁ hsame hend (fun _ _ hb => backed_grow hview hb)
            (writable_grow hview fun _ _ => by decide)

/-! ## `fork` -/

/-- Only the free list has changed. -/
theorem Owns.listChange (h : Owns s l) {m : Mem} (hpool : Pool {g | g ∈ l} m l')
    (hsame : Same {g | g ∈ l} s.mem m) :
    Change s l (fun o => o = .free) {g | g ∈ l} { s with mem := m } l' := by
  refine ⟨fun g hg => ⟨.free, rfl, hg⟩, rfl, hsame, fun _ _ => rfl, fun _ _ => rfl,
    hpool.mono fun _ _ => Set.mem_univ _, ?_, ?_, ?_, h.fit⟩
  · rintro o r rfl hr
    cases hr
  · rintro o rfl g hg
    exact hpool.mem g hg
  · rintro o₁ o₂ rfl rfl hne
    exact absurd rfl hne

theorem Owns.keepList (h : Owns s l) {m : Mem} (hpool : Pool {g | g ∈ l} m l')
    (hsame : Same {g | g ∈ l} s.mem m) {G W : Prop} : Keeps s G W { s with mem := m } := by
  have c := h.listChange hpool hsame
  refine ⟨⟨l', c.owns h, fun _ hfull => c.full h hfull (fun q hq => .inl ⟨by simp, hq, rfl⟩)
    fun q im him => .inl ⟨by simp, him⟩⟩, fun _ hw => c.writable h hw ?_⟩
  rintro o r rfl hr
  cases hr

/-- A page that `dup` has copied is a user page if it was one. -/
theorem userPage_copied {m m' : Mem} {src table : Frame} {v : Nat} (h : UserPage m src v)
    (hcop : ∃ e page, m.entryFor src v = some e ∧
      m'.entryFor table v = some (Entry.new (physAddr page) e.flags).enable) :
    UserPage m' table v := by
  obtain ⟨e, he, huser⟩ := h
  obtain ⟨e', page, he', hnew⟩ := hcop
  cases he.symm.trans he'
  exact ⟨_, hnew, by simp [huser]⟩

/-- And one that may be written if that one was. -/
theorem writable_copied {m m' : Mem} {src table : Frame} {size : Nat} (h : Writable m src)
    (hcop : ∀ v, v < userEnd → CopyOf m m' src table size v) : Writable m' table := by
  intro v hv e he
  by_cases hc : Copied size v
  · obtain ⟨e₀, page, he₀, hnew⟩ := (hcop v hv).copied hc
    cases hnew.symm.trans he
    rw [isWrite_entry, write_flags]
    exact h v hv e₀ he₀
  · cases ((hcop v hv).others hc).symm.trans he

theorem Sys.freeProc_some {np : ProcIdx} (h : s.freeProc = some np) :
    (s.procs np).life = .unused := by
  have := Scan.first_some h
  simpa using this

/-- The child has its own stack and its own table. -/
theorem Owns.child (h : Owns s l) {np : ProcIdx} (hfree : (s.procs np).life = .unused) {m : Mem}
    {stack table : Frame} {l₁ : List Frame} (hl : l = stack :: l₁)
    (hown : OwnTable {g | g ∈ l₁} m table l') (hsame : Same {g | g ∈ l} s.mem m)
    (hback : Full s → (s.procs p).execed = true → Backed m table (s.procs p).size)
    (hwrite : s.Writable → Writable m table) {W : Prop} :
    Keeps s True W (({ s with mem := m } : Sys).setProc np
      ⟨.alive, some stack, some table, (s.procs p).size, none, (s.procs p).execed⟩) := by
  have hclean := (h.fit np).clean hfree
  have hsub : ∀ g ∈ ({g | g ∈ l₁} : Set Frame), g ∈ ({g | g ∈ l} : Set Frame) := fun g hg => by
    subst hl
    exact List.mem_cons_of_mem stack hg
  have hnot : stack ∉ l₁ := by
    have := h.pool.nodup
    rw [hl] at this
    exact (List.nodup_cons.mp this).1
  have c : Change s l (fun o => o = .free ∨ o = .table np ∨ o = .stack np) {g | g ∈ l}
      (({ s with mem := m } : Sys).setProc np
        ⟨.alive, some stack, some table, (s.procs p).size, none, (s.procs p).execed⟩) l' := by
    refine .process (fun g hg => .inl hg) hsame (hown.pool.mono hsub) (fun r hr => ?_)
      (fun g hg => ?_) (fun o ho => ?_) (fun q hq => ?_) (fit_setProc h.fit ?_)
    · rw [setProc_self] at hr
      cases hr
      exact hown.mono hsub
    · rw [setProc_self] at hg ⊢
      cases hg
      refine ⟨by rw [hl]; exact List.mem_cons_self, fun hg => hnot (hown.pool.mem _ hg), ?_⟩
      rintro r hr hg
      cases hr
      exact hnot (hown.sub _ hg)
    · by_cases hi : o = .image np
      · rw [hi, root_image]
        show _ = (s.procs np).image.map Image.pgtbl
        rw [hclean]
        rfl
      · rw [root_setProc _ ho hi]
        rfl
    · rw [setProc_other _ hq]
    · exact ⟨fun hl => (by cases hl), fun _ => rfl, (h.fit p).size, fun im him => by cases him⟩
  refine ⟨⟨l', c.owns h, fun _ hfull => c.full h hfull (fun q hq => ?_) fun q im him => ?_⟩,
    fun _ hw => c.writable h hw ?_⟩
  · by_cases hqn : q = np
    · subst hqn
      rw [setProc_self] at hq ⊢
      exact .inr ⟨table, rfl, hback hfull hq⟩
    · rw [setProc_other _ hqn] at hq ⊢
      exact .inl ⟨by simp [hqn], hq, rfl⟩
  · by_cases hqn : q = np
    · subst hqn
      rw [setProc_self] at him
      cases him
    · rw [setProc_other _ hqn] at him
      exact .inl ⟨by simp, him⟩
  · rintro o r (rfl | rfl | rfl) hr
    · cases hr
    · rw [root_table] at hr
      cases hr
      exact hwrite hw
    · cases hr

/-- `fork` panics only if a page it has to copy is missing. -/
theorem fork_spec (h : Owns s l) {W : Prop} :
    Sat (fork p env s) (fun _ s' => Keeps s True W s') (fun _ _ => False)
      (fun _ => ∃ r v, (s.procs p).pgtbl = some r ∧ v < userEnd ∧ Copied (s.procs p).size v ∧
        s.mem.entryFor r v = none) := by
  have hpool : Pool {g | g ∈ l} s.mem l := ⟨h.pool.chain, h.pool.nodup, fun _ hg => hg⟩
  refine Sat.seq ((vm_sat hpool.alloc).imp (fun _ _ hq => hq) (fun _ _ ⟨_, _, hf⟩ => hf)
    (fun _ hx => hx)) ?_
  rintro (_ | stack) s₁ ⟨m₁, rfl, hr⟩
  · exact Sat.pure (h.keepList hr.1 fun g _ => by rw [hr.2])
  · obtain ⟨l₁, hl, hpool₁, hpages⟩ := hr
    have hin : stack ∈ l := by rw [hl]; exact List.mem_cons_self
    have hnot : stack ∉ l₁ := by
      have := h.pool.nodup
      rw [hl] at this
      exact (List.nodup_cons.mp this).1
    have hsub : ∀ g ∈ ({g | g ∈ l₁} : Set Frame), g ∈ ({g | g ∈ l} : Set Frame) := fun g hg => by
      rw [hl]
      exact List.mem_cons_of_mem stack hg
    have hsame₁ : Same {g | g ∈ l} s.mem m₁ := fun g hg => by
      rw [hpages]
      refine Function.update_of_ne ?_ _ _
      rintro rfl
      exact hg hin
    -- there will be no child, and the stack goes back
    have hgive : ∀ {X : String → Prop} {m₂ l₂}, Pool {g | g ∈ l₁} m₂ l₂ →
        Same {g | g ∈ l₁} m₁ m₂ →
        Sat ((do vm (free stack); pure false : SysM Bool) env { s with mem := m₂ })
          (fun _ s' => Keeps s True W s') (fun _ _ => False) X := by
      intro X m₂ l₂ hpool₂ hsame₂
      refine Sat.seq ((vm_sat (E := fun _ _ => False) (Sat.last_modify
        (Q := fun _ m => m = m₂.put stack) rfl)).imp (fun _ _ hq => hq) (fun _ _ ⟨_, _, hf⟩ => hf)
        (fun _ hx => hx)) ?_
      rintro - s₂ ⟨m₃, rfl, rfl⟩
      refine Sat.pure (h.keepList ((hpool₂.mono hsub).put hin fun hg => hnot (hpool₂.mem _ hg)) ?_)
      exact (hsame₁.trans (hsame₂.mono hsub)).trans (same_put hin)
    have hpool₁' : Pool {g | g ∈ l₁} m₁ l₁ := ⟨hpool₁.chain, hpool₁.nodup, fun _ hg => hg⟩
    refine Sat.gets ?_
    cases hnp : ({ s with mem := m₁ } : Sys).freeProc with
    | none => exact hgive hpool₁' Same.refl
    | some np =>
        have hfree : (s.procs np).life = .unused := Sys.freeProc_some hnp
        refine Sat.gets ?_
        show Sat ((dupPgtbl (s.procs p) >>= _) env { s with mem := m₁ }) _ _ _
        unfold dupPgtbl
        cases hr : (s.procs p).pgtbl with
        | none => exact hgive hpool₁' Same.refl
        | some r =>
            -- the parent's table is not touched
            have hfoot : ∀ g ∈ s.mem.foot 4 UserHalf r, g ∉ l := fun g hg => by
              have hown := h.ownTable (o := .table p) hr
              exact hown.apart g hg
            have hnodes : ∀ g ∈ s.mem.nodes 4 UserHalf r, m₁.pages g = s.mem.pages g := fun g hg =>
              hsame₁ g (hfoot g (nodes_subset_foot hg))
            have hsrc : ∀ g ∈ m₁.nodes 4 UserHalf r, g ∉ ({g | g ∈ l₁} : Set Frame) := by
              intro g hg hg₁
              have hn : m₁.nodes 4 UserHalf r = s.mem.nodes 4 UserHalf r :=
                nodes_congr fun g hg => heap_eq (hnodes g hg)
              rw [hn] at hg
              exact hfoot g (nodes_subset_foot hg) (hsub g hg₁)
            refine Sat.seq ((vm_sat (s := { s with mem := m₁ })
              (dup_spec (h.fit p).size hpool₁' hsrc)).imp (fun _ _ hq => hq)
              (fun _ _ ⟨_, _, hf⟩ => hf) ?_) ?_
            · rintro - ⟨v, hv, hcop, hnone⟩
              exact ⟨r, v, rfl, hv, hcop, (entryFor_congr hnodes hv).symm.trans hnone⟩
            · rintro (_ | table) s₂ ⟨m₂, rfl, hdup⟩
              · obtain ⟨l₂, hpool₂, hsame₂⟩ := hdup
                exact hgive hpool₂ hsame₂
              · obtain ⟨l₂, hown₂, hsame₂, hview⟩ := hdup
                refine Sat.modify (Sat.pure (h.child hfree hl hown₂
                  (hsame₁.trans (hsame₂.mono hsub)) (fun hfull hexec v hv hcop => ?_) fun hw => ?_))
                · obtain ⟨r', hr', hback⟩ := hfull.table p hexec
                  cases hr.symm.trans hr'
                  refine userPage_copied ?_ ((hview v hv).copied hcop)
                  rw [UserPage, entryFor_congr hnodes hv]
                  exact hback v hv hcop
                · refine writable_copied ?_ hview
                  exact (hw (.table p) r hr).of_view fun v hv => .inl (entryFor_congr hnodes hv)

/-! ## `exit` and `wait` -/

/-- A process that keeps its pages. -/
theorem Owns.setLife (h : Owns s l) {life : Life} (hfit : Fit { s.procs p with life })
    {G W : Prop} : Keeps s G W (s.setProc p { s.procs p with life }) := by
  have hpool : Pool (s.world l (.table p)) s.mem l :=
    ⟨h.pool.chain, h.pool.nodup, fun _ hg => .inr hg⟩
  have c := h.setTable (p := p) { s.procs p with life } (fun g hg => hg) Same.refl hpool
    (fun r hr => h.ownTable (o := .table p) hr) rfl rfl hfit
  refine ⟨⟨l, c.owns h, fun _ hfull => c.full h hfull (fun q hq => .inr ?_) fun q im him =>
    .inl ⟨by simp, ?_⟩⟩, fun _ hw => c.writable h hw ?_⟩
  · by_cases hqp : q = p
    · subst hqp
      rw [setProc_self] at hq ⊢
      exact hfull.table q hq
    · rw [setProc_other _ hqp] at hq ⊢
      exact hfull.table q hq
  · by_cases hqp : q = p
    · subst hqp
      rw [setProc_self] at him
      exact him
    · rw [setProc_other _ hqp] at him
      exact him
  · rintro o r (rfl | rfl) hr
    · cases hr
    · rw [root_table] at hr
      exact hw (.table p) r hr

theorem exit_spec (h : Owns s l) (himage : (s.procs p).image = none) {W : Prop}
    {E : String → Sys → Prop} :
    Sat (exit p env s) (fun _ s' => Keeps s True W s') E (fun _ => True) := by
  refine Sat.assert (fun _ => True.intro) fun _ => Sat.gets (Sat.last_modify (h.setLife ?_))
  exact ⟨fun hl => (by cases hl), fun _ => himage, (h.fit p).size, (h.fit p).image⟩

/-- The pages of a zombie are free. -/
theorem Owns.reaped (h : Owns s l) {q : ProcIdx} (himage : (s.procs q).image = none) {m : Mem}
    {A : Set Frame} (hA : ∀ g ∈ A, g ∈ l ∨ g ∈ s.holds l (.table q) ∨ g ∈ s.holds l (.stack q))
    (hpool : Pool A m l') (hsame : Same A s.mem m) {G W : Prop} :
    Keeps s G W (({ s with mem := m } : Sys).setProc q Proc.new) := by
  have hnew : Fit Proc.new :=
    ⟨fun _ => rfl, fun _ => rfl, Nat.zero_le _, fun im him => by cases him⟩
  have c : Change s l (fun o => o = .free ∨ o = .table q ∨ o = .stack q) A
      (({ s with mem := m } : Sys).setProc q Proc.new) l' := by
    refine .process hA hsame hpool (fun r hr => ?_) (fun g hg => ?_) (fun o ho => ?_)
      (fun p hp => ?_) (fit_setProc h.fit hnew)
    · rw [setProc_self] at hr
      cases hr
    · rw [setProc_self] at hg
      cases hg
    · by_cases hi : o = .image q
      · rw [hi, root_image]
        show _ = (s.procs q).image.map Image.pgtbl
        rw [himage]
        rfl
      · rw [root_setProc _ ho hi]
        rfl
    · rw [setProc_other _ hp]
  refine ⟨⟨l', c.owns h, fun _ hfull => c.full h hfull (fun p hp => ?_) fun p im him => ?_⟩,
    fun _ hw => c.writable h hw ?_⟩
  · by_cases hpq : p = q
    · subst hpq
      rw [setProc_self] at hp
      cases hp
    · rw [setProc_other _ hpq] at hp ⊢
      exact .inl ⟨by simp [hpq], hp, rfl⟩
  · by_cases hpq : p = q
    · subst hpq
      rw [setProc_self] at him
      cases him
    · rw [setProc_other _ hpq] at him
      exact .inl ⟨by simp, him⟩
  · rintro o r (rfl | rfl | rfl) hr
    · cases hr
    · rw [root_table] at hr
      cases hr
    · cases hr

theorem reap_spec (h : Owns s l) {q : ProcIdx} (hz : (s.procs q).life = .zombie) {W : Prop}
    {E : String → Sys → Prop} :
    Sat (reap q env s) (fun _ s' => Keeps s True W s') E (fun _ => True) := by
  refine Sat.gets ?_
  cases hk : (s.procs q).kstack with
  | none => exact Sat.abort True.intro
  | some zkstack =>
  cases hr : (s.procs q).pgtbl with
  | none => exact Sat.abort True.intro
  | some zpgtbl =>
      have hstack : zkstack ∈ s.holds l (.stack q) := hk
      have hin : zkstack ∈ ({g | g ∈ s.world l (.table q) ∨ g = zkstack} : Set Frame) := .inr rfl
      have hown : OwnTable {g | g ∈ s.world l (.table q) ∨ g = zkstack} s.mem zpgtbl l :=
        (h.ownTable (o := .table q) hr).mono fun g hg => .inl hg
      have hput := hown.put hin (fun hl => h.apart (by simp) zkstack hstack (j := .free) hl)
        fun hf => h.apart (by simp) zkstack hstack (j := .table q)
          ((Sys.root_holds (s := s) (o := .table q) hr).mpr hf)
      refine Sat.modify (Sat.modify ?_)
      refine (vm_sat (s := ({ s with mem := s.mem.put zkstack } : Sys).setProc q Proc.new)
        (dropTable_spec hput)).imp ?_ (fun _ _ ⟨_, _, hf⟩ => hf.elim) (fun _ hx => hx.elim)
      rintro - s' ⟨m, rfl, l', hpool, hsame⟩
      refine h.reaped ((h.fit q).idle hz) (fun g hg => ?_) hpool ((same_put hin).trans hsame)
      rcases hg with (hg | hg) | rfl
      · exact .inr (.inl hg)
      · exact .inl hg
      · exact .inr (.inr hstack)

/-! ## Stores -/

/-- A process writes to its memory. -/
theorem storeUser_spec (h : Owns s l) (va : Nat) (page : Page) {W : Prop} :
    Sat (storeUser p va page env s) (fun _ s' => Keeps s True W s')
      (fun _ s' => Keeps s True W s') (fun _ => True) := by
  refine Sat.gets ?_
  cases hr : (s.procs p).pgtbl with
  | none => exact Sat.abort True.intro
  | some r =>
      have hown := h.ownTable (o := .table p) hr
      refine Sat.ite (fun hva => ?_) fun _ => Sat.throw (.refl h)
      refine Sat.bind (vm_sat userAddrToKernPage_spec) ?_ ?_
      · rintro - s₁ ⟨m, rfl, rfl⟩
        exact .refl h
      · rintro g s₁ ⟨m, rfl, rfl, e, he, rfl⟩
        have hpoke := hown.poke hva he page
        refine ⟨h.remap hr hpoke.1 hpoke.2.1 (fun _ _ hb v hv hcop => ?_) fun hw =>
          hw.of_view fun v hv => .inl (hpoke.2.2 v hv)⟩
        rw [UserPage, hpoke.2.2 v hv]
        exact hb v hv hcop

/-- The kernel uses its stack. -/
theorem pushStack_spec (h : Owns s l) (page : Page) {W : Prop} {E : String → Sys → Prop} :
    Sat (pushStack p page env s) (fun _ s' => Keeps s True W s') E (fun _ => True) := by
  refine Sat.gets ?_
  cases hk : (s.procs p).kstack with
  | none => exact Sat.abort True.intro
  | some stack =>
      have hstack : stack ∈ s.holds l (.stack p) := hk
      have hnot : stack ∉ l := h.apart (by simp) stack hstack (j := .free)
      have c : Change s l (fun o => o = .free ∨ o = .stack p) {g | g ∈ l ∨ g = stack}
          { s with mem := s.mem.setPage stack page } l := by
        refine ⟨?_, .inl rfl, same_setPage (.inr rfl), fun _ _ => rfl, fun _ _ => rfl, ?_, ?_, ?_,
          ?_, h.fit⟩
        · rintro g (hg | rfl)
          · exact ⟨.free, .inl rfl, hg⟩
          · exact ⟨_, .inr rfl, hstack⟩
        · refine h.pool.frame rfl fun g hg => setPage_pages ?_
          rintro rfl
          exact hnot hg
        · rintro o r (rfl | rfl) hr
          · cases hr
          · cases hr
        · rintro o (rfl | rfl) g hg
          · exact .inl hg
          · exact .inr (Option.some.inj (hk.symm.trans hg)).symm
        · rintro o₁ o₂ (rfl | rfl) (rfl | rfl) hne g hg₁ hg₂
          · exact hne rfl
          · exact h.apart hne g hg₁ hg₂
          · exact h.apart hne g hg₁ hg₂
          · exact hne rfl
      refine ⟨⟨l, c.owns h, fun _ hfull => c.full h hfull (fun q hq => .inl ⟨by simp, hq, rfl⟩)
        fun q im him => .inl ⟨by simp, him⟩⟩, fun _ hw => c.writable h hw ?_⟩
      rintro o r (rfl | rfl) hr
      · cases hr
      · cases hr

end Rxv64.Vm
