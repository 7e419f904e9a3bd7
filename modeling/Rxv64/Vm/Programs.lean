import Rxv64.Vm.Calls

/-!
# Vm.Programs — `exec` and the first process

While `exec` loads a program, the process has two tables. The new one is
dropped when something goes wrong, and else replaces the old one.
-/

namespace Rxv64.Vm

open Radix Places Runs

variable {s s' : Sys} {l l' : List Frame} {p : ProcIdx} {env : Env} {im : Image}

theorem Sys.root_of_image (him : (s.procs p).image = some im) :
    s.root (.image p) = some im.pgtbl := by
  simp [Sys.root, him]

/-- A process in the middle of `exec` is in use. -/
theorem Fit.alive {pr : Proc} (h : Fit pr) (him : pr.image = some im) : pr.life = .alive := by
  cases hl : pr.life with
  | unused =>
      rw [h.clean hl] at him
      cases him
  | zombie => cases him.symm.trans (h.idle hl)
  | alive => rfl

/-- A process that is alive and has another image. -/
theorem Fit.setImage {pr : Proc} (h : Fit pr) (hlive : pr.life = .alive) {image : Option Image}
    (hsize : ∀ im, image = some im → im.size ≤ userEnd) : Fit { pr with image } := by
  refine ⟨fun hl => ?_, fun hl => ?_, h.size, hsize⟩
  · cases hlive.symm.trans hl
  · cases hlive.symm.trans hl

/-- The image of `p` alone has changed. -/
theorem Owns.reimage (h : Owns s l) (hlive : (s.procs p).life = .alive) {m : Mem} {A : Set Frame}
    {image : Option Image} (hA : ∀ g ∈ A, g ∈ s.holds l (.image p) ∨ g ∈ l)
    (hsame : Same A s.mem m) (hpool : Pool A m l')
    (hnew : ∀ im, image = some im → im.size ≤ userEnd ∧ OwnTable A m im.pgtbl l')
    (hlow : Full s → ∀ im, image = some im → Low m im.pgtbl im.size) {G W : Prop}
    (hwrite : W → s.Writable → ∀ im, image = some im → Writable m im.pgtbl) :
    Keeps s G W (({ s with mem := m } : Sys).setProc p { s.procs p with image }) := by
  have c := h.setImage (p := p) { s.procs p with image } hA hsame hpool (fun im him => (hnew im him).2) rfl rfl
    ((h.fit p).setImage hlive fun im him => (hnew im him).1)
  refine ⟨⟨l', c.owns h, fun _ hfull => c.full h hfull (fun q hq => .inl ?_) fun q im him => ?_⟩,
    fun hW hw => c.writable h hw ?_⟩
  · by_cases hqp : q = p
    · subst hqp
      rw [setProc_self] at hq ⊢
      exact ⟨by simp, hq, rfl⟩
    · rw [setProc_other _ hqp] at hq ⊢
      exact ⟨by simp, hq, rfl⟩
  · by_cases hqp : q = p
    · subst hqp
      rw [setProc_self] at him
      exact .inr (hlow hfull im him)
    · rw [setProc_other _ hqp] at him
      exact .inl ⟨by simp [hqp], him⟩
  · rintro o r (rfl | rfl) hr
    · cases hr
    · rw [root_image] at hr
      obtain ⟨im, him, rfl⟩ := Option.map_eq_some_iff.mp hr
      exact hwrite hW hw im him

/-- `exec` fails, whatever it has done to its image. -/
theorem dropImage_spec (h : Owns s l) (him : (s.procs p).image = some im) {m : Mem}
    (hin : Intact (s.world l (.image p)) s.mem m im.pgtbl) {W : Prop} {E : String → Sys → Prop} :
    Sat (dropImage p env { s with mem := m }) (fun _ s' => Keeps s True W s') E
      (fun _ => True) := by
  obtain ⟨l₁, hown, hsame⟩ := hin
  refine Sat.gets ?_
  dsimp only
  rw [him]
  refine Sat.modify ?_
  refine (vm_sat (s := ({ s with mem := m } : Sys).setProc p { s.procs p with image := none })
    (dropTable_spec hown)).imp ?_ (fun _ _ ⟨_, _, hf⟩ => hf.elim) (fun _ hx => hx.elim)
  rintro - s' ⟨m', rfl, l', hpool, hsame'⟩
  exact h.reimage ((h.fit p).alive him) (fun g hg => hg) (hsame.trans hsame') hpool
    (fun im him => by cases him) (fun _ im him => by cases him) fun _ _ im him => by cases him

theorem execBegin_spec (h : Owns s l) (hlive : (s.procs p).life = .alive)
    (args : List (List (BitVec 8))) {W : Prop} :
    Sat (execBegin p args env s) (fun _ s' => Keeps s True W s') (fun _ s' => Keeps s True W s')
      (fun _ => True) := by
  have hpool : Pool {g | g ∈ l} s.mem l := ⟨h.pool.chain, h.pool.nodup, fun _ hg => hg⟩
  refine Sat.ite (fun _ => Sat.throw (.refl h)) fun _ => Sat.gets ?_
  refine Sat.seq ((vm_sat (E := fun _ _ => False) (dupKern_spec hpool)).imp (fun _ _ hq => hq)
    (fun _ _ ⟨_, _, hf⟩ => hf.elim) (fun _ hx => hx)) ?_
  rintro (_ | pgtbl) s₁ ⟨m, rfl, hr⟩
  · exact Sat.throw (h.keepList hr.1 hr.2)
  · obtain ⟨l₁, hl, hown, hsame, hview⟩ := hr
    refine Sat.gets (Sat.last_modify ?_)
    refine h.reimage (A := {g | g ∈ l}) hlive (fun g hg => .inr hg) hsame hown.pool
      (fun im him => ?_) (fun _ im him => ?_) fun _ _ im him => ?_
    · cases him
      exact ⟨Nat.zero_le _, hown⟩
    · cases him
      intro v hv
      have hzero : pageRoundUp 0 = 0 := rfl
      exact absurd (hzero ▸ hv) (Nat.not_lt_zero v)
    · cases him
      intro v hv e he
      cases (hview v hv).symm.trans he

/-- A segment that may be written, or that needs no page. -/
def ProgramHeader.Shields (ph : ProgramHeader) (size : Nat) : Prop :=
  ph.writable ∨ pageRoundUp (ph.virtAddr.toNat + ph.memSize.toNat) ≤ pageRoundUp size

instance (ph : ProgramHeader) (size : Nat) : Decidable (ph.Shields size) :=
  inferInstanceAs (Decidable (_ ∨ _))

theorem ProgramHeader.Shields.flags {ph : ProgramHeader} {size v : Nat} (h : ph.Shields size)
    (hv : pageRoundUp size ≤ v ∧
      v < pageRoundUp (max size (ph.virtAddr.toNat + ph.memSize.toNat))) :
    (ph.pageFlags.union .user).bits.getLsbD 1 = true := by
  rcases h with hw | hle
  · rw [getLsbD_pageFlags ph 1 (by decide)]
    simp [hw]
  · rcases Nat.le_total size (ph.virtAddr.toNat + ph.memSize.toNat) with hmax | hmax
    · rw [Nat.max_eq_right hmax] at hv
      omega
    · rw [Nat.max_eq_left hmax] at hv
      omega

theorem execLoad_spec (h : Owns s l) (ph : ProgramHeader) (readi : FileData) :
    Sat (execLoad p ph readi env s)
      (fun _ s' => Keeps s True (∀ im ∈ (s.procs p).image, ph.Shields im.size) s')
      (fun _ s' => Keeps s True (∀ im ∈ (s.procs p).image, ph.Shields im.size) s')
      (fun _ => True) := by
  refine Sat.gets ?_
  cases him : (s.procs p).image with
  | none => exact Sat.abort True.intro
  | some im =>
      have hroot := Sys.root_of_image him
      have hown := h.ownTable hroot
      refine Sat.bind (Sat.onErr (vm_sat (loadSegment_spec hown ((h.fit p).image im him))) ?_)
        (fun _ _ hq => hq) ?_
      · rintro e s₁ ⟨m, rfl, hin⟩
        exact dropImage_spec h him hin
      · rintro size s₁ ⟨m, rfl, hsize, rfl, ⟨l₁, hown₁, hsame⟩, hview⟩
        refine Sat.last_modify ?_
        refine h.reimage ((h.fit p).alive him) (fun g hg => hg) hsame hown₁.pool
          (fun im' him' => ?_) (fun hfull im' him' => ?_) fun hW hw im' him' => ?_
        · cases him'
          exact ⟨hsize, hown₁⟩
        · cases him'
          intro v hv
          have hv' := hview v (Nat.lt_of_lt_of_le hv (pageRoundUp_userEnd hsize))
          by_cases hin : pageRoundUp im.size ≤ v
          · rw [if_pos ⟨hin, hv⟩] at hv'
            exact hv'.userPage
          · rw [if_neg fun hn => hin hn.1] at hv'
            rw [UserPage, hv']
            exact hfull.image p im him v (Nat.not_le.mp hin)
        · cases him'
          exact writable_grow hview (fun v hv => (hW im rfl).flags hv) (hw _ _ hroot)

/-! ## The new table replaces the old one -/

/-- The image has become the table. -/
def Proc.commit (pr : Proc) (im : Image) : Proc :=
  { pr with pgtbl := some im.pgtbl, size := im.size, image := none, execed := true }

theorem Owns.commit (h : Owns s l) (him : (s.procs p).image = some im) {m : Mem} {A : Set Frame}
    (hA : ∀ g ∈ A, g ∈ s.world l (.image p) ∨ g ∈ s.holds l (.table p)) (hsame : Same A s.mem m)
    (hown : OwnTable A m im.pgtbl l') (hback : Full s → Backed m im.pgtbl im.size)
    (hwrite : s.Writable → Writable m im.pgtbl) {G W : Prop} :
    Keeps s G W (({ s with mem := m } : Sys).setProc p ((s.procs p).commit im)) := by
  have hlive := (h.fit p).alive him
  have hfit : Fit ((s.procs p).commit im) := by
    refine ⟨fun hl => ?_, fun _ => rfl, (h.fit p).image im him, fun im' him' => ?_⟩
    · cases hlive.symm.trans hl
    · cases him'
  have hroot : ∀ r, (({ s with mem := m } : Sys).setProc p ((s.procs p).commit im)).root
      (.table p) = some r → r = im.pgtbl := by
    intro r hr
    rw [root_table] at hr
    exact (Option.some.inj hr).symm
  have hnone : ∀ g, g ∉ (({ s with mem := m } : Sys).setProc p ((s.procs p).commit im)).holds l'
      (.image p) := by
    intro g hg
    obtain ⟨r, hr, -⟩ := holds_image p hg
    rw [root_image] at hr
    cases hr
  have htable : ∀ g, g ∈ (({ s with mem := m } : Sys).setProc p ((s.procs p).commit im)).holds l'
      (.table p) → g ∈ m.foot 4 UserHalf im.pgtbl := by
    intro g hg
    obtain ⟨r, hr, hg⟩ := holds_table p hg
    rw [hroot r hr] at hg
    exact hg
  have c : Change s l (fun o => o = .free ∨ o = .table p ∨ o = .image p) A
      (({ s with mem := m } : Sys).setProc p ((s.procs p).commit im)) l' := by
    refine ⟨fun g hg => ?_, .inl rfl, hsame, fun o ho => ?_, fun q _ => ?_,
      hown.pool.mono fun _ _ => Set.mem_univ _, ?_, ?_, ?_, fit_setProc h.fit hfit⟩
    · rcases hA g hg with (hg | hg) | hg
      · exact ⟨_, .inr (.inr rfl), hg⟩
      · exact ⟨.free, .inl rfl, hg⟩
      · exact ⟨_, .inr (.inl rfl), hg⟩
    · rw [root_setProc _ (fun he => ho (.inr (.inl he))) fun he => ho (.inr (.inr he))]
      rfl
    · have hkstack : ((s.procs p).commit im).kstack = (s.procs p).kstack := rfl
      exact kstack_setProc (s := { s with mem := m }) hkstack q
    · rintro o r (rfl | rfl | rfl) hr
      · cases hr
      · rw [hroot r hr]
        exact hown.tree
      · rw [root_image] at hr
        cases hr
    · rintro o (rfl | rfl | rfl) g hg
      · exact hown.pool.mem g hg
      · exact hown.sub g (htable g hg)
      · exact absurd hg (hnone g)
    · rintro o₁ o₂ (rfl | rfl | rfl) (rfl | rfl | rfl) hne g hg₁ hg₂
      · exact hne rfl
      · exact hown.apart g (htable g hg₂) hg₁
      · exact hnone g hg₂
      · exact hown.apart g (htable g hg₁) hg₂
      · exact hne rfl
      · exact hnone g hg₂
      · exact hnone g hg₁
      · exact hnone g hg₁
      · exact hne rfl
  refine ⟨⟨l', c.owns h, fun _ hfull => c.full h hfull (fun q hq => ?_) fun q im' him' => ?_⟩,
    fun _ hw => c.writable h hw ?_⟩
  · by_cases hqp : q = p
    · subst hqp
      rw [setProc_self]
      exact .inr ⟨im.pgtbl, rfl, hback hfull⟩
    · rw [setProc_other _ hqp] at hq ⊢
      exact .inl ⟨by simp [hqp], hq, rfl⟩
  · by_cases hqp : q = p
    · subst hqp
      rw [setProc_self] at him'
      cases him'
    · rw [setProc_other _ hqp] at him'
      exact .inl ⟨by simp [hqp], him'⟩
  · rintro o r (rfl | rfl | rfl) hr
    · cases hr
    · rw [hroot r hr]
      exact hwrite hw
    · rw [root_image] at hr
      cases hr

/-- The old table, after changes of the new one. -/
theorem Owns.previous (h : Owns s l) {prev : Frame} (hprev : (s.procs p).pgtbl = some prev) {m : Mem}
    (hown : OwnTable (s.world l (.image p)) m im.pgtbl l')
    (hsame : Same (s.world l (.image p)) s.mem m) :
    OwnTable {g | g ∈ s.holds l (.table p) ∨ g ∈ l'} m prev l' := by
  have hroot' : s.root (.table p) = some prev := hprev
  have hout : ∀ g ∈ s.mem.foot 4 UserHalf prev, g ∉ s.world l (.image p) := by
    rintro g hg (hi | hl)
    · exact h.apart (i := .table p) (by simp) g ((Sys.root_holds hroot').mpr hg) hi
    · exact h.apart (i := .table p) (by simp) g ((Sys.root_holds hroot').mpr hg) (j := .free) hl
  have hold : OwnTable (s.world l (.table p)) s.mem prev l := h.ownTable hroot'
  have hnodes : ∀ g ∈ s.mem.nodes 4 UserHalf prev, m.pages g = s.mem.pages g := fun g hg =>
    hsame g (hout g (nodes_subset_foot hg))
  have hfoot : m.foot 4 UserHalf prev = s.mem.foot 4 UserHalf prev := foot_frame hnodes
  refine ⟨⟨hown.pool.chain, hown.pool.nodup, fun g hg => .inr hg⟩,
    hold.tree.congr fun g hg => heap_eq (hnodes g hg), fun g hg => ?_, fun g hg hl => ?_⟩
  · rw [hfoot] at hg
    exact .inl ((Sys.root_holds hroot').mpr hg)
  · rw [hfoot] at hg
    exact hout g hg (hown.pool.mem g hl)

theorem execFinish_spec (h : Owns s l) {W : Prop} :
    Sat (execFinish p env s) (fun _ s' => Keeps s True W s') (fun _ s' => Keeps s True W s')
      (fun _ => True) := by
  refine Sat.gets ?_
  cases him : (s.procs p).image with
  | none => exact Sat.abort True.intro
  | some im =>
      have hroot := Sys.root_of_image him
      refine Sat.bind (Sat.onErr (vm_sat (buildStack_spec (h.ownTable hroot))) ?_)
        (fun _ _ hq => hq) ?_
      · rintro e s₁ ⟨m, rfl, hin⟩
        exact dropImage_spec h him hin
      · rintro - s₁ ⟨m, rfl, ⟨l₁, hown, hsame⟩, hstack⟩
        have hback : Full s → Backed m im.pgtbl im.size := by
          intro hfull v hv hcop
          have hv' := hstack v hv
          by_cases hst : userStack ≤ v
          · rw [if_pos hst] at hv'
            exact hv'.userPage
          · rw [if_neg hst] at hv'
            rw [UserPage, hv']
            exact hfull.image p im him v (hcop.resolve_right fun hn => hst hn.1)
        have hwrite : s.Writable → Writable m im.pgtbl := fun hw =>
          writable_grow hstack (fun _ _ => by decide) (hw _ _ hroot)
        refine Sat.modify ?_
        cases hprev : (s.procs p).pgtbl with
        | none =>
            refine Sat.pure ?_
            exact h.commit him (fun g hg => .inl hg) hsame hown hback hwrite
        | some prev =>
            have hdrop := h.previous hprev hown hsame
            refine (vm_sat (s := ({ s with mem := m } : Sys).setProc p ((s.procs p).commit im))
              (dropTable_spec hdrop)).imp ?_ (fun _ _ hf => ?_) (fun _ hx => hx.elim)
            rotate_left
            · obtain ⟨m₂, -, hf⟩ := hf
              exact hf.elim
            rintro - s₂ ⟨m₂, rfl, l₂, hpool₂, hsame₂⟩
            -- the new table is not touched when the old one goes
            have hout : ∀ g ∈ m.foot 4 UserHalf im.pgtbl,
                g ∉ ({g | g ∈ s.holds l (.table p) ∨ g ∈ l₁} : Set Frame) := by
              rintro g hg (ht | hl)
              · rcases hown.sub g hg with hi | hl
                · exact h.apart (by simp) g ht hi
                · exact h.apart (by simp) g ht (j := .free) hl
              · exact hown.apart g hg hl
            have hnodes : ∀ g ∈ m.nodes 4 UserHalf im.pgtbl, m₂.pages g = m.pages g := fun g hg =>
              hsame₂ g (hout g (nodes_subset_foot hg))
            have hsub : ∀ g ∈ ({g | g ∈ s.holds l (.table p) ∨ g ∈ l₁} : Set Frame),
                g ∈ ({g | g ∈ s.world l (.image p) ∨ g ∈ s.holds l (.table p)} : Set Frame) := by
              rintro g (ht | hl)
              · exact .inr ht
              · exact .inl (hown.pool.mem g hl)
            have hown₂ : OwnTable {g | g ∈ s.world l (.image p) ∨ g ∈ s.holds l (.table p)} m₂
                im.pgtbl l₂ :=
              (hown.mono fun g hg => .inl hg).frame (hpool₂.mono hsub) hnodes fun g hg hl =>
                hout g hg (hpool₂.mem g hl)
            refine h.commit him (fun g hg => hg)
              ((hsame.mono fun g hg => .inl hg).trans (hsame₂.mono hsub)) hown₂
              (fun hfull v hv hcop => ?_) fun hw => ?_
            · rw [UserPage, entryFor_congr hnodes hv]
              exact hback hfull v hv hcop
            · exact (hwrite hw).of_view fun v hv => .inl (entryFor_congr hnodes hv)

/-! ## The first process -/

theorem Sys.Boot.owns (h : s.Boot) : ∃ l, Owns s l ∧ Full s ∧ s.Writable := by
  obtain ⟨l, hchain, hnodup⟩ := h.free
  have hroot : ∀ o, s.root o = none := by
    intro o
    cases o with
    | free => rfl
    | stack p => rfl
    | table p =>
        show (s.procs p).pgtbl = none
        rw [h.procs p]
        rfl
    | image p =>
        show (s.procs p).image.map Image.pgtbl = none
        rw [h.procs p]
        rfl
  have hnone : ∀ o, o ≠ .free → ∀ g, g ∉ s.holds l o := by
    intro o ho g hg
    cases o with
    | free => exact ho rfl
    | stack p =>
        have hk : (s.procs p).kstack = some g := hg
        rw [h.procs p] at hk
        cases hk
    | table p =>
        obtain ⟨r, hr, -⟩ := holds_table p hg
        cases (hroot _).symm.trans hr
    | image p =>
        obtain ⟨r, hr, -⟩ := holds_image p hg
        cases (hroot _).symm.trans hr
  refine ⟨l, ⟨⟨hchain, hnodup, fun _ _ => Set.mem_univ _⟩, fun o r hr => ?_, ?_, fun p => ?_⟩,
    ⟨fun p hp => ?_, fun p im him => ?_⟩, fun o r hr => ?_⟩
  · cases (hroot o).symm.trans hr
  · intro o o' hne g hg hg'
    by_cases ho : o = .free
    · exact hnone o' (fun ho' => hne (ho.trans ho'.symm)) g hg'
    · exact hnone o ho g hg
  · rw [h.procs p]
    exact ⟨fun _ => rfl, fun _ => rfl, Nat.zero_le _, fun im him => by cases him⟩
  · rw [h.procs p] at hp
    cases hp
  · rw [h.procs p] at him
    cases him
  · cases (hroot o).symm.trans hr

/-- The first process has its own stack and its own table. -/
theorem Owns.first (h : Owns s l) (himage : (s.procs p).image = none) {m : Mem}
    {stack pgtbl : Frame} {size : Nat} (hsize : size ≤ userEnd)
    (hown : OwnTable {g | g ∈ l} m pgtbl l') (hstack : stack ∈ l ∧ stack ∉ l' ∧
      stack ∉ m.foot 4 UserHalf pgtbl) (hsame : Same {g | g ∈ l} s.mem m)
    (hwrite : Writable m pgtbl) {G W : Prop} :
    Keeps s G W (({ s with mem := m } : Sys).setProc p
      ⟨.alive, some stack, some pgtbl, size, none, false⟩) := by
  have c : Change s l (fun o => o = .free ∨ o = .table p ∨ o = .stack p) {g | g ∈ l}
      (({ s with mem := m } : Sys).setProc p
        ⟨.alive, some stack, some pgtbl, size, none, false⟩) l' := by
    refine .process (fun g hg => .inl hg) hsame hown.pool (fun r hr => ?_) (fun g hg => ?_)
      (fun o ho => ?_) (fun q hq => ?_) (fit_setProc h.fit ?_)
    · rw [setProc_self] at hr
      cases hr
      exact hown
    · rw [setProc_self] at hg ⊢
      cases hg
      refine ⟨hstack.1, hstack.2.1, fun r hr => ?_⟩
      cases hr
      exact hstack.2.2
    · by_cases hi : o = .image p
      · rw [hi, root_image]
        show _ = (s.procs p).image.map Image.pgtbl
        rw [himage]
      · rw [root_setProc _ ho hi]
        rfl
    · rw [setProc_other _ hq]
    · exact ⟨fun hl => (by cases hl), fun _ => rfl, hsize, fun im him => by cases him⟩
  refine ⟨⟨l', c.owns h, fun _ hfull => c.full h hfull (fun q hq => ?_) fun q im him => ?_⟩,
    fun _ hw => c.writable h hw ?_⟩
  · by_cases hqp : q = p
    · subst hqp
      rw [setProc_self] at hq
      cases hq
    · rw [setProc_other _ hqp] at hq ⊢
      exact .inl ⟨by simp [hqp], hq, rfl⟩
  · by_cases hqp : q = p
    · subst hqp
      rw [setProc_self] at him
      cases him
    · rw [setProc_other _ hqp] at him
      exact .inl ⟨by simp, him⟩
  · rintro o r (rfl | rfl | rfl) hr
    · cases hr
    · rw [root_table] at hr
      cases hr
      exact hwrite
    · cases hr

theorem procInit_spec (h : s.Boot) (code : Page) {E : String → Sys → Prop} :
    Sat (procInit code env s) (fun _ s' => (∃ l', Owns s' l' ∧ Full s') ∧ s'.Writable) E
      (fun _ => True) := by
  obtain ⟨l, hown, hfull, hwrite⟩ := h.owns
  have hpool : Pool {g | g ∈ l} s.mem l := ⟨hown.pool.chain, hown.pool.nodup, fun _ hg => hg⟩
  refine Sat.seq ((vm_sat (E := fun _ _ => False) hpool.alloc).imp (fun _ _ hq => hq)
    (fun _ _ ⟨_, _, hf⟩ => hf.elim) (fun _ hx => hx)) ?_
  rintro (_ | page) s₁ ⟨m₁, rfl, hr⟩
  · exact Sat.abort True.intro
  obtain ⟨l₁, rfl, hpool₁, hpages⟩ := hr
  have hnot : page ∉ l₁ := (List.nodup_cons.mp hown.pool.nodup).1
  have hin : page ∈ ({g | g ∈ page :: l₁} : Set Frame) := List.mem_cons_self
  have hsame₁ : Same {g | g ∈ page :: l₁} s.mem (m₁.setPage page code) := by
    have halloc : Same {g | g ∈ page :: l₁} s.mem m₁ := by
      intro g hg
      rw [hpages]
      refine Function.update_of_ne ?_ _ _
      rintro rfl
      exact hg hin
    exact halloc.trans (same_setPage hin)
  have hpool₁ : Pool {g | g ∈ l₁} (m₁.setPage page code) l₁ := by
    refine Pool.frame ⟨hpool₁.chain, hpool₁.nodup, fun g hg => hg⟩ rfl fun g hg => setPage_pages ?_
    rintro rfl
    exact hnot hg
  refine Sat.modify (Sat.gets ?_)
  refine Sat.seq ((vm_sat (s := { s with mem := m₁.setPage page code }) (E := fun _ _ => False)
    (dupKern_spec hpool₁)).imp (fun _ _ hq => hq) (fun _ _ ⟨_, _, hf⟩ => hf.elim)
    (fun _ hx => hx)) ?_
  rintro (_ | pgtbl) s₂ ⟨m₂, rfl, hr⟩
  · exact Sat.abort True.intro
  obtain ⟨l₂, rfl, hown₂, hsame₂, hview₂⟩ := hr
  have hsub : ∀ g ∈ ({g | g ∈ pgtbl :: l₂} : Set Frame), g ∈ ({g | g ∈ page :: pgtbl :: l₂} : Set Frame) :=
    fun g hg => List.mem_cons_of_mem page hg
  have hout : page ∉ m₂.foot 4 UserHalf pgtbl := fun hg => hnot (hown₂.sub page hg)
  refine Sat.seq ((vm_sat (s := { s with mem := m₂ }) (E := fun _ _ => False) (Sat.expect
    (mapTo_user (hown₂.mono hsub) (by decide) hin (fun hg => hnot (List.mem_cons_of_mem _ hg)) hout)
    fun _ _ _ => True.intro)).imp (fun _ _ hq => hq) (fun _ _ ⟨_, _, hf⟩ => hf.elim)
    (fun _ hx => hx)) ?_
  rintro - s₃ ⟨m₃, rfl, l₃, hown₃, hsame₃, -, hview₃⟩
  refine Sat.seq ((vm_sat (s := { s with mem := m₃ }) (E := fun _ _ => False) hown₃.alloc).imp
    (fun _ _ hq => hq) (fun _ _ ⟨_, _, hf⟩ => hf.elim) (fun _ hx => hx)) ?_
  rintro (_ | stack) s₄ ⟨m₄, rfl, hr⟩
  · exact Sat.abort True.intro
  obtain ⟨l₄, hf⟩ := hr
  have himage : (s.procs initProc).image = none := by
    rw [h.procs]
    rfl
  have hall : Same {g | g ∈ page :: pgtbl :: l₂} s.mem m₄ :=
    ((hsame₁.trans (hsame₂.mono hsub)).trans hsame₃).trans hf.same
  -- page 0, and nothing else
  have hnew : Writable m₄ pgtbl := by
    intro v hv e he
    rw [entryFor_congr hf.nodes hv, hview₃ v hv] at he
    split at he
    · cases he
      rw [isWrite_entry]
      decide
    · cases (hview₂ v hv).symm.trans he
  obtain ⟨⟨l', howns, hfull'⟩, hwrite'⟩ := hown.first (p := initProc) (G := True) (W := True) himage
    (by decide : pageSize ≤ userEnd) hf.own ⟨hf.mem, hf.notMem, hf.out⟩ hall hnew
  exact Sat.last_modify ⟨⟨l', howns, hfull' True.intro hfull⟩, hwrite' True.intro hwrite⟩

/-- The kernel starts with these pages. -/
def Sys.boot (pages : List Frame) : Sys :=
  ⟨Mem.freePages ⟨fun _ => Page.zero, none, 0⟩ pages, fun _ => Proc.new, 0⟩

theorem Sys.boot_ok {pages : List Frame} (h : pages.Nodup) : (Sys.boot pages).Boot := by
  have hnil : Pool Set.univ ⟨fun _ => Page.zero, none, 0⟩ [] :=
    ⟨rfl, List.nodup_nil, fun _ _ => Set.mem_univ _⟩
  obtain ⟨l, hpool⟩ := hnil.freePages (fun _ _ => Set.mem_univ _) h fun _ _ => List.not_mem_nil
  exact ⟨⟨l, hpool.chain, hpool.nodup⟩, fun _ => rfl⟩

/-- No allocation is refused as long as there are pages. -/
def Env.willing : Env := ⟨fun _ => false⟩

/-- The kernel with its first process. -/
def Sys.start (pages : List Frame) : Option Sys :=
  match procInit Page.zero .willing (Sys.boot pages) with
  | .ok _ s => some s
  | _ => none

theorem Sys.start_init {pages : List Frame} (h : pages.Nodup) (hs : Sys.start pages = some s) :
    s.Init := by
  refine ⟨Sys.boot pages, .willing, Page.zero, Sys.boot_ok h, ?_⟩
  unfold Sys.start at hs
  split at hs
  · next hok => exact Option.some.inj hs ▸ hok
  · cases hs

/-! ## Every call -/

/-- No `sbrk` of a process with a stack that could give back pages of it. -/
def Sys.Spares (s : Sys) (a : Event) : Prop :=
  ∀ delta ∈ a.call.delta, (s.procs a.proc).execed = true → Spared (s.procs a.proc).size delta

instance (s : Sys) (a : Event) : Decidable (s.Spares a) :=
  Option.decidableForallMem a.call.delta

/-- No segment for which pages are mapped that may not be written. -/
def Sys.Shields (s : Sys) (a : Event) : Prop :=
  ∀ ph ∈ a.call.segment, ∀ im ∈ (s.procs a.proc).image, ph.Shields im.size

instance (s : Sys) (a : Event) : Decidable (s.Shields a) :=
  have : ∀ ph : ProgramHeader, Decidable (∀ im ∈ (s.procs a.proc).image, ph.Shields im.size) := fun _ =>
    Option.decidableForallMem (s.procs a.proc).image
  Option.decidableForallMem a.call.segment

theorem Owns.act (h : Owns s l) {a : Event} (hr : s.Ready a) :
    Sat (act a.proc a.call a.env s) (fun _ s' => Keeps s (s.Spares a) (s.Shields a) s')
      (fun _ s' => Keeps s (s.Spares a) (s.Shields a) s') (fun _ => True) := by
  obtain ⟨p, call, env⟩ := a
  obtain ⟨hlive, hexec, hwait⟩ := hr
  have weaken : ∀ {s' : Sys} {G W : Prop}, Keeps s G W s' → (s.Spares ⟨p, call, env⟩ → G) →
      (s.Shields ⟨p, call, env⟩ → W) →
      Keeps s (s.Spares ⟨p, call, env⟩) (s.Shields ⟨p, call, env⟩) s' := by
    rintro s' G W ⟨⟨l', hown, hfull⟩, hwrite⟩ hG hW
    exact ⟨⟨l', hown, fun hs => hfull (hG hs)⟩, fun hs => hwrite (hW hs)⟩
  have idle : call.inExec = false → call.isPush = false → (s.procs p).image = none := by
    intro hin hpush
    rcases hexec with hexec | hp
    · rw [hin] at hexec
      exact Option.not_isSome_iff_eq_none.mp (by rw [hexec]; exact Bool.false_ne_true)
    · cases hpush.symm.trans hp
  have hall : ∀ {G W : Prop} {o : Outcome Sys Unit}, (s.Spares ⟨p, call, env⟩ → G) →
      (s.Shields ⟨p, call, env⟩ → W) →
      Sat o (fun _ s' => Keeps s G W s') (fun _ s' => Keeps s G W s') (fun _ => True) →
      Sat o (fun _ s' => Keeps s (s.Spares ⟨p, call, env⟩) (s.Shields ⟨p, call, env⟩) s')
        (fun _ s' => Keeps s (s.Spares ⟨p, call, env⟩) (s.Shields ⟨p, call, env⟩) s')
        (fun _ => True) := fun hG hW hs =>
    hs.imp (fun _ _ hq => weaken hq hG hW) (fun _ _ hq => weaken hq hG hW) (fun _ hx => hx)
  cases call with
  | fork =>
      refine hall (G := True) (W := True) (fun _ => trivial) (fun _ => trivial) ?_
      refine Sat.seq ((fork_spec h).imp (fun _ _ hq => hq) (fun _ _ hf => hf.elim)
        (fun _ _ => trivial)) fun _ _ hq => Sat.pure hq
  | sbrk delta =>
      refine hall (W := True) (fun hs => hs delta rfl) (fun _ => trivial) ?_
      exact Sat.seq (adjsize_spec h delta) fun _ _ hq => Sat.pure hq
  | exit =>
      exact hall (W := True) (fun _ => trivial) (fun _ => trivial) (exit_spec h (idle rfl rfl))
  | wait q =>
      exact hall (W := True) (fun _ => trivial) (fun _ => trivial) (reap_spec h (hwait q rfl))
  | execBegin args =>
      exact hall (W := True) (fun _ => trivial) (fun _ => trivial) (execBegin_spec h hlive args)
  | execLoad ph readi =>
      exact hall (fun _ => trivial) (fun hs => hs ph rfl) (execLoad_spec h ph readi)
  | execFail =>
      refine hall (G := True) (W := True) (fun _ => trivial) (fun _ => trivial) ?_
      cases him : (s.procs p).image with
      | none =>
          refine Sat.gets ?_
          dsimp only
          rw [him]
          exact Sat.abort trivial
      | some im =>
          exact dropImage_spec h him ⟨l, h.ownTable (Sys.root_of_image him), Same.refl⟩
  | execFinish => exact hall (W := True) (fun _ => trivial) (fun _ => trivial) (execFinish_spec h)
  | store va page =>
      exact hall (W := True) (fun _ => trivial) (fun _ => trivial) (storeUser_spec h va page)
  | push page =>
      exact hall (W := True) (fun _ => trivial) (fun _ => trivial) (pushStack_spec h page)

theorem Owns.step (h : Owns s l) {a : Event} (hs : s.Step a s') :
    Keeps s (s.Spares a) (s.Shields a) s' := by
  obtain ⟨hr, hok | ⟨e, herr⟩⟩ := hs
  · exact (h.act hr).of_ok hok
  · exact (h.act hr).of_err herr

theorem Sys.Init.owns (h : s.Init) : (∃ l, Owns s l ∧ Full s) ∧ s.Writable := by
  obtain ⟨s₀, env, code, hboot, hrun⟩ := h
  exact (procInit_spec (E := fun _ _ => True) hboot code).of_ok hrun

/-- The pages of every reachable state are divided. -/
theorem owns_of_reach (h : Reach Sys.Init Sys.Step s) : ∃ l, Owns s l := by
  refine h.invariant (I := fun s => ∃ l, Owns s l) ?_ ?_
  · intro s hs
    obtain ⟨⟨l, hown, -⟩, -⟩ := hs.owns
    exact ⟨l, hown⟩
  · rintro s a s' ⟨l, hown⟩ hs
    obtain ⟨l', hown', -⟩ := (hown.step hs).kept
    exact ⟨l', hown'⟩

/-- And the memory of processes is complete, as long as the stack is spared. -/
theorem full_of_reach (h : Reach Sys.Init (Guarded Sys.Spares Sys.Step) s) :
    (∃ l, Owns s l) ∧ Full s := by
  refine h.invariant (I := fun s => (∃ l, Owns s l) ∧ Full s) ?_ ?_
  · intro s hs
    obtain ⟨⟨l, hown, hfull⟩, -⟩ := hs.owns
    exact ⟨⟨l, hown⟩, hfull⟩
  · rintro s a s' ⟨⟨l, hown⟩, hfull⟩ ⟨hguard, hs⟩
    obtain ⟨l', hown', hkeep⟩ := (hown.step hs).kept
    exact ⟨⟨l', hown'⟩, hkeep hguard hfull⟩

/-- And all pages may be written, as long as no segment is read-only. -/
theorem writable_of_reach (h : Reach Sys.Init (Guarded Sys.Shields Sys.Step) s) :
    (∃ l, Owns s l) ∧ s.Writable := by
  refine h.invariant (I := fun s => (∃ l, Owns s l) ∧ s.Writable) ?_ ?_
  · intro s hs
    obtain ⟨⟨l, hown, -⟩, hwrite⟩ := hs.owns
    exact ⟨⟨l, hown⟩, hwrite⟩
  · rintro s a s' ⟨⟨l, hown⟩, hwrite⟩ ⟨hguard, hs⟩
    obtain ⟨⟨l', hown', -⟩, hkeep⟩ := hown.step hs
    exact ⟨⟨l', hown'⟩, hkeep hguard hwrite⟩

/-! ## The first process of a small machine -/

/-- No `sbrk` that could give back pages of a stack, and no segment for which
pages are mapped read-only. -/
def Sys.Lendable (s : Sys) (a : Event) : Prop := s.Spares a ∧ s.Shields a

instance (s : Sys) (a : Event) : Decidable (s.Lendable a) := inferInstanceAs (Decidable (_ ∧ _))

/-- A call of the first process that is not refused pages. -/
def Event.ofInit (call : Call) : Event := ⟨initProc, call, .willing⟩

/-- The pages a small machine starts with. -/
abbrev fewPages : List Frame := (List.range 20).map (BitVec.ofNat 35)

/-- What is seen of the first process after these calls of its own: whether it
has completed an `exec`, its size, and whether its first page may be written. -/
def seenAfter (next : Sys → Event → Option Sys) (calls : List Call) :
    Option (Bool × Nat × Option Bool) :=
  (Sys.start fewPages).bind fun s => (replay next s (calls.map Event.ofInit)).map fun s =>
    ((s.procs initProc).execed, (s.procs initProc).size,
      (s.procs initProc).pgtbl.bind fun root => (s.mem.entryFor root 0).map Entry.isWrite)

theorem seenAfter_reach {next : Sys → Event → Option Sys} {step : Sys → Event → Sys → Prop}
    (hnext : ∀ s a s', next s a = some s' → step s a s') {calls : List Call} {size : Nat} {w : Bool}
    (hrun : seenAfter next calls = some (true, size, some w)) :
    ∃ s root e, Reach Sys.Init step s ∧ (s.procs initProc).execed = true ∧
      (s.procs initProc).pgtbl = some root ∧ (s.procs initProc).size = size ∧
      s.mem.entryFor root 0 = some e ∧ e.isWrite = w := by
  obtain ⟨s₀, hs₀, hrun⟩ := Option.bind_eq_some_iff.mp hrun
  obtain ⟨s, hs, hall⟩ := Option.map_eq_some_iff.mp hrun
  simp only [Prod.mk.injEq] at hall
  obtain ⟨hexec, hsize, hpage⟩ := hall
  obtain ⟨root, hroot, hpage⟩ := Option.bind_eq_some_iff.mp hpage
  obtain ⟨e, he, hw⟩ := Option.map_eq_some_iff.mp hpage
  have hinit : Reach Sys.Init step s₀ := .init (Sys.start_init (by decide) hs₀)
  exact ⟨s, root, e, hinit.replay hnext hs, hexec, hroot, hsize, he, hw⟩

/-- A program without segments that gets a page of heap. -/
theorem grown_run : ∃ s root e, Reach Sys.Init (Guarded Sys.Lendable Sys.Step) s ∧
    (s.procs initProc).execed = true ∧ (s.procs initProc).pgtbl = some root ∧
    (s.procs initProc).size = pageSize ∧ s.mem.entryFor root 0 = some e := by
  have hrun : seenAfter (guarded Sys.Lendable Sys.next) [.execBegin [], .execFinish, .sbrk 4096] =
      some (true, pageSize, some true) := by decide +kernel
  obtain ⟨s, root, e, hreach, hexec, hroot, hsize, he, -⟩ :=
    seenAfter_reach (guarded_step Sys.next_step) hrun
  exact ⟨s, root, e, hreach, hexec, hroot, hsize, he⟩

end Rxv64.Vm
