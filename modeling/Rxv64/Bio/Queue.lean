import Rxv64.Bio.Cache
import Rxv64.Lib.Monitor

/-!
# Bio.Queue — the disk request queue

`rdwr`, `start` and `interrupt` of `kernel/src/sd.rs` with `enqueue` and
`dequeue` of `kernel/src/bio.rs`. The lock of `QUEUE` is the lock of a
monitor whose data are the head of the chain, the links `qnext` and the
fields of the buffers that the driver reads. A process sleeps on the channel
of its buffer; the interrupt runs in a context of its own.
-/

namespace Rxv64.Bio

open Dlist Monitor Runs

/-- What `start` asks of the drive: the page of `buf`, to or from `offset`. -/
structure Command where
  buf : BufIdx
  offset : UInt64
  write : Bool
  deriving DecidableEq

/-- `QUEUE` and the buffers. `issued` is what the drive has been given.
`arrived` and `retired` are not in the source: the requests in the order in
which their callers came to have the lock, and how many of them the interrupt
has taken from the chain. -/
structure Queue where
  head : Option BufIdx
  qnext : BufIdx → Option BufIdx
  valid : BufIdx → Bool
  dirty : BufIdx → Bool
  blockno : BufIdx → BlockNo
  issued : List Command
  arrived : List Command
  retired : Nat

namespace Queue

/-- The flags of the buffer are `VALID` and nothing else. -/
def clean (d : Queue) (k : BufIdx) : Bool := d.valid k && !d.dirty k

def command (d : Queue) (k : BufIdx) : Command :=
  ⟨k, d.blockno k * UInt64.ofNat bsize, d.dirty k⟩

def start (d : Queue) (k : BufIdx) : Queue := { d with issued := d.issued ++ [d.command k] }

/-- `bio::enqueue`: the new head and links; `none` when the walk to the end of
the chain does not end. -/
def enqueue (qnext : BufIdx → Option BufIdx) (head : Option BufIdx) (k : BufIdx) :
    Option (Option BufIdx × (BufIdx → Option BufIdx)) :=
  let qnext := Function.update qnext k none
  match head with
  | none => some (some k, qnext)
  | some h =>
      match search qnext (fun a => (qnext a).isNone) nbuf (some h) with
      | some (some last) => some (some h, Function.update qnext last (some k))
      | _ => none

/-- The request is the next in line, and the drive gets it at once if there is
none before it. -/
def arrive (d : Queue) (k : BufIdx) : Queue :=
  { (if d.head.isNone then d.start k else d) with arrived := d.arrived ++ [d.command k] }

/-- `bio::dequeue` and `set_flags(VALID)`. -/
def dequeue (d : Queue) (k : BufIdx) : Queue :=
  { d with
    head := d.qnext k
    valid := Function.update d.valid k true
    dirty := Function.update d.dirty k false
    retired := d.retired + 1 }

/-- `start` for the new head of the chain. -/
def startNext (d : Queue) : Option BufIdx → Queue
  | none => d
  | some k => d.start k

end Queue

inductive SdCall where
  | rdwr (k : BufIdx)
  | interrupt

/-- Points in `rdwr` and `interrupt`; `n` is the number of the request. -/
inductive SdPoint where
  /-- `if queue.is_none()` -/
  | rdwr (k : BufIdx)
  | enqueue (k : BufIdx) (n : Nat)
  /-- the loop around `sleep` -/
  | wait (k : BufIdx) (n : Nat)
  | dequeue
  | wake (k : BufIdx) (head : Option BufIdx)
  | startNext (head : Option BufIdx)
  | eoi

inductive SdAnswer where
  | rdwr (k : BufIdx) (n : Nat)
  | interrupt

def sdNext : SdPoint → Queue → Monitor.Move Queue SdPoint BufIdx SdAnswer
  | .rdwr k, d => .go (d.arrive k) (.enqueue k d.arrived.length)
  | .enqueue k n, d =>
      match Queue.enqueue d.qnext d.head k with
      | some (head, qnext) => .go { d with head, qnext } (.wait k n)
      | none => .panic
  | .wait k n, d => if d.clean k then .done d (.rdwr k n) else .sleep k (.wait k n)
  | .dequeue, d =>
      match d.head with
      | none => .done d .interrupt
      | some k => .go (d.dequeue k) (.wake k (d.qnext k))
  | .wake k head, _ => .wake k (.startNext head)
  | .startNext head, d => .go (d.startNext head) .eoi
  | .eoi, d => .done d .interrupt

section System

variable {ι : Type}

def sdCode : Code ι SdCall Queue SdPoint BufIdx SdAnswer where
  start _ _
    | .rdwr k => .rdwr k
    | .interrupt => .dequeue
  next _ _ k d := sdNext k d

/-- The driver, who has the sleep lock of each buffer, and the interrupts: how
many completions the drive has raised and how many of them some processor has
begun to handle. -/
structure Sd (ι : Type) where
  mon : State ι SdCall Queue SdPoint BufIdx
  holder : BufIdx → Option ι
  raised : Nat
  taken : Nat

inductive SdEvent (ι : Type) where
  | rdwr (p : ι) (k : BufIdx)
  | interrupt (p : ι)
  | run (p : ι)
  | kill (p : ι)
  | wakeup (c : BufIdx)
  /-- the drive has executed a command -/
  | complete
  | acquire (p : ι) (k : BufIdx)
  | release (p : ι) (k : BufIdx)
  /-- the holder sets flags, or `bget` recycles the buffer -/
  | touch (k : BufIdx) (valid dirty : Bool) (blockno : BlockNo)

def Queue.touch (d : Queue) (k : BufIdx) (valid dirty : Bool) (blockno : BlockNo) : Queue :=
  { d with
    valid := Function.update d.valid k valid
    dirty := Function.update d.dirty k dirty
    blockno := Function.update d.blockno k blockno }

variable [DecidableEq ι]

/-- The assertions of `rdwr` are guards of the call. The drive raises one
interrupt for each command it was given, and each is handled once. -/
inductive Sd.Step (s : Sd ι) : SdEvent ι → Sd ι → Prop where
  | rdwr {p : ι} {k : BufIdx} {mon : State ι SdCall Queue SdPoint BufIdx} :
      s.holder k = some p → s.mon.data.clean k = false →
      Monitor.Step sdCode s.mon (.call p (.rdwr k)) mon → Step s (.rdwr p k) { s with mon }
  | interrupt {p : ι} {mon : State ι SdCall Queue SdPoint BufIdx} :
      s.taken < s.raised → Monitor.Step sdCode s.mon (.call p .interrupt) mon →
      Step s (.interrupt p) { s with mon, taken := s.taken + 1 }
  | run {p : ι} {mon : State ι SdCall Queue SdPoint BufIdx} :
      Monitor.Step sdCode s.mon (.run p) mon → Step s (.run p) { s with mon }
  | kill {p : ι} {mon : State ι SdCall Queue SdPoint BufIdx} :
      Monitor.Step sdCode s.mon (.kill p) mon → Step s (.kill p) { s with mon }
  | wakeup {c : BufIdx} {mon : State ι SdCall Queue SdPoint BufIdx} :
      Monitor.Step sdCode s.mon (.wakeup c) mon → Step s (.wakeup c) { s with mon }
  | complete : s.raised < s.mon.data.issued.length →
      Step s .complete { s with raised := s.raised + 1 }
  | acquire {p : ι} {k : BufIdx} : s.mon.phase p = .out → s.holder k = none →
      Step s (.acquire p k) { s with holder := Function.update s.holder k (some p) }
  | release {p : ι} {k : BufIdx} : s.mon.phase p = .out → s.holder k = some p →
      Step s (.release p k) { s with holder := Function.update s.holder k none }
  | touch {k : BufIdx} {valid dirty : Bool} {blockno : BlockNo} :
      (∀ p, s.holder k = some p → s.mon.phase p = .out) →
      Step s (.touch k valid dirty blockno)
        { s with mon := { s.mon with data := s.mon.data.touch k valid dirty blockno } }

omit [DecidableEq ι] in
/-- No request has been made; the buffers may be in any state. -/
structure Sd.Init (s : Sd ι) : Prop where
  fresh : s.mon.Fresh
  head : s.mon.data.head = none
  issued : s.mon.data.issued = []
  arrived : s.mon.data.arrived = []
  retired : s.mon.data.retired = 0
  raised : s.raised = 0
  taken : s.taken = 0

end System

/-! ## The chain -/

/-- How far the section of the lock holder has come: no further than it
began, with `k` arrived and not yet in the chain, or with the new head of the
chain not yet given to the drive. -/
inductive Stage where
  | rest
  | late (k : BufIdx)
  | early (head : Option BufIdx)

/-- Arrived and not in the chain. -/
def Stage.outside : Stage → List BufIdx
  | .late k => [k]
  | .rest | .early _ => []

/-- How many of the requests that are not retired the drive has. -/
def Stage.ahead : Stage → Nat
  | .early _ => 0
  | .rest | .late _ => 1

/-- The chain is the list `l`. -/
structure Queue.Holds (d : Queue) (l : List BufIdx) (st : Stage) : Prop where
  chain : Path d.qnext d.head l none
  nodup : (l ++ st.outside).Nodup
  pending : (d.arrived.drop d.retired).map Command.buf = l ++ st.outside
  retired : d.retired ≤ d.arrived.length
  commands : ∀ c ∈ d.arrived.drop d.retired, c = d.command c.buf
  busy : ∀ k ∈ l ++ st.outside, d.clean k = false
  issued : d.issued = d.arrived.take (d.retired + st.ahead)
  next : ∀ head, st = .early head → head = d.head

namespace Queue.Holds

variable {d : Queue} {l : List BufIdx} {st : Stage} {k : BufIdx}

theorem head_eq (h : d.Holds l st) : d.head = l.head? := by
  cases l with
  | nil => exact h.chain
  | cons a l => exact h.chain.1

theorem length_pending (h : d.Holds l st) :
    d.arrived.length = d.retired + (l ++ st.outside).length := by
  have := congrArg List.length h.pending
  rw [List.length_map, List.length_drop] at this
  have := h.retired
  omega

/-- A request of the chain is one that arrived. -/
theorem mem_of_pending (h : d.Holds l st) {n : Nat} {c : Command} (hn : d.arrived[n]? = some c)
    (hret : d.retired ≤ n) : c.buf ∈ l ++ st.outside := by
  rw [← h.pending]
  refine List.mem_map_of_mem (List.mem_iff_getElem?.mpr ⟨n - d.retired, ?_⟩)
  rw [List.getElem?_drop, Nat.add_sub_cancel' hret]
  exact hn

theorem arrive (h : d.Holds l .rest) (hk : k ∉ l) (hb : d.clean k = false) :
    (d.arrive k).Holds l (.late k) := by
  have hempty : l = [] → d.retired = d.arrived.length := by
    rintro rfl
    simpa [Stage.outside] using h.length_pending.symm
  -- the drive is asked at once only if nothing is pending
  have hfields : (d.arrive k).head = d.head ∧ (d.arrive k).qnext = d.qnext ∧
      (d.arrive k).command = d.command ∧ (d.arrive k).clean = d.clean ∧
      (d.arrive k).retired = d.retired := by
    unfold Queue.arrive
    split <;> exact ⟨rfl, rfl, rfl, rfl, rfl⟩
  obtain ⟨hhead, hnext, hcmd, hclean, hret⟩ := hfields
  have harr : (d.arrive k).arrived = d.arrived ++ [d.command k] := rfl
  have hdrop : (d.arrive k).arrived.drop (d.arrive k).retired =
      d.arrived.drop d.retired ++ [d.command k] := by
    rw [harr, hret, List.drop_append_of_le_length h.retired]
  refine ⟨?_, ?_, ?_, ?_, fun c hc => ?_, fun j hj => ?_, ?_, fun head he => by cases he⟩
  · rw [hhead, hnext]
    exact h.chain
  · have := h.nodup
    simp only [Stage.outside, List.append_nil] at this ⊢
    exact List.nodup_append.mpr ⟨this, List.nodup_singleton k,
      fun a ha b hb hab => hk (by rw [List.mem_singleton.mp hb] at hab; exact hab ▸ ha)⟩
  · rw [hdrop, List.map_append, h.pending]
    simp [Stage.outside, Queue.command]
  · rw [hret, harr, List.length_append]
    exact Nat.le_add_right_of_le h.retired
  · rw [hdrop, List.mem_append, List.mem_singleton] at hc
    rw [hcmd]
    rcases hc with hc | rfl
    · exact h.commands c hc
    · rfl
  · rw [hclean]
    rcases List.mem_append.mp hj with hj | hj
    · exact h.busy j (List.mem_append_left _ hj)
    · rw [List.mem_singleton.mp hj]
      exact hb
  · have hissued := h.issued
    rw [harr, hret]
    simp only [Stage.ahead] at hissued ⊢
    unfold Queue.arrive
    cases hl : l with
    | nil =>
        have hnone : d.head = none := by rw [h.head_eq, hl]; rfl
        rw [hnone, Option.isNone_none, if_pos rfl, hempty hl]
        rw [hempty hl, List.take_of_length_le (Nat.le_succ _)] at hissued
        rw [List.take_of_length_le (by simp)]
        show d.issued ++ _ = _
        rw [hissued]
    | cons a l' =>
        have hsome : d.head = some a := by rw [h.head_eq, hl]; rfl
        have hlen := h.length_pending
        rw [hl] at hlen
        simp only [Stage.outside, List.append_nil, List.length_cons] at hlen
        rw [hsome, if_neg (by simp), List.take_append_of_le_length (by omega)]
        exact hissued

/-- The walk of `enqueue` ends, and the new request is behind the others. -/
theorem enqueue (h : d.Holds l (.late k)) :
    ∃ head qnext, Queue.enqueue d.qnext d.head k = some (head, qnext) ∧
      ({ d with head, qnext } : Queue).Holds (l ++ [k]) .rest := by
  have hnd : (l ++ [k]).Nodup := h.nodup
  have hk : k ∉ l := fun hm => (List.nodup_append.mp hnd).2.2 k hm k (by simp) rfl
  have hchain : Path (Function.update d.qnext k none) d.head l none :=
    h.chain.congr fun a ha => Function.update_of_ne (fun he : a = k => hk (he ▸ ha)) ..
  obtain ⟨head, qnext, heq, hpath⟩ : ∃ head qnext,
      Queue.enqueue d.qnext d.head k = some (head, qnext) ∧ Path qnext head (l ++ [k]) none := by
    rcases List.eq_nil_or_concat' l with rfl | ⟨init, a, rfl⟩
    · have hnone : d.head = none := h.head_eq
      refine ⟨some k, Function.update d.qnext k none, ?_, rfl, ?_⟩
      · rw [hnone]
        rfl
      show Function.update d.qnext k none k = none
      exact Function.update_self ..
    · have hcard : (init ++ [a]).length ≤ nbuf := by
        have := (List.nodup_append.mp hnd).1.length_le_card
        rwa [Fintype.card_fin] at this
      obtain ⟨b, -, hb⟩ := hchain.start_mem (by simp)
      have hsearch : search _ (fun b => (Function.update d.qnext k none b).isNone) _ _ = _ :=
        search_path hchain hcard
      rw [hchain.find_last] at hsearch
      refine ⟨some b, Function.update (Function.update d.qnext k none) a (some k), ?_, ?_⟩
      · rw [hb] at hsearch
        simp only [Queue.enqueue, hb, hsearch]
      · have := h.chain.snoc (List.nodup_append.mp hnd).1 hk
        rwa [hb] at this
  refine ⟨head, qnext, heq, hpath, ?_, ?_, h.retired, h.commands, fun j hj => ?_, h.issued,
    fun head he => by cases he⟩
  · simpa [Stage.outside] using hnd
  · simpa [Stage.outside] using h.pending
  · exact h.busy j (by simpa [Stage.outside] using hj)

theorem dequeue {a : BufIdx} (h : d.Holds (a :: l) .rest) :
    (d.dequeue a).Holds l (.early (d.qnext a)) := by
  have hnd : (a :: l).Nodup := by simpa [Stage.outside] using h.nodup
  have ha : a ∉ l := (List.nodup_cons.mp hnd).1
  have hpend : (d.arrived.drop d.retired).map Command.buf = a :: l := by
    simpa [Stage.outside] using h.pending
  have hlen := h.length_pending
  simp only [Stage.outside, List.append_nil, List.length_cons] at hlen
  have hmap : (d.arrived.drop (d.retired + 1)).map Command.buf = l := by
    rw [← List.drop_drop, List.map_drop, hpend]
    rfl
  refine ⟨h.chain.2, ?_, ?_, ?_, fun c hc => ?_, fun j hj => ?_, ?_, fun head he => ?_⟩
  · simpa [Stage.outside] using (List.nodup_cons.mp hnd).2
  · simpa [Stage.outside, Queue.dequeue] using hmap
  · show d.retired + 1 ≤ d.arrived.length
    omega
  · have hc' : c ∈ d.arrived.drop (d.retired + 1) := hc
    have hne : c.buf ≠ a := fun he => ha (he ▸ hmap ▸ List.mem_map_of_mem hc')
    have hold := h.commands c (by rw [← List.drop_drop] at hc'; exact List.mem_of_mem_drop hc')
    rw [hold]
    simp [Queue.command, Queue.dequeue, Function.update_of_ne hne]
  · have hj : j ∈ l := by simpa [Stage.outside] using hj
    have hne : j ≠ a := fun he => ha (he ▸ hj)
    have := h.busy j (by simp [hj])
    simpa [Queue.clean, Queue.dequeue, Function.update_of_ne hne] using this
  · exact h.issued
  · cases he
    rfl

theorem startNext {head : Option BufIdx} (h : d.Holds l (.early head)) :
    (d.startNext head).Holds l .rest := by
  obtain rfl := h.next head rfl
  have hpend : (d.arrived.drop d.retired).map Command.buf = l := by
    simpa [Stage.outside] using h.pending
  have hissued : d.issued = d.arrived.take d.retired := h.issued
  cases l with
  | nil =>
      have hnone : d.head = none := h.head_eq
      have hlen : d.arrived.length = d.retired := by simpa [Stage.outside] using h.length_pending
      rw [hnone]
      refine ⟨h.chain, h.nodup, h.pending, h.retired, h.commands, h.busy, ?_,
        fun head he => by cases he⟩
      show d.issued = d.arrived.take (d.retired + 1)
      rw [hissued, List.take_of_length_le (by omega), List.take_of_length_le (by omega)]
  | cons a l =>
      have hsome : d.head = some a := h.head_eq
      rw [hsome]
      refine ⟨h.chain, h.nodup, h.pending, h.retired, h.commands, h.busy, ?_,
        fun head he => by cases he⟩
      -- the first request that is not retired is that of the head
      have hlt : d.retired < d.arrived.length := by
        have := h.length_pending
        simp only [Stage.outside, List.append_nil, List.length_cons] at this
        omega
      have hdrop := List.drop_eq_getElem_cons hlt
      have hfirst : d.arrived[d.retired] = d.command a := by
        have hmem : d.arrived[d.retired] ∈ d.arrived.drop d.retired := by
          rw [hdrop]
          exact List.mem_cons_self
        have hbuf : d.arrived[d.retired].buf = a := by
          rw [hdrop, List.map_cons] at hpend
          exact (List.cons.inj hpend).1
        rw [h.commands _ hmem, hbuf]
      show d.issued ++ [d.command a] = d.arrived.take (d.retired + 1)
      rw [hissued, List.take_succ_eq_append_getElem hlt, hfirst]

/-- The drive works on the head of the chain. -/
theorem inFlight (h : d.Holds l .rest) :
    d.issued.drop d.retired = (d.head.map d.command).toList := by
  have hpend : (d.arrived.drop d.retired).map Command.buf = l := by
    simpa [Stage.outside] using h.pending
  have hdrop : d.issued.drop d.retired = (d.arrived.drop d.retired).take 1 := by
    rw [h.issued, List.drop_take, Stage.ahead, Nat.add_sub_cancel_left]
  rw [hdrop, h.head_eq]
  cases hl : d.arrived.drop d.retired with
  | nil =>
      rw [hl] at hpend
      subst hpend
      rfl
  | cons c cs =>
      have hc : c = d.command c.buf := h.commands c (by rw [hl]; exact List.mem_cons_self)
      rw [hl] at hpend
      subst hpend
      simp [← hc]

/-- The fields of a buffer without a request may change. -/
theorem touch (h : d.Holds l st) (hk : k ∉ l ++ st.outside) (valid dirty : Bool)
    (blockno : BlockNo) : (d.touch k valid dirty blockno).Holds l st := by
  refine ⟨h.chain, h.nodup, h.pending, h.retired, fun c hc => ?_, fun j hj => ?_, h.issued,
    h.next⟩
  · have hmem : c.buf ∈ l ++ st.outside := h.pending ▸ List.mem_map_of_mem hc
    have hne : c.buf ≠ k := fun he => hk (he ▸ hmem)
    rw [h.commands c hc]
    simp [Queue.command, Queue.touch, Function.update_of_ne hne]
  · have hne : j ≠ k := fun he => hk (he ▸ hj)
    simpa [Queue.clean, Queue.touch, Function.update_of_ne hne] using h.busy j hj

end Queue.Holds

/-! ## The driver -/

/-- What a step of the code is. -/
inductive SdMove (d : Queue) : SdPoint → Monitor.Move Queue SdPoint BufIdx SdAnswer → Prop where
  | arrive (k : BufIdx) : SdMove d (.rdwr k) (.go (d.arrive k) (.enqueue k d.arrived.length))
  | enqueue {k : BufIdx} {head : Option BufIdx} {qnext : BufIdx → Option BufIdx} (n : Nat) :
      Queue.enqueue d.qnext d.head k = some (head, qnext) →
      SdMove d (.enqueue k n) (.go { d with head, qnext } (.wait k n))
  | endless {k : BufIdx} (n : Nat) : Queue.enqueue d.qnext d.head k = none →
      SdMove d (.enqueue k n) .panic
  | returned {k : BufIdx} (n : Nat) : d.clean k = true →
      SdMove d (.wait k n) (.done d (.rdwr k n))
  | sleep {k : BufIdx} (n : Nat) : d.clean k = false →
      SdMove d (.wait k n) (.sleep k (.wait k n))
  | spurious : d.head = none → SdMove d .dequeue (.done d .interrupt)
  | dequeue {k : BufIdx} : d.head = some k →
      SdMove d .dequeue (.go (d.dequeue k) (.wake k (d.qnext k)))
  | wake (k : BufIdx) (head : Option BufIdx) : SdMove d (.wake k head) (.wake k (.startNext head))
  | startNext (head : Option BufIdx) : SdMove d (.startNext head) (.go (d.startNext head) .eoi)
  | eoi : SdMove d .eoi (.done d .interrupt)

theorem SdMove.of_next {d : Queue} {k : SdPoint}
    {m : Monitor.Move Queue SdPoint BufIdx SdAnswer} (h : sdNext k d = m) : SdMove d k m := by
  subst h
  cases k with
  | rdwr k => exact .arrive k
  | enqueue k n =>
      rw [sdNext]
      split
      · next heq => exact .enqueue n heq
      · next heq => exact .endless n heq
  | wait k n =>
      rw [sdNext]
      split
      · next hc => exact .returned n hc
      · next hc => exact .sleep n (by simpa using hc)
  | dequeue =>
      rw [sdNext]
      split
      · next hh => exact .spurious hh
      · next hh => exact .dequeue hh
  | wake k head => exact .wake k head
  | startNext head => exact .startNext head
  | eoi => exact .eoi

/-- The stage of a section at this point. -/
def SdPoint.stage : SdPoint → Stage
  | .enqueue k _ => .late k
  | .wake _ head | .startNext head => .early head
  | .rdwr _ | .wait _ _ | .dequeue | .eoi => .rest

/-- The buffer whose request the caller has made and not yet found done. -/
def SdPoint.pends : SdPoint → Option BufIdx
  | .enqueue k _ | .wait k _ => some k
  | _ => none

section Invariant

variable {ι : Type}

/-- What a caller knows at this point. -/
def Fits (d : Queue) (holder : BufIdx → Option ι) (p : ι) : SdPoint → Prop
  | .rdwr k => holder k = some p ∧ d.clean k = false
  | .enqueue k n | .wait k n => holder k = some p ∧ ∃ c, d.arrived[n]? = some c ∧ c.buf = k
  | _ => True

def stageOf (mon : State ι SdCall Queue SdPoint BufIdx) : Stage :=
  match mon.lock with
  | none => .rest
  | some p => ((mon.phase p).spot.map SdPoint.stage).getD .rest

/-- The chain is `l`, every request of it has its caller, and at most one
interrupt is about to take its head. -/
structure Sd.Inv (s : Sd ι) (l : List BufIdx) : Prop where
  sound : Sound (fun _ => True) (fun _ _ _ => True) (fun _ _ => True)
    (fun _ _ => False) s.mon
  entry : ∀ p k, (s.mon.phase p).resumes = some k → k.stage = .rest
  holds : s.mon.data.Holds l (stageOf s.mon)
  fits : ∀ p k, (s.mon.phase p).spot = some k → Fits s.mon.data s.holder p k
  caller : ∀ k ∈ l ++ (stageOf s.mon).outside,
    ∃ p pt, (s.mon.phase p).spot = some pt ∧ pt.pends = some k
  handler : ∀ p q, (s.mon.phase p).spot = some .dequeue → (s.mon.phase q).spot = some .dequeue →
    p = q
  handling : ∀ p, (s.mon.phase p).spot = some .dequeue → s.taken = s.mon.data.retired + 1
  idle : (∀ p, (s.mon.phase p).spot ≠ some .dequeue) → s.taken = s.mon.data.retired
  taken : s.taken ≤ s.raised
  raised : s.raised ≤ s.mon.data.issued.length

variable {s s' : Sd ι} {l : List BufIdx}

theorem stageOf_locked {mon : State ι SdCall Queue SdPoint BufIdx} {p : ι} {pt : SdPoint}
    (hl : mon.lock = some p) (hp : (mon.phase p).spot = some pt) : stageOf mon = pt.stage := by
  simp only [stageOf, hl, hp, Option.map_some, Option.getD_some]

theorem stageOf_free {mon : State ι SdCall Queue SdPoint BufIdx} (hl : mon.lock = none) :
    stageOf mon = .rest := by
  simp only [stageOf, hl]

theorem stageOf_congr {mon mon' : State ι SdCall Queue SdPoint BufIdx} (hl : mon'.lock = mon.lock)
    (hspot : ∀ q, (mon'.phase q).spot = (mon.phase q).spot) : stageOf mon' = stageOf mon := by
  simp only [stageOf, hl, hspot]

/-- The sleep lock: two callers on one buffer are one. -/
theorem Fits.unique {d : Queue} {holder : BufIdx → Option ι} {p q : ι} {pt pt' : SdPoint}
    {k : BufIdx} (hp : Fits d holder p pt) (hq : Fits d holder q pt') (hk : pt = .rdwr k)
    (hk' : pt'.pends = some k) : p = q := by
  subst hk
  have hholder : holder k = some q := by
    cases pt' with
    | enqueue k' n =>
        cases hk'
        exact hq.1
    | wait k' n =>
        cases hk'
        exact hq.1
    | _ => cases hk'
  exact Option.some.inj (hp.1.symm.trans hholder)

/-- A change of the sleep locks that takes none from the caller. -/
theorem Fits.hold {d : Queue} {holder holder' : BufIdx → Option ι} {p : ι} {pt : SdPoint}
    (h : Fits d holder p pt) (hh : ∀ k, holder k = some p → holder' k = some p) :
    Fits d holder' p pt := by
  cases pt with
  | rdwr k => exact ⟨hh k h.1, h.2⟩
  | enqueue k n => exact ⟨hh k h.1, h.2⟩
  | wait k n => exact ⟨hh k h.1, h.2⟩
  | _ => trivial

/-- A buffer whose caller has not come to the queue has no request there. -/
theorem Sd.Inv.rdwr_not_mem (h : s.Inv l) {p : ι} {k : BufIdx}
    (hp : (s.mon.phase p).spot = some (.rdwr k)) : k ∉ l ++ (stageOf s.mon).outside := by
  intro hk
  obtain ⟨q, pt, hq, hpt⟩ := h.caller k hk
  obtain rfl := (h.fits p _ hp).unique (h.fits q pt hq) rfl hpt
  rw [hp] at hq
  cases hq
  cases hpt

/-- A buffer whose holder is in no call has none either. -/
theorem Sd.Inv.held_not_mem (h : s.Inv l) {k : BufIdx}
    (hk : ∀ p, s.holder k = some p → s.mon.phase p = .out) :
    k ∉ l ++ (stageOf s.mon).outside := by
  intro hm
  obtain ⟨q, pt, hq, hpt⟩ := h.caller k hm
  have hholder : s.holder k = some q := by
    have := h.fits q pt hq
    cases pt with
    | enqueue k' n =>
        cases hpt
        exact this.1
    | wait k' n =>
        cases hpt
        exact this.1
    | _ => cases hpt
  rw [hk q hholder] at hq
  cases hq

/-- Data, callers and stage are as before. -/
theorem Sd.Inv.frame (h : s.Inv l) {mon : State ι SdCall Queue SdPoint BufIdx}
    (hs : Sound (fun _ => True) (fun _ _ _ => True) (fun _ _ => True) (fun _ _ => False) mon)
    (hd : mon.data = s.mon.data) (hspot : ∀ q, (mon.phase q).spot = (s.mon.phase q).spot)
    (hentry : ∀ q k, (mon.phase q).resumes = some k → k.stage = .rest)
    (hstage : stageOf mon = stageOf s.mon) : Sd.Inv { s with mon } l where
  sound := hs
  entry := hentry
  holds := by
    show mon.data.Holds l (stageOf mon)
    rw [hd, hstage]
    exact h.holds
  fits := by
    intro q k hk
    show Fits mon.data s.holder q k
    rw [hspot q] at hk
    rw [hd]
    exact h.fits q k hk
  caller := by
    intro k hk
    rw [hstage] at hk
    obtain ⟨q, pt, hq, hpt⟩ := h.caller k hk
    exact ⟨q, pt, (hspot q).trans hq, hpt⟩
  handler := fun q r hq hr => h.handler q r ((hspot q).symm.trans hq) ((hspot r).symm.trans hr)
  handling := by
    intro q hq
    show s.taken = mon.data.retired + 1
    rw [hd]
    exact h.handling q ((hspot q).symm.trans hq)
  idle := by
    intro hall
    show s.taken = mon.data.retired
    rw [hd]
    exact h.idle fun q hq => hall q ((hspot q).trans hq)
  taken := h.taken
  raised := by
    show s.raised ≤ mon.data.issued.length
    rw [hd]
    exact h.raised

variable [DecidableEq ι]

/-- The lock holder goes from one point of its section to the next, or
leaves. -/
theorem Sd.Inv.own (h : s.Inv l) {p : ι} {pt : SdPoint} {ph' : Phase SdPoint BufIdx}
    {mon : State ι SdCall Queue SdPoint BufIdx} {l' : List BufIdx}
    (hs : Sound (fun _ => True) (fun _ _ _ => True) (fun _ _ => True) (fun _ _ => False) mon)
    (hp : (s.mon.phase p).spot = some pt) (hphase : mon.phase = Function.update s.mon.phase p ph')
    (hentry : ph'.resumes = none) (hholds : mon.data.Holds l' (stageOf mon))
    (harr : s.mon.data.arrived <+: mon.data.arrived)
    (hclean : ∀ q k, q ≠ p → (s.mon.phase q).spot = some (.rdwr k) → mon.data.clean k = false)
    (hfit : ∀ k, ph'.spot = some k → Fits mon.data s.holder p k ∧ k ≠ .dequeue)
    (hcaller : ∀ k ∈ l' ++ (stageOf mon).outside,
      (∃ pt', ph'.spot = some pt' ∧ pt'.pends = some k) ∨
      (k ∈ l ++ (stageOf s.mon).outside ∧ pt.pends ≠ some k))
    (hret : pt ≠ .dequeue → mon.data.retired = s.mon.data.retired)
    (hdeq : pt = .dequeue → mon.data.retired = s.mon.data.retired + 1)
    (hissued : s.mon.data.issued.length ≤ mon.data.issued.length) : Sd.Inv { s with mon } l' := by
  have hself : mon.phase p = ph' := by rw [hphase, Function.update_self]
  have hother : ∀ q, q ≠ p → mon.phase q = s.mon.phase q := fun q hq => by
    rw [hphase, Function.update_of_ne hq]
  -- a handler at its start is one that was there, and not `p`
  have hold : ∀ q, (mon.phase q).spot = some .dequeue →
      q ≠ p ∧ (s.mon.phase q).spot = some .dequeue := by
    intro q hq
    have hqp : q ≠ p := by
      rintro rfl
      rw [hself] at hq
      exact (hfit _ hq).2 rfl
    exact ⟨hqp, by rwa [hother q hqp] at hq⟩
  refine ⟨hs, fun q k hk => ?_, hholds, fun q k hk => ?_, fun k hk => ?_, fun q r hq hr => ?_,
    fun q hq => ?_, fun hall => ?_, h.taken, h.raised.trans hissued⟩
  · by_cases hqp : q = p
    · subst hqp
      rw [show mon.phase q = ph' from hself, hentry] at hk
      cases hk
    · rw [show mon.phase q = _ from hother q hqp] at hk
      exact h.entry q k hk
  · show Fits mon.data s.holder q k
    by_cases hqp : q = p
    · subst hqp
      rw [show mon.phase q = ph' from hself] at hk
      exact (hfit k hk).1
    · rw [show mon.phase q = _ from hother q hqp] at hk
      have hfits := h.fits q k hk
      have hgrow : ∀ (n : Nat) (c : Command), s.mon.data.arrived[n]? = some c →
          mon.data.arrived[n]? = some c := by
        intro n c hc
        obtain ⟨rest, hrest⟩ := harr
        rw [← hrest, List.getElem?_append_left (List.getElem?_eq_some_iff.mp hc).1]
        exact hc
      cases k with
      | rdwr k => exact ⟨hfits.1, hclean q k hqp hk⟩
      | enqueue k n => exact ⟨hfits.1, hfits.2.imp fun c hc => ⟨hgrow n c hc.1, hc.2⟩⟩
      | wait k n => exact ⟨hfits.1, hfits.2.imp fun c hc => ⟨hgrow n c hc.1, hc.2⟩⟩
      | _ => trivial
  · show ∃ q pt, (mon.phase q).spot = some pt ∧ pt.pends = some k
    rcases hcaller k hk with ⟨pt', hpt', hk'⟩ | ⟨hmem, hne⟩
    · exact ⟨p, pt', by rw [hself]; exact hpt', hk'⟩
    · obtain ⟨q, pt₁, hq, hpt₁⟩ := h.caller k hmem
      have hqp : q ≠ p := by
        rintro rfl
        rw [hp] at hq
        cases hq
        exact hne hpt₁
      exact ⟨q, pt₁, by rw [hother q hqp]; exact hq, hpt₁⟩
  · exact h.handler q r (hold q hq).2 (hold r hr).2
  · obtain ⟨hqp, hq'⟩ := hold q hq
    show s.taken = mon.data.retired + 1
    rw [hret (fun he => hqp (h.handler q p hq' (by rw [hp, he])))]
    exact h.handling q hq'
  · show s.taken = mon.data.retired
    by_cases hpt : pt = .dequeue
    · rw [hdeq hpt]
      exact h.handling p (by rw [hp, hpt])
    · rw [hret hpt]
      refine h.idle fun q hq => ?_
      have hqp : q ≠ p := by
        rintro rfl
        rw [hp] at hq
        exact hpt (Option.some.inj hq)
      exact hall q (by rw [show mon.phase q = _ from hother q hqp]; exact hq)

omit [DecidableEq ι] in
/-- There is no interrupt without a request. -/
theorem Sd.Inv.head_of_handler (h : s.Inv l) {p : ι} (hl : s.mon.lock = some p)
    (hp : (s.mon.phase p).spot = some .dequeue) :
    ∃ a rest, l = a :: rest ∧ s.mon.data.head = some a ∧ stageOf s.mon = .rest := by
  have hstage : stageOf s.mon = .rest := stageOf_locked hl hp
  have hholds := h.holds
  rw [hstage] at hholds
  cases l with
  | nil =>
      have hlen := hholds.length_pending
      have hissued : s.mon.data.issued.length ≤ s.mon.data.arrived.length := by
        rw [hholds.issued, List.length_take]
        exact Nat.min_le_right ..
      have := h.handling p hp
      have := h.taken
      have := h.raised
      simp only [Stage.outside, List.append_nil, List.length_nil] at hlen
      omega
  | cons a rest => exact ⟨a, rest, rfl, hholds.head_eq, hstage⟩

/-- A step of the lock holder that changes the data. -/
theorem Sd.Inv.go (h : s.Inv l) {p : ι} {pt pt' : SdPoint} {d : Queue}
    {mon : State ι SdCall Queue SdPoint BufIdx}
    (hs : Sound (fun _ => True) (fun _ _ _ => True) (fun _ _ => True) (fun _ _ => False) mon)
    (hp : s.mon.phase p = .inside pt) (hm : SdMove s.mon.data pt (.go d pt'))
    (hphase : mon.phase = Function.update s.mon.phase p (.inside pt')) (hd : mon.data = d)
    (hlock : mon.lock = s.mon.lock) : ∃ l', Sd.Inv { s with mon } l' := by
  have hl : s.mon.lock = some p := (h.sound.locked p).mpr (by rw [hp]; rfl)
  have hspot : (s.mon.phase p).spot = some pt := by rw [hp]; rfl
  have hstage : stageOf s.mon = pt.stage := stageOf_locked hl hspot
  have hstage' : stageOf mon = pt'.stage :=
    stageOf_locked (hlock.trans hl) (by rw [hphase, Function.update_self]; rfl)
  have hholds := h.holds
  have hfits := h.fits p pt hspot
  have hsame : ∀ q k, q ≠ p → (s.mon.phase q).spot = some (.rdwr k) →
      s.mon.data.clean k = false := fun q k _ hq => (h.fits q _ hq).2
  cases hm with
  | arrive k =>
      have hk := h.rdwr_not_mem hspot
      rw [hstage] at hholds hk
      simp only [SdPoint.stage, Stage.outside, List.append_nil] at hk
      have hnew := hholds.arrive hk hfits.2
      have hissued : s.mon.data.issued.length ≤ (s.mon.data.arrive k).issued.length := by
        unfold Queue.arrive
        split
        · simp [Queue.start]
        · exact Nat.le_refl _
      have hclean : (s.mon.data.arrive k).clean = s.mon.data.clean := by
        unfold Queue.arrive
        split <;> rfl
      have hret : (s.mon.data.arrive k).retired = s.mon.data.retired := by
        unfold Queue.arrive
        split <;> rfl
      refine ⟨l, h.own hs hspot hphase rfl ?_ ?_ ?_ ?_ ?_ ?_ ?_ ?_⟩
      · rw [hstage', hd]
        exact hnew
      · rw [hd]
        exact ⟨[s.mon.data.command k], rfl⟩
      · rw [hd, hclean]
        exact hsame
      · intro pt₁ hpt₁
        cases hpt₁
        rw [hd]
        refine ⟨⟨hfits.1, s.mon.data.command k, ?_, rfl⟩, by simp⟩
        exact List.getElem?_concat_length
      · intro j hj
        rw [hstage'] at hj
        rcases List.mem_append.mp hj with hj | hj
        · exact .inr ⟨List.mem_append_left _ hj, by simp [SdPoint.pends]⟩
        · exact .inl ⟨_, rfl, by rw [List.mem_singleton.mp hj]; rfl⟩
      · rw [hd]
        exact fun _ => hret
      · exact fun he => by cases he
      · rw [hd]
        exact hissued
  | @enqueue k head qnext n heq =>
      rw [hstage] at hholds
      obtain ⟨head', qnext', heq', hnew⟩ := hholds.enqueue
      obtain ⟨rfl, rfl⟩ := Prod.mk.inj (Option.some.inj (heq.symm.trans heq'))
      refine ⟨l ++ [k], h.own hs hspot hphase rfl ?_ ?_ ?_ ?_ ?_ ?_ ?_ ?_⟩
      · rw [hstage', hd]
        exact hnew
      · rw [hd]
      · rw [hd]
        exact hsame
      · intro pt₁ hpt₁
        cases hpt₁
        rw [hd]
        exact ⟨hfits, by simp⟩
      · intro j hj
        rw [hstage'] at hj
        simp only [SdPoint.stage, Stage.outside, List.append_nil, List.mem_append,
          List.mem_singleton] at hj
        rcases hj with hj | rfl
        · refine .inr ⟨List.mem_append_left _ hj, fun he => ?_⟩
          cases he
          exact (List.nodup_append.mp hholds.nodup).2.2 _ hj _ (List.mem_singleton_self _) rfl
        · exact .inl ⟨_, rfl, rfl⟩
      · rw [hd]
        exact fun _ => rfl
      · exact fun he => by cases he
      · rw [hd]
  | @dequeue k hh =>
      obtain ⟨a, rest, rfl, ha, hrest⟩ := h.head_of_handler hl hspot
      obtain rfl : a = k := Option.some.inj (ha.symm.trans hh)
      rw [hrest] at hholds
      have hcallers : ∀ q k, (s.mon.phase q).spot = some (.rdwr k) → k ≠ a := by
        rintro q k hq rfl
        exact h.rdwr_not_mem hq (by simp)
      refine ⟨rest, h.own hs hspot hphase rfl ?_ ?_ ?_ ?_ ?_ ?_ ?_ ?_⟩
      · rw [hstage', hd]
        exact hholds.dequeue
      · rw [hd]
        exact List.prefix_rfl
      · intro q k hqp hq
        rw [hd]
        have := hsame q k hqp hq
        simpa [Queue.clean, Queue.dequeue, Function.update_of_ne (hcallers q k hq)] using this
      · intro pt₁ hpt₁
        cases hpt₁
        exact ⟨trivial, by simp⟩
      · intro j hj
        rw [hstage'] at hj
        simp only [SdPoint.stage, Stage.outside, List.append_nil] at hj
        exact .inr ⟨by simp [hj], by simp [SdPoint.pends]⟩
      · exact fun hne => absurd rfl hne
      · rw [hd]
        exact fun _ => rfl
      · rw [hd]
        exact Nat.le_refl _
  | startNext head =>
      rw [hstage] at hholds
      have hfields : (s.mon.data.startNext head).arrived = s.mon.data.arrived ∧
          (s.mon.data.startNext head).clean = s.mon.data.clean ∧
          (s.mon.data.startNext head).retired = s.mon.data.retired ∧
          s.mon.data.issued.length ≤ (s.mon.data.startNext head).issued.length := by
        cases head with
        | none => exact ⟨rfl, rfl, rfl, Nat.le_refl _⟩
        | some k => exact ⟨rfl, rfl, rfl, by simp [Queue.startNext, Queue.start]⟩
      obtain ⟨harr, hclean, hret, hissued⟩ := hfields
      refine ⟨l, h.own hs hspot hphase rfl ?_ ?_ ?_ ?_ ?_ ?_ ?_ ?_⟩
      · rw [hstage', hd]
        exact hholds.startNext
      · rw [hd, harr]
      · rw [hd, hclean]
        exact hsame
      · intro pt₁ hpt₁
        cases hpt₁
        exact ⟨trivial, by simp⟩
      · intro j hj
        rw [hstage'] at hj
        exact .inr ⟨by rw [hstage]; exact hj, by simp [SdPoint.pends]⟩
      · rw [hd]
        exact fun _ => hret
      · exact fun he => by cases he
      · rw [hd]
        exact hissued

/-- The end of a section: only a request that is done is left behind. -/
theorem Sd.Inv.leave (h : s.Inv l) {p : ι} {pt : SdPoint} {d : Queue} {r : SdAnswer}
    {mon : State ι SdCall Queue SdPoint BufIdx}
    (hs : Sound (fun _ => True) (fun _ _ _ => True) (fun _ _ => True) (fun _ _ => False) mon)
    (hp : s.mon.phase p = .inside pt) (hm : SdMove s.mon.data pt (.done d r))
    (hphase : mon.phase = Function.update s.mon.phase p .out) (hd : mon.data = d)
    (hlock : mon.lock = none) : Sd.Inv { s with mon } l := by
  have hl : s.mon.lock = some p := (h.sound.locked p).mpr (by rw [hp]; rfl)
  have hspot : (s.mon.phase p).spot = some pt := by rw [hp]; rfl
  have hstage : stageOf s.mon = pt.stage := stageOf_locked hl hspot
  have hstage' : stageOf mon = .rest := stageOf_free hlock
  have hholds := h.holds
  obtain ⟨hsame, hrest, hpends, hpt⟩ : d = s.mon.data ∧ pt.stage = .rest ∧
      (∀ k ∈ l, pt.pends ≠ some k) ∧ pt ≠ .dequeue := by
    cases hm with
    | @returned k n hc =>
        refine ⟨rfl, rfl, fun j hj he => ?_, by simp⟩
        obtain rfl : k = j := Option.some.inj he
        rw [hholds.busy k (List.mem_append_left _ hj)] at hc
        cases hc
    | spurious hh =>
        obtain ⟨a, -, -, ha, -⟩ := h.head_of_handler hl hspot
        rw [hh] at ha
        cases ha
    | eoi => exact ⟨rfl, rfl, fun k _ => by simp [SdPoint.pends], by simp⟩
  rw [hstage, hrest] at hholds
  rw [hsame] at hd
  refine h.own hs hspot hphase rfl ?_ ?_ ?_ ?_ ?_ ?_ ?_ ?_
  · rw [hstage', hd]
    exact hholds
  · rw [hd]
  · rw [hd]
    exact fun q k _ hq => (h.fits q _ hq).2
  · exact fun k hk => by cases hk
  · intro k hk
    rw [hstage'] at hk
    have hk : k ∈ l := by simpa [Stage.outside] using hk
    exact .inr ⟨List.mem_append_left _ hk, hpends k hk⟩
  · rw [hd]
    exact fun _ => rfl
  · exact fun he => absurd he hpt
  · rw [hd]

/-- A step in the monitor that is not a call. -/
theorem Sd.Inv.mon (h : s.Inv l) {a : Event ι SdCall BufIdx}
    {mon : State ι SdCall Queue SdPoint BufIdx} (hs : Monitor.Step sdCode s.mon a mon)
    (ha : ∀ p r, a ≠ .call p r) : ∃ l', Sd.Inv { s with mon } l' := by
  have hsound := (Disciplined.any sdCode).step h.sound hs
  rcases step_cases hs with ⟨p, r, he, -⟩ | ⟨p, ph, ph', hp, hown, hphase, -⟩ |
    ⟨p, c, k, hp, -, rfl, -⟩ | ⟨p, -, rfl, -⟩ | ⟨c, -, rfl, -⟩
  · exact absurd he (ha p r)
  · have hself : mon.phase p = ph' := by rw [hphase, Function.update_self]
    have hother : ∀ q, q ≠ p → mon.phase q = s.mon.phase q := fun q hq => by
      rw [hphase, Function.update_of_ne hq]
    -- the steps that leave `p` where it is in its call
    have hstay : mon.data = s.mon.data → ph'.spot = ph.spot →
        (∀ k, ph'.resumes = some k → k.stage = .rest) → stageOf mon = stageOf s.mon →
        ∃ l', Sd.Inv { s with mon } l' := by
      intro hd hspot hentry hstage
      refine ⟨l, h.frame hsound hd (fun q => ?_) (fun q k hk => ?_) hstage⟩
      · by_cases hq : q = p
        · rw [hq, hself, hp, hspot]
        · rw [hother q hq]
      · by_cases hq : q = p
        · rw [hq, hself] at hk
          exact hentry k hk
        · rw [hother q hq] at hk
          exact h.entry q k hk
    have hentry : ∀ k, ph.resumes = some k → k.stage = .rest := fun k hk =>
      h.entry p k (by rw [hp]; exact hk)
    have hholder : ph.locks = true → s.mon.lock = some p := fun hlk =>
      (h.sound.locked p).mpr (by rw [hp]; exact hlk)
    generalize hd : mon.data = d at hown
    generalize hl : mon.lock = lk at hown
    generalize mon.table = tb, result sdCode s.mon a = res at hown
    cases hown with
    | enter k hfree =>
        refine hstay hd rfl (fun k hk => by cases hk) ?_
        rw [stageOf_locked hl (by rw [hself]; rfl), stageOf_free hfree]
        exact hentry k rfl
    | go hm => exact h.go hsound hp (SdMove.of_next hm) hphase hd hl
    | wake hm =>
        cases SdMove.of_next hm with
        | wake k head =>
            have hlk := hholder rfl
            have hst : stageOf s.mon = (SdPoint.wake _ head).stage :=
              stageOf_locked hlk (by rw [hp]; rfl)
            have hst' : stageOf mon = (SdPoint.startNext head).stage :=
              stageOf_locked (hl.trans hlk) (by rw [hself]; rfl)
            have hsame : stageOf mon = stageOf s.mon := hst'.trans hst.symm
            refine ⟨l, h.own hsound (by rw [hp]; rfl) hphase rfl ?_ ?_ ?_ ?_ ?_ ?_ ?_ ?_⟩
            · rw [hd, hsame]
              exact h.holds
            · rw [hd]
            · rw [hd]
              exact fun q k _ hq => (h.fits q _ hq).2
            · intro pt₁ hpt₁
              cases hpt₁
              exact ⟨trivial, by simp⟩
            · intro j hj
              rw [hsame] at hj
              exact .inr ⟨hj, by simp [SdPoint.pends]⟩
            · rw [hd]
              exact fun _ => rfl
            · exact fun he => by cases he
            · rw [hd]
    | sleep hm =>
        cases SdMove.of_next hm with
        | @sleep k n hc =>
            have hlk := hholder rfl
            refine hstay hd rfl (fun k hk => ?_) ?_
            · cases hk
              rfl
            · rw [stageOf_locked hlk (by rw [hp]; rfl),
                stageOf_locked (hl.trans hlk) (by rw [hself]; rfl)]
    | again hm => cases SdMove.of_next hm
    | done hm => exact ⟨l, h.leave hsound hp (SdMove.of_next hm) hphase hd hl⟩
    | fall c k _ =>
        have hlk := hholder rfl
        refine hstay hd rfl hentry ?_
        rw [stageOf_locked hlk (by rw [hp]; rfl), stageOf_locked (hl.trans hlk) (by rw [hself]; rfl)]
    | hand c k =>
        refine hstay hd rfl hentry ?_
        rw [stageOf_free hl, stageOf_locked (hholder rfl) (by rw [hp]; rfl)]
        exact (hentry k rfl).symm
    | doze c k =>
        refine hstay hd rfl hentry (stageOf_congr hl fun q => ?_)
        by_cases hq : q = p
        · rw [hq, hself, hp]
          rfl
        · rw [hother q hq]
  · -- `wakeup` is over: `p` is where it was in its section
    have hspot : ∀ q, (((s.mon.rouse c).setPhase p (.inside k)).phase q).spot =
        (s.mon.phase q).spot := by
      intro q
      by_cases hq : q = p
      · subst hq
        simp only [State.setPhase, Function.update_self, hp]
        rfl
      · simp only [State.setPhase, Function.update_of_ne hq]
        exact Phase.spot_rouse c _
    refine ⟨l, h.frame hsound rfl hspot (fun q k' hk => ?_) (stageOf_congr rfl hspot)⟩
    by_cases hq : q = p
    · subst hq
      simp only [State.setPhase, Function.update_self] at hk
      cases hk
    · simp only [State.setPhase, Function.update_of_ne hq, State.rouse, Phase.resumes_rouse] at hk
      exact h.entry q k' hk
  · have hspot : ∀ q, (Function.update s.mon.phase p (s.mon.phase p).stir q).spot =
        (s.mon.phase q).spot := by
      intro q
      by_cases hq : q = p
      · subst hq
        rw [Function.update_self, Phase.spot_stir]
      · rw [Function.update_of_ne hq]
    refine ⟨l, h.frame hsound rfl hspot (fun q k' hk => ?_) (stageOf_congr rfl hspot)⟩
    by_cases hq : q = p
    · subst hq
      simp only [State.setPhase, Function.update_self, Phase.resumes_stir] at hk
      exact h.entry q k' hk
    · simp only [State.setPhase, Function.update_of_ne hq] at hk
      exact h.entry q k' hk
  · refine ⟨l, h.frame hsound rfl (fun q => Phase.spot_rouse c _) (fun q k' hk => ?_)
      (stageOf_congr rfl fun q => Phase.spot_rouse c _)⟩
    simp only [State.rouse, Phase.resumes_rouse] at hk
    exact h.entry q k' hk

/-- A call: of the holder of its buffer, or as the only interrupt that has not
yet taken the head of the chain. -/
theorem Sd.Inv.call (h : s.Inv l) {p : ι} {r : SdCall} {taken : Nat}
    {mon : State ι SdCall Queue SdPoint BufIdx}
    (hs : Monitor.Step sdCode s.mon (.call p r) mon)
    (hfit : Fits s.mon.data s.holder p (sdCode.start p (s.mon.begun p).length r))
    (hrdwr : (∃ k, r = .rdwr k) → taken = s.taken)
    (hint : r = .interrupt → taken = s.taken + 1 ∧ s.taken < s.raised) :
    Sd.Inv { s with mon, taken } l := by
  have hsound := (Disciplined.any sdCode).step h.sound hs
  obtain ⟨hp, rfl⟩ : s.mon.phase p = .out ∧ mon = s.mon.called sdCode p r := by
    simp only [Monitor.Step, step] at hs
    split at hs
    · next hp =>
        cases hs
        exact ⟨hp, rfl⟩
    · cases hs
  have hself : (s.mon.called sdCode p r).phase p =
      .enter (sdCode.start p (s.mon.begun p).length r) := by
    simp only [State.called, State.setPhase, Function.update_self]
  have hother : ∀ q, q ≠ p → (s.mon.called sdCode p r).phase q = s.mon.phase q := fun q hq => by
    simp only [State.called, State.setPhase, Function.update_of_ne hq]
  have hmon : (s.mon.called sdCode p r).data = s.mon.data := rfl
  -- whoever is at a point of a call was there before, or is `p`
  have hold : ∀ {q pt}, (s.mon.phase q).spot = some pt → q ≠ p := by
    rintro q pt hq rfl
    rw [hp] at hq
    cases hq
  have hstage : stageOf (s.mon.called sdCode p r) = stageOf s.mon := by
    have hlock : (s.mon.called sdCode p r).lock = s.mon.lock := rfl
    simp only [stageOf, hlock]
    cases hl : s.mon.lock with
    | none => rfl
    | some q =>
        have hqp : q ≠ p := by
          rintro rfl
          have := (h.sound.locked q).mp hl
          rw [hp] at this
          cases this
        simp only [hother q hqp]
  have hidle : r = .interrupt → ∀ q, (s.mon.phase q).spot ≠ some .dequeue := by
    intro hr q hq
    have := (hint hr).2
    have := h.handling q hq
    have := h.raised
    have hlen : s.mon.data.issued.length ≤ s.mon.data.retired + 1 := by
      rw [h.holds.issued, List.length_take]
      refine (Nat.min_le_left ..).trans (Nat.add_le_add_left ?_ _)
      cases stageOf s.mon <;> simp [Stage.ahead]
    omega
  have hstart : (Phase.enter (sdCode.start p (s.mon.begun p).length r) :
      Phase SdPoint BufIdx).spot = some .dequeue → r = .interrupt := by
    cases r with
    | rdwr k => exact fun he => by cases he
    | interrupt => exact fun _ => rfl
  refine ⟨hsound, fun q k hk => ?_, ?_, fun q k hk => ?_, fun k hk => ?_, fun q q' hq hq' => ?_,
    fun q hq => ?_, fun hall => ?_, ?_, h.raised⟩
  · by_cases hq : q = p
    · subst hq
      rw [show _ = _ from hself] at hk
      cases hk
      cases r <;> rfl
    · rw [show _ = _ from hother q hq] at hk
      exact h.entry q k hk
  · show s.mon.data.Holds l _
    rw [show stageOf _ = _ from hstage]
    exact h.holds
  · by_cases hq : q = p
    · subst hq
      rw [show _ = _ from hself] at hk
      cases hk
      exact hfit
    · rw [show _ = _ from hother q hq] at hk
      exact h.fits q k hk
  · rw [show stageOf _ = _ from hstage] at hk
    obtain ⟨q, pt, hq, hpt⟩ := h.caller k hk
    refine ⟨q, pt, ?_, hpt⟩
    rw [show _ = _ from hother q (hold hq)]
    exact hq
  · by_cases hqp : q = p
    · by_cases hqp' : q' = p
      · rw [hqp, hqp']
      · rw [show _ = _ from hother q' hqp'] at hq'
        rw [hqp, show _ = _ from hself] at hq
        exact absurd hq' (hidle (hstart hq) q')
    · rw [show _ = _ from hother q hqp] at hq
      by_cases hqp' : q' = p
      · rw [hqp', show _ = _ from hself] at hq'
        exact absurd hq (hidle (hstart hq') q)
      · rw [show _ = _ from hother q' hqp'] at hq'
        exact h.handler q q' hq hq'
  · show taken = s.mon.data.retired + 1
    by_cases hqp : q = p
    · rw [hqp, show _ = _ from hself] at hq
      rw [(hint (hstart hq)).1, h.idle (hidle (hstart hq))]
    · rw [show _ = _ from hother q hqp] at hq
      cases r with
      | rdwr k =>
          rw [hrdwr ⟨k, rfl⟩]
          exact h.handling q hq
      | interrupt => exact absurd hq (hidle rfl q)
  · show taken = s.mon.data.retired
    cases r with
    | rdwr k =>
        rw [hrdwr ⟨k, rfl⟩]
        refine h.idle fun q hq => hall q ?_
        rw [show _ = _ from hother q (hold hq)]
        exact hq
    | interrupt => exact absurd (by rw [show _ = _ from hself]; rfl) (hall p)
  · show taken ≤ s.raised
    cases r with
    | rdwr k =>
        rw [hrdwr ⟨k, rfl⟩]
        exact h.taken
    | interrupt =>
        obtain ⟨rfl, hlt⟩ := hint rfl
        exact hlt

theorem Sd.Inv.step (h : s.Inv l) {a : SdEvent ι} (hs : s.Step a s') : ∃ l', s'.Inv l' := by
  cases hs with
  | rdwr hk hc hm =>
      exact ⟨l, h.call hm ⟨hk, hc⟩ (fun _ => rfl) (fun he => by cases he)⟩
  | interrupt hlt hm =>
      exact ⟨l, h.call hm trivial (fun ⟨k, he⟩ => by cases he) (fun _ => ⟨rfl, hlt⟩)⟩
  | run hm => exact h.mon hm (fun _ _ he => by cases he)
  | kill hm => exact h.mon hm (fun _ _ he => by cases he)
  | wakeup hm => exact h.mon hm (fun _ _ he => by cases he)
  | complete hlt =>
      exact ⟨l, h.sound, h.entry, h.holds, h.fits, h.caller, h.handler, h.handling, h.idle,
        h.taken.trans (Nat.le_succ _), hlt⟩
  | @acquire p k hp hk =>
      refine ⟨l, h.sound, h.entry, h.holds, fun q pt hq => ?_, h.caller, h.handler, h.handling,
        h.idle, h.taken, h.raised⟩
      refine (h.fits q pt hq).hold fun j hj => ?_
      have hjk : j ≠ k := by
        rintro rfl
        rw [hk] at hj
        cases hj
      show Function.update s.holder k (some p) j = some q
      rw [Function.update_of_ne hjk]
      exact hj
  | @release p k hp hk =>
      refine ⟨l, h.sound, h.entry, h.holds, fun q pt hq => ?_, h.caller, h.handler, h.handling,
        h.idle, h.taken, h.raised⟩
      refine (h.fits q pt hq).hold fun j hj => ?_
      have hjk : j ≠ k := by
        rintro rfl
        obtain rfl : p = q := Option.some.inj (hk.symm.trans hj)
        have hq : (s.mon.phase p).spot = some pt := hq
        rw [hp] at hq
        cases hq
      show Function.update s.holder k none j = some q
      rw [Function.update_of_ne hjk]
      exact hj
  | @touch k valid dirty blockno hout =>
      have hk := h.held_not_mem hout
      refine ⟨l, ⟨h.sound.locked, h.sound.tabled, trivial, fun _ _ _ _ _ => trivial,
        fun _ _ _ => trivial, fun _ _ _ => .inl trivial⟩, h.entry, h.holds.touch hk _ _ _,
        fun q pt hq => ?_, h.caller, h.handler, h.handling, h.idle, h.taken, h.raised⟩
      have hfits := h.fits q pt hq
      cases pt with
      | rdwr j =>
          have hjk : j ≠ k := by
            rintro rfl
            have hq : (s.mon.phase q).spot = some (.rdwr j) := hq
            rw [hout q hfits.1] at hq
            cases hq
          refine ⟨hfits.1, ?_⟩
          have := hfits.2
          simpa [Queue.clean, Queue.touch, Function.update_of_ne hjk] using this
      | _ => exact hfits

omit [DecidableEq ι] in
theorem Sd.Init.inv (h : s.Init) : s.Inv [] := by
  have hout := h.fresh.2.2.1
  have hstage : stageOf s.mon = .rest := stageOf_free h.fresh.1
  have hnone : ∀ p pt, (s.mon.phase p).spot ≠ some pt := by
    intro p pt hp
    rw [hout p] at hp
    cases hp
  refine ⟨.fresh h.fresh trivial, fun p k hk => ?_, ?_, fun p k hk => absurd hk (hnone p k),
    fun k hk => ?_, fun p q hp => absurd hp (hnone p _), fun p hp => absurd hp (hnone p _), fun _ => ?_,
    ?_, ?_⟩
  · rw [hout p] at hk
    cases hk
  · rw [hstage]
    refine ⟨h.head, by simp [Stage.outside], ?_, ?_, ?_, by simp [Stage.outside], ?_,
      fun head he => by cases he⟩
    · simp [h.arrived, Stage.outside]
    · simp [h.retired]
    · simp [h.arrived]
    · simp [h.issued, h.arrived]
  · rw [hstage] at hk
    cases hk
  · rw [h.taken, h.retired]
  · rw [h.taken]
    exact Nat.zero_le _
  · rw [h.raised]
    exact Nat.zero_le _

theorem Sd.exists_inv (h : Reach Sd.Init Sd.Step s) : ∃ l, s.Inv l :=
  Reach.invariant (I := fun s => ∃ l, Sd.Inv s l) (fun _ hs => ⟨[], hs.inv⟩)
    (fun _ _ _ ⟨_, hi⟩ hs => hi.step hs) h

/-- The commands given to the drive whose interrupt has not been served. -/
def Sd.inFlight (s : Sd ι) : List Command := s.mon.data.issued.drop s.mon.data.retired

/-- **The disk queue.** The chain is a list without repetition of the requests
that are not retired, in the order of arrival; while nobody has the lock it has
all of them and the drive works on its head and nothing else. The drive is
given the requests in the order of arrival, each once, and `rdwr` returns when
the drive has completed its own. -/
theorem queue_in_arrival_order (h : Reach Sd.Init Sd.Step s) :
    (∃ l, Path s.mon.data.qnext s.mon.data.head l none ∧ l.Nodup ∧
      l <+: (s.mon.data.arrived.drop s.mon.data.retired).map Command.buf ∧
      (s.mon.lock = none →
        l = (s.mon.data.arrived.drop s.mon.data.retired).map Command.buf ∧
        s.inFlight = (s.mon.data.head.map s.mon.data.command).toList)) ∧
    s.mon.data.issued <+: s.mon.data.arrived ∧
    (∀ p k n, result sdCode s.mon (.run p) = some (p, .rdwr k n) →
      ∃ c, c.buf = k ∧ s.mon.data.arrived[n]? = some c ∧ s.mon.data.issued[n]? = some c ∧
        n < s.raised) := by
  obtain ⟨l, hinv⟩ := Sd.exists_inv h
  have hholds := hinv.holds
  refine ⟨⟨l, hholds.chain, (List.nodup_append.mp hholds.nodup).1, ?_, fun hl => ?_⟩, ?_, ?_⟩
  · rw [hholds.pending]
    exact List.prefix_append ..
  · rw [stageOf_free hl] at hholds
    exact ⟨by simpa [Stage.outside] using hholds.pending.symm, hholds.inFlight⟩
  · rw [hholds.issued]
    exact List.take_prefix ..
  · intro p k n hr
    obtain ⟨pt, d, hp, hm⟩ := result_run hr
    cases SdMove.of_next hm with
    | returned n hc =>
        obtain ⟨c, hn, hk⟩ := (hinv.fits p (.wait k n) (by rw [hp]; rfl)).2
        -- a request that is not retired has a buffer that is not clean
        have hret : n < s.mon.data.retired := by
          by_contra hge
          have hmem := hholds.mem_of_pending hn (Nat.le_of_not_lt hge)
          rw [hk] at hmem
          rw [hholds.busy k hmem] at hc
          cases hc
        have htaken : s.mon.data.retired ≤ s.taken := by
          by_cases hq : ∃ q, (s.mon.phase q).spot = some .dequeue
          · obtain ⟨q, hq⟩ := hq
            rw [hinv.handling q hq]
            exact Nat.le_succ _
          · exact (hinv.idle fun q hq' => hq ⟨q, hq'⟩).ge
        refine ⟨c, hk, hn, ?_, hret.trans_le (htaken.trans hinv.taken)⟩
        rw [hholds.issued, List.getElem?_take_of_lt (by omega)]
        exact hn

end Invariant

/-- A caller and an interrupt with nothing to do yet. -/
def idleDriver : Sd Bool where
  mon := ⟨⟨none, fun _ => none, fun _ => false, fun _ => false, fun _ => 7, [], [], 0⟩,
    none, none, fun _ => .out, fun _ => false, fun _ => []⟩
  holder := fun _ => none
  raised := 0
  taken := 0

theorem init_idleDriver : idleDriver.Init :=
  ⟨⟨rfl, rfl, fun _ => rfl, fun _ => rfl⟩, rfl, rfl, rfl, rfl, rfl, rfl⟩

/-- A process that goes on with its call. -/
theorem Sd.reach_runs {ι : Type} [DecidableEq ι] (p : ι) (n : Nat) {t : Sd ι}
    {mon : State ι SdCall Queue SdPoint BufIdx} (h : Reach Sd.Init Sd.Step t)
    (hm : replay (Monitor.step sdCode) t.mon (List.replicate n (.run p)) = some mon) :
    Reach Sd.Init Sd.Step { t with mon } := by
  induction n generalizing t with
  | zero =>
      cases hm
      exact h
  | succ n ih =>
      obtain ⟨mid, hs, hrest⟩ := Option.bind_eq_some_iff.mp hm
      have hmid : Reach Sd.Init Sd.Step { t with mon := mid } := h.step (.run hs)
      exact ih (t := { t with mon := mid }) hmid hrest

/-- A read that the drive has completed is about to return. -/
theorem queue_in_arrival_order_read :
    ∃ s : Sd Bool, Reach Sd.Init Sd.Step s ∧
      result sdCode s.mon (.run false) = some (false, .rdwr 0 0) ∧
      ∃ c : Command, c.buf = 0 ∧ s.mon.data.arrived[0]? = some c ∧
        s.mon.data.issued[0]? = some c ∧ 0 < s.raised := by
  have h₀ := (Reach.init init_idleDriver).step (Sd.Step.acquire (p := false) (k := 0) rfl rfl)
  have h₁ := h₀.step (.rdwr (p := false) (k := 0) rfl rfl rfl)
  have h₂ := Sd.reach_runs false 7 h₁ rfl
  have h₃ := h₂.step (.complete (by decide))
  have h₄ := h₃.step (.interrupt (p := true) (by decide) rfl)
  have h₅ := Sd.reach_runs true 6 h₄ rfl
  have h₆ := Sd.reach_runs false 1 h₅ rfl
  obtain ⟨s, hs, hr⟩ : ∃ s : Sd Bool, Reach Sd.Init Sd.Step s ∧
      result sdCode s.mon (.run false) = some (false, .rdwr 0 0) := ⟨_, h₆, rfl⟩
  exact ⟨s, hs, hr, (queue_in_arrival_order hs).2.2 false 0 0 hr⟩

end Rxv64.Bio
