import Yutil.SpscCaches

/-!
# The size of the queue

`size()` loads the tail and then the head, and the two threads may move in
between. The difference is the size of some state as long as the head does not
pass the tail that was loaded, which no call of the producer or the consumer
themselves can see happen.
-/

namespace Yutil

open Interleave

namespace SpscBoundedQueue

inductive Sizing
  | idle
  | loadTail
  | loadHead (tail : BitVec 64)
  | done (size : BitVec 64)
  deriving DecidableEq, Repr

variable {T : Type}

def size (q : SpscBoundedQueue T) : Sizing → Option Sizing
  | .loadTail => some (.loadHead q.tail)
  | .loadHead tail => some (.done (tail - q.head))
  | _ => none

def empty (size : BitVec 64) : Bool := size = 0

end SpscBoundedQueue

namespace Spsc

open SpscBoundedQueue

/-- Who asks for the size: the producer or the consumer between two calls of theirs, or some other thread. -/
inductive Caller (O : Type)
  | producer
  | consumer
  | observer (o : O)
  deriving DecidableEq

structure Sized (O T : Type) where
  base : State T
  sizing : Caller O → Sizing

inductive SizeLabel (O T : Type)
  | run (a : Label T)
  | size (c : Caller O)
  | load (c : Caller O)
  | sized (c : Caller O)
  deriving DecidableEq

def atRest {O T : Type} (s : State T) : Caller O → Bool
  | .producer => match s.producer with | .idle => true | _ => false
  | .consumer => match s.consumer with | .idle => true | _ => false
  | .observer _ => true

def free {O T : Type} (s : Sized O T) : Label T → Bool
  | .emplace _ => s.sizing .producer = .idle
  | .tryPop => s.sizing .consumer = .idle
  | _ => true

variable {O T : Type} [DecidableEq O] [Elem T]

def Sized.step (capacity : BitVec 64) (throwing : Bool) (s : Sized O T) : SizeLabel O T → Option (Sized O T)
  | .run a => if free s a then (Spsc.step capacity throwing s.base a).map fun b => { s with base := b } else none
  | .size c =>
    if s.sizing c = .idle ∧ atRest s.base c then some { s with sizing := Function.update s.sizing c .loadTail } else none
  | .load c => (s.base.queue.size (s.sizing c)).map fun f => { s with sizing := Function.update s.sizing c f }
  | .sized c =>
    match s.sizing c with
    | .done _ => some { s with sizing := Function.update s.sizing c .idle }
    | _ => none

def sizedMachine (O T : Type) [DecidableEq O] [Elem T] (capacity : BitVec 64) (throwing : Bool) :
    Machine (Sized O T) (SizeLabel O T) where
  start := ⟨(machine T capacity throwing).start, fun _ => .idle⟩
  step := Sized.step capacity throwing

inductive Sizes (capacity : BitVec 64) (throwing : Bool) (s : Sized O T) : SizeLabel O T → Sized O T → Prop
  | run {a : Label T} {b : State T} : free s a = true → Spsc.step capacity throwing s.base a = some b →
      Sizes capacity throwing s (.run a) { s with base := b }
  | size {c : Caller O} : s.sizing c = .idle → atRest s.base c = true →
      Sizes capacity throwing s (.size c) { s with sizing := Function.update s.sizing c .loadTail }
  | loadTail {c : Caller O} : s.sizing c = .loadTail →
      Sizes capacity throwing s (.load c) { s with sizing := Function.update s.sizing c (.loadHead s.base.queue.tail) }
  | loadHead {c : Caller O} {tail : BitVec 64} : s.sizing c = .loadHead tail →
      Sizes capacity throwing s (.load c) { s with sizing := Function.update s.sizing c (.done (tail - s.base.queue.head)) }
  | sized {c : Caller O} : Sizes capacity throwing s (.sized c) { s with sizing := Function.update s.sizing c .idle }

variable {capacity : BitVec 64} {throwing : Bool} {s s' : Sized O T}

theorem sizes_spec {a : SizeLabel O T} (h : s.step capacity throwing a = some s') : Sizes capacity throwing s a s' := by
  cases a with
  | run a =>
    simp only [Sized.step] at h
    split at h
    · obtain ⟨b, hb, rfl⟩ := Option.map_eq_some_iff.mp h
      exact .run ‹_› hb
    · cases h
  | size c =>
    simp only [Sized.step] at h
    split at h
    · rename_i hc
      cases h
      exact .size hc.1 hc.2
    · cases h
  | load c =>
    obtain ⟨f, hf, rfl⟩ := Option.map_eq_some_iff.mp h
    cases hc : s.sizing c with
    | loadTail => rw [hc] at hf; cases hf; exact .loadTail hc
    | loadHead tail => rw [hc] at hf; cases hf; exact .loadHead hc
    | _ => rw [hc] at hf; cases hf
  | sized c =>
    simp only [Sized.step] at h
    split at h <;> cases h
    exact .sized

/-- The step of a pop that takes the head past the tail the caller has loaded. -/
def Overtakes (c : Caller O) (s : Sized O T) (a : SizeLabel O T) : Prop :=
  a = .run (.consumer false) ∧ (∃ head out, s.base.consumer = .storeHead head out) ∧
    s.sizing c = .loadHead s.base.queue.head

/-! ## What the base machine keeps -/

theorem sized_base (h : (sizedMachine O T capacity throwing).Reachable s) :
    (machine T capacity throwing).Reachable s.base := by
  induction h with
  | start => exact .start
  | step _ hs ih =>
    cases sizes_spec hs with
    | run _ hb => exact .step ih hb
    | _ => exact ih

section
variable {b b' : State T} (hpow : ∃ j, 0 < j ∧ j < 64 ∧ capacity.toNat = 2 ^ j)

include hpow

theorem uncached_reachable (h : (machine T capacity throwing).Reachable b) : Uncached capacity b := by
  obtain ⟨log, hl⟩ := Machine.reachable_logged (moments capacity) h
  obtain ⟨headCache, tailCache, hinv⟩ := (played_reachable hpow hl).1
  exact hinv.uncached hpow

theorem size_le (h : (machine T capacity throwing).Reachable b) :
    (b.queue.tail - b.queue.head).toNat ≤ capacity.toNat := by
  obtain ⟨log, hl⟩ := Machine.reachable_logged (moments capacity) h
  obtain ⟨headCache, tailCache, hinv⟩ := (played_reachable hpow hl).1
  obtain ⟨hsize, -, hroom⟩ := hinv.size_eq hpow
  omega

theorem counters_step {a : Label T} (hb : Spsc.step capacity throwing b a = some b')
    (hr : (machine T capacity throwing).Reachable b) :
    (b'.queue.tail = b.queue.tail ∧ b'.queue.head = b.queue.head) ∨
    (b'.queue.tail = b.queue.tail + 1 ∧ b'.queue.head = b.queue.head ∧ ∃ value, b.producer = .storeTail value b.queue.tail) ∨
    (b'.queue.tail = b.queue.tail ∧ b'.queue.head = b.queue.head + 1 ∧ b.queue.head ≠ b.queue.tail ∧ a = .consumer false ∧
      ∃ out, b.consumer = .storeHead b.queue.head out) := by
  have hu := uncached_reachable hpow hr
  cases step_spec hb with
  | @producer throws q f _ ha =>
    have hroom := hu.room
    generalize hp : b.producer = p at ha hroom
    cases ha with
    | @storeTail value tail =>
      have ht := (hroom value tail (.inr rfl)).1
      exact .inr (.inl ⟨congrArg (· + 1) ht, rfl, value, by rw [← ht]⟩)
    | _ => exact .inl ⟨rfl, rfl⟩
  | @consumer throws q f _ ha =>
    have hitem := hu.item
    generalize hc : b.consumer = p at ha hitem
    cases ha with
    | @storeHead head out =>
      obtain ⟨hh, hne⟩ := hitem head out (.inr (.inr rfl))
      exact .inr (.inr ⟨rfl, congrArg (· + 1) hh, hne, rfl, out, by rw [← hh]⟩)
    | _ => exact .inl ⟨rfl, rfl⟩
  | _ => exact .inl ⟨rfl, rfl⟩

end

/-! ## The invariant -/

structure Rests (s : Sized O T) : Prop where
  rest : ∀ c, s.sizing c ≠ .idle → atRest s.base c = true
  tail : ∀ tail, s.sizing .producer = .loadHead tail → tail = s.base.queue.tail

def SizeOk (capacity : BitVec 64) (q : SpscBoundedQueue T) : Sizing → Prop
  | .loadHead tail => (tail - q.head).toNat ≤ (q.tail - q.head).toNat
  | .done size => size ≤ capacity
  | _ => True

theorem atRest_producer {O T : Type} {b : State T} (h : atRest b (.producer : Caller O) = true) : b.producer = .idle := by
  obtain ⟨q, p, d⟩ := b
  cases p with
  | idle => rfl
  | _ => cases h

theorem atRest_consumer {O T : Type} {b : State T} (h : atRest b (.consumer : Caller O) = true) : b.consumer = .idle := by
  obtain ⟨q, p, d⟩ := b
  cases d with
  | idle => rfl
  | _ => cases h

omit [DecidableEq O] in
theorem atRest_step {b : State T} {a : Label T} {c : Caller O} (hf : free s a = true)
    (hb : Spsc.step capacity throwing s.base a = some b) (hc : s.sizing c ≠ .idle) (hr : atRest s.base c = true) :
    atRest b c = true := by
  cases c with
  | observer o => rfl
  | producer =>
    have hp := atRest_producer hr
    cases step_spec hb with
    | emplace _ => exact absurd (of_decide_eq_true hf) hc
    | producer _ ha => rw [hp] at ha; cases ha
    | pushed h => rfl
    | _ => exact hr
  | consumer =>
    have hp := atRest_consumer hr
    cases step_spec hb with
    | tryPop _ => exact absurd (of_decide_eq_true hf) hc
    | consumer _ ha => rw [hp] at ha; cases ha
    | popped h => rfl
    | _ => exact hr

omit [Elem T] in
theorem Rests.update {c : Caller O} {f : Sizing} (h : Rests s) (hr : f ≠ .idle → atRest s.base c = true)
    (ht : ∀ tail, c = .producer → f = .loadHead tail → tail = s.base.queue.tail) :
    Rests { s with sizing := Function.update s.sizing c f } := by
  constructor
  · intro d hd
    by_cases hdc : d = c
    · subst hdc
      simp only [Function.update_self] at hd
      exact hr hd
    · simp only [Function.update_of_ne hdc] at hd
      exact h.rest d hd
  · intro tail hs
    by_cases hc : Caller.producer = c
    · subst hc
      simp only [Function.update_self] at hs
      exact ht tail rfl hs
    · simp only [Function.update_of_ne hc] at hs
      exact h.tail tail hs

theorem rests_reachable (hpow : ∃ j, 0 < j ∧ j < 64 ∧ capacity.toNat = 2 ^ j)
    (h : (sizedMachine O T capacity throwing).Reachable s) : Rests s := by
  refine h.invariant (I := Rests) ?_ ?_
  · exact ⟨fun c hc => absurd rfl hc, fun tail ht => by cases ht⟩
  · intro s a s' hr hi hs
    have hrest : ∀ c, s.sizing c ≠ .idle → atRest s.base c = true := hi.rest
    cases sizes_spec hs with
    | @run a b hf hb =>
      refine ⟨fun c hc => atRest_step hf hb hc (hi.rest c hc), fun tail ht => ?_⟩
      have hp := atRest_producer (hi.rest .producer (by simp only at ht; rw [ht]; simp))
      rcases counters_step hpow hb (sized_base hr) with hc | ⟨-, -, value, hv⟩ | hc
      · exact (hi.tail tail ht).trans hc.1.symm
      · rw [hp] at hv; cases hv
      · exact (hi.tail tail ht).trans hc.1.symm
    | size hidle hc => exact hi.update (fun _ => hc) fun tail _ hf => by cases hf
    | @loadTail c hc =>
      apply hi.update (fun _ => hrest c (by rw [hc]; simp))
      intro tail _ hf
      cases hf
      rfl
    | @loadHead c tail hc => exact hi.update (fun _ => hrest c (by rw [hc]; simp)) fun tail _ hf => by cases hf
    | sized => exact hi.update (fun hne => absurd rfl hne) fun tail _ hf => by cases hf

theorem Rests.not_overtaken (hpow : ∃ j, 0 < j ∧ j < 64 ∧ capacity.toNat = 2 ^ j) (h : Rests s)
    (hr : (sizedMachine O T capacity throwing).Reachable s) {c : Caller O} (hc : ∀ o, c ≠ .observer o) (a : SizeLabel O T) :
    ¬ Overtakes c s a := by
  rintro ⟨-, ⟨head, out, hpc⟩, hs⟩
  cases c with
  | observer o => exact hc o rfl
  | producer =>
    obtain ⟨-, hne⟩ := (uncached_reachable hpow (sized_base hr)).item head out (.inr (.inr hpc))
    exact hne (h.tail _ hs)
  | consumer =>
    have hidle := atRest_consumer (h.rest .consumer (by rw [hs]; simp))
    rw [hidle] at hpc
    cases hpc

theorem SizeOk.step (hpow : ∃ j, 0 < j ∧ j < 64 ∧ capacity.toNat = 2 ^ j)
    (hr : (sizedMachine O T capacity throwing).Reachable s) {a : SizeLabel O T} {c : Caller O}
    (hs : s.step capacity throwing a = some s') (ho : ¬ Overtakes c s a) (h : SizeOk capacity s.base.queue (s.sizing c)) :
    SizeOk capacity s'.base.queue (s'.sizing c) := by
  have hb := (capacity_bounds hpow).2
  have hle := size_le hpow (sized_base hr)
  -- the caller itself moves, or another one does
  have moves : ∀ d f, (d = c → SizeOk capacity s.base.queue f) →
      SizeOk capacity s.base.queue (Function.update s.sizing d f c) := by
    intro d f hf
    by_cases hd : c = d
    · subst hd
      rw [Function.update_self]
      exact hf rfl
    · rw [Function.update_of_ne hd]
      exact h
  cases sizes_spec hs with
  | @run a b hf hstep =>
    show SizeOk capacity b.queue (s.sizing c)
    cases hc : s.sizing c with
    | loadHead tail =>
      rw [hc] at h
      have h : (tail - s.base.queue.head).toNat ≤ (s.base.queue.tail - s.base.queue.head).toNat := h
      show (tail - b.queue.head).toNat ≤ (b.queue.tail - b.queue.head).toNat
      rcases counters_step hpow hstep (sized_base hr) with ⟨h1, h2⟩ | ⟨h1, h2, -⟩ | ⟨h1, h2, h3, h4, out, h5⟩
      · rw [h1, h2]
        exact h
      · rw [h1, h2]
        bv_omega
      · have hne : tail ≠ s.base.queue.head := by
          intro he
          subst he
          exact ho ⟨by rw [h4], ⟨_, out, h5⟩, hc⟩
        rw [h1, h2]
        bv_omega
    | done size => rw [hc] at h; exact h
    | _ => trivial
  | size _ _ => exact moves _ _ fun _ => trivial
  | loadTail _ => exact moves _ _ fun _ => Nat.le_refl _
  | @loadHead d tail hd =>
    apply moves _ _
    intro he
    rw [← he, hd] at h
    exact BitVec.le_def.mpr (Nat.le_trans h hle)
  | sized => exact moves _ _ fun _ => trivial

end Spsc

open Spsc SpscBoundedQueue

variable {O T : Type} [DecidableEq O] [Elem T] {fuel : Nat} {requested capacity : BitVec 64}

/-- **`size()` returns a possible size**, to the producer and to the consumer in
every run, and to any other thread in a run in which no pop takes the head past
the tail that thread has loaded. -/
theorem size_possible (hcap : normalizeCapacity fuel requested = some capacity) (throwing : Bool) {n : Nat}
    (r : Run (sizedMachine O T capacity throwing) n) (c : Caller O)
    (hr : ∀ i, i < n → ∀ o, c = .observer o → ¬ Overtakes c (r.st i) (r.lab i)) {i : Nat} (hi : i ≤ n)
    {size : BitVec 64} (hs : (r.st i).sizing c = .done size) : size ≤ capacity := by
  have hpow := normalizeCapacity_spec (by decide) hcap
  have hok : SizeOk capacity (r.st i).base.queue ((r.st i).sizing c) := by
    refine r.persists (fun s => SizeOk capacity s.base.queue (s.sizing c)) (Nat.zero_le i) (fun j _ hj h => ?_) ?_
    · apply h.step hpow (r.reachable j (by omega)) (r.step j (by omega))
      by_cases hc : ∃ o, c = .observer o
      · obtain ⟨o, hc⟩ := hc
        exact hr j (by omega) o hc
      · have hreach := r.reachable j (by omega)
        exact (rests_reachable hpow hreach).not_overtaken hpow hreach (fun o ho => hc ⟨o, ho⟩) _
    · rw [r.start]
      trivial
  rw [hs] at hok
  exact hok

def popBetween : List (SizeLabel Unit Nat) :=
  [.size (.observer ()), .load (.observer ()),
    .run (.emplace 7), .run (.producer false), .run (.producer false), .run (.producer false), .run .pushed,
    .run .tryPop, .run (.consumer false), .run (.consumer false), .run (.consumer false), .run (.consumer false),
    .run (.consumer false), .run .popped, .load (.observer ())]

theorem size_impossible : ∃ s : Sized Unit Nat, (sizedMachine Unit Nat 2#64 false).Reachable s ∧
    s.sizing (.observer ()) = .done (BitVec.allOnes 64) ∧ s.base.queue.head = s.base.queue.tail ∧
    empty (BitVec.allOnes 64) = false ∧ ¬ BitVec.allOnes 64 ≤ 2#64 := by
  have hrun : ((sizedMachine Unit Nat 2#64 false).exec popBetween).map (fun s =>
      (s.sizing (.observer ()), s.base.queue.head, s.base.queue.tail)) = some (.done (BitVec.allOnes 64), 1, 1) := by decide
  obtain ⟨s, hs, he⟩ := Option.map_eq_some_iff.mp hrun
  obtain ⟨h1, h2⟩ := Prod.ext_iff.mp he
  obtain ⟨h2, h3⟩ := Prod.ext_iff.mp h2
  exact ⟨s, Machine.exec_reachable _ hs, h1, h2.trans h3.symm, by decide, by decide⟩

def popBehind : List (SizeLabel Unit Nat) :=
  [.run (.emplace 7), .run (.producer false), .run (.producer false), .run (.producer false), .run .pushed,
    .run .tryPop, .run (.consumer false), .run (.consumer false), .run (.consumer false), .run (.consumer false),
    .size .producer, .load .producer, .run (.consumer false), .load .producer]

theorem size_possible_one : ∃ size, ((Run.ofExec (sizedMachine Unit Nat 2#64 false) (.sized .producer) popBehind
    rfl).st 14).sizing .producer = .done size ∧ size ≤ 2#64 := by
  have hdone : ((Run.ofExec (sizedMachine Unit Nat 2#64 false) (.sized .producer) popBehind rfl).st 14).sizing .producer =
      .done 0 := by decide
  have hcap : normalizeCapacity 3 2#64 = some 2#64 := by decide
  refine ⟨0, hdone, size_possible hcap false _ .producer (fun i _ o ho => ?_) (show 14 ≤ popBehind.length by decide) hdone⟩
  cases ho

end Yutil
