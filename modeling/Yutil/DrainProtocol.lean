import Yutil.AtomicAnswers
import Mathlib.Algebra.BigOperators.Fin
import Mathlib.Algebra.Order.Group.Multiset
import Mathlib.Data.Fintype.BigOperators
import Mathlib.Data.Fintype.Sum

/-!
# Retry and drain

Producers retry `try_push` until it takes their payload and count themselves
done; a consumer leaves after a `try_pop` that fails when it has read that all
producers are done.
-/

namespace Yutil

open Interleave Atomic

/-- Where a consumer is in its loop: at its first `try_pop`, before it reads
the counter, at the `try_pop` after that, or out of the loop. -/
inductive Phase
  | first
  | reading
  | last
  | exited
  deriving DecidableEq, Repr

namespace Drain

/-- A producer's `payload` is the item it makes and pushes until it is taken. -/
structure State (P C T : Type) where
  queue : Atomic.State (P ⊕ C) (BitVec 64) T × List (TicketEvent (P ⊕ C) (BitVec 64) T)
  todo : P → List T
  payload : P → Option T
  finished : P → Bool
  doneProducers : Nat
  phase : C → Phase
  out : C → List T

inductive Label (P C : Type)
  | move (t : P ⊕ C) (m : Move)
  | make (p : P)
  | push (p : P)
  | pushed (p : P)
  | finish (p : P)
  | pop (c : C)
  | popped (c : C)
  | load (c : C)

variable {P C T : Type} [DecidableEq P] [DecidableEq C] [Fintype P] [Elem T]

def step (version : AtomicVersion) (capacity : BitVec 64) (s : State P C T) : Label P C → Option (State P C T)
  | .move t m =>
    ((version.recorded (P ⊕ C) T capacity).step s.queue (.move t m)).map fun q => { s with queue := q }
  | .make p =>
    match s.payload p, s.todo p with
    | none, x :: rest =>
      some { s with payload := Function.update s.payload p (some x), todo := Function.update s.todo p rest }
    | _, _ => none
  | .push p =>
    match s.payload p with
    | some x =>
      ((version.recorded (P ⊕ C) T capacity).step s.queue (.call (.inl p) (.emplace x))).map fun q => { s with queue := q }
    | none => none
  | .pushed p =>
    match s.queue.1.pc (.inl p) with
    | .done _ (.pushed ok arg) =>
      ((version.recorded (P ⊕ C) T capacity).step s.queue (.ret (.inl p))).map fun q =>
        { s with queue := q, payload := Function.update s.payload p (if ok then none else some arg) }
    | _ => none
  | .finish p =>
    if (s.payload p).isNone ∧ (s.todo p).isEmpty ∧ s.finished p = false then
      some { s with finished := Function.update s.finished p true, doneProducers := s.doneProducers + 1 }
    else none
  | .pop c =>
    if s.phase c = .first ∨ s.phase c = .last then
      ((version.recorded (P ⊕ C) T capacity).step s.queue (.call (.inr c) .tryPop)).map fun q => { s with queue := q }
    else none
  | .popped c =>
    match s.queue.1.pc (.inr c) with
    | .done _ (.popped (some value)) =>
      ((version.recorded (P ⊕ C) T capacity).step s.queue (.ret (.inr c))).map fun q =>
        { s with queue := q, out := Function.update s.out c (s.out c ++ [value])
                 phase := Function.update s.phase c .first }
    | .done _ (.popped none) =>
      ((version.recorded (P ⊕ C) T capacity).step s.queue (.ret (.inr c))).map fun q =>
        { s with queue := q
                 phase := Function.update s.phase c (if s.phase c = .last then .exited else .reading) }
    | _ => none
  | .load c =>
    if s.phase c = .reading then
      some { s with phase := Function.update s.phase c (if s.doneProducers = Fintype.card P then .last else .first) }
    else none

def machine (version : AtomicVersion) (capacity : BitVec 64) (items : P → List T) : Machine (State P C T) (Label P C) where
  start := ⟨(version.recorded (P ⊕ C) T capacity).start, items, fun _ => none, fun _ => false, 0, fun _ => .first, fun _ => []⟩
  step := step version capacity

variable {version : AtomicVersion} {capacity : BitVec 64} {s s' : State P C T} {a : Label P C}

inductive Steps (version : AtomicVersion) (capacity : BitVec 64) (s : State P C T) : Label P C → State P C T → Prop
  | move {t : P ⊕ C} {m : Move} {q} : (version.recorded (P ⊕ C) T capacity).step s.queue (.move t m) = some q →
      Steps version capacity s (.move t m) { s with queue := q }
  | make {p : P} {x : T} {rest : List T} : s.payload p = none → s.todo p = x :: rest → Steps version capacity s (.make p)
      { s with payload := Function.update s.payload p (some x), todo := Function.update s.todo p rest }
  | push {p : P} {x : T} {q} : s.payload p = some x →
      (version.recorded (P ⊕ C) T capacity).step s.queue (.call (.inl p) (.emplace x)) = some q →
      Steps version capacity s (.push p) { s with queue := q }
  | pushed {p : P} {k : Option (BitVec 64)} {ok : Bool} {arg : T} {q} : s.queue.1.pc (.inl p) = .done k (.pushed ok arg) →
      (version.recorded (P ⊕ C) T capacity).step s.queue (.ret (.inl p)) = some q → Steps version capacity s (.pushed p)
      { s with queue := q, payload := Function.update s.payload p (if ok then none else some arg) }
  | finish {p : P} : s.payload p = none → s.todo p = [] → s.finished p = false → Steps version capacity s (.finish p)
      { s with finished := Function.update s.finished p true, doneProducers := s.doneProducers + 1 }
  | pop {c : C} {q} : s.phase c = .first ∨ s.phase c = .last →
      (version.recorded (P ⊕ C) T capacity).step s.queue (.call (.inr c) .tryPop) = some q →
      Steps version capacity s (.pop c) { s with queue := q }
  | took {c : C} {k : Option (BitVec 64)} {value : T} {q} : s.queue.1.pc (.inr c) = .done k (.popped (some value)) →
      (version.recorded (P ⊕ C) T capacity).step s.queue (.ret (.inr c)) = some q → Steps version capacity s (.popped c)
      { s with queue := q, out := Function.update s.out c (s.out c ++ [value])
               phase := Function.update s.phase c .first }
  | failed {c : C} {k : Option (BitVec 64)} {q} : s.queue.1.pc (.inr c) = .done k (.popped none) →
      (version.recorded (P ⊕ C) T capacity).step s.queue (.ret (.inr c)) = some q → Steps version capacity s (.popped c)
      { s with queue := q, phase := Function.update s.phase c (if s.phase c = .last then .exited else .reading) }
  | load {c : C} : s.phase c = .reading → Steps version capacity s (.load c)
      { s with phase := Function.update s.phase c (if s.doneProducers = Fintype.card P then .last else .first) }

theorem step_spec (h : step version capacity s a = some s') : Steps version capacity s a s' := by
  cases a with
  | move t m => obtain ⟨q, hq, rfl⟩ := Option.map_eq_some_iff.mp h; exact .move hq
  | make p =>
    simp only [step] at h
    split at h <;> cases h
    exact .make ‹_› ‹_›
  | push p =>
    simp only [step] at h
    split at h
    · obtain ⟨q, hq, rfl⟩ := Option.map_eq_some_iff.mp h
      exact .push ‹_› hq
    · cases h
  | pushed p =>
    simp only [step] at h
    split at h
    · obtain ⟨q, hq, rfl⟩ := Option.map_eq_some_iff.mp h
      exact .pushed ‹_› hq
    · cases h
  | finish p =>
    simp only [step] at h
    split at h <;> cases h
    rename_i hc
    exact .finish (Option.isNone_iff_eq_none.mp hc.1) (List.isEmpty_iff.mp hc.2.1) hc.2.2
  | pop c =>
    simp only [step] at h
    split at h
    · obtain ⟨q, hq, rfl⟩ := Option.map_eq_some_iff.mp h
      exact .pop ‹_› hq
    · cases h
  | popped c =>
    simp only [step] at h
    split at h
    · obtain ⟨q, hq, rfl⟩ := Option.map_eq_some_iff.mp h
      exact .took ‹_› hq
    · obtain ⟨q, hq, rfl⟩ := Option.map_eq_some_iff.mp h
      exact .failed ‹_› hq
    · cases h
  | load c =>
    simp only [step] at h
    split at h <;> cases h
    exact .load ‹_›

/-! ## Items -/

def PushFrame {N : Type} (payload : Option T) : Frame N T → Prop
  | .idle => True
  | .checkClosed arg | .loadEnqueue arg _ | .loadSequence arg _ _ | .claim arg _ _ | .construct arg _
  | .done _ (.pushed false arg) => payload = some arg
  | .publish _ _ | .done _ (.pushed true _) => payload.isSome = true
  | _ => False

def PopFrame {N : Type} (phase : Phase) : Frame N T → Prop
  | .idle => True
  | .loadDequeue _ | .loadSequencePop _ _ | .claimPop _ _ | .moveOut _ | .destroy _ _ | .release _ _
  | .done _ (.popped _) => phase = .first ∨ phase = .last
  | _ => False

def unsent {N : Type} (payload : Option T) : Frame N T → Multiset T
  | .publish _ _ | .done _ (.pushed true _) => 0
  | _ => payload.toList

def taken {N : Type} : Frame N T → Multiset T
  | .done _ (.popped (some value)) => {value}
  | _ => 0

section
variable {Tid N T : Type}

def constructed (log : List (TicketEvent Tid N T)) : Multiset T :=
  log.filterMap fun e => match e with | .constructed _ _ value => some value | _ => none

def released (log : List (TicketEvent Tid N T)) : Multiset T :=
  log.filterMap fun e => match e with | .released _ _ value => some value | _ => none

theorem constructed_append (l₁ l₂ : List (TicketEvent Tid N T)) :
    constructed (l₁ ++ l₂) = constructed l₁ + constructed l₂ := by
  simp only [constructed, List.filterMap_append, Multiset.coe_add]

theorem released_append (l₁ l₂ : List (TicketEvent Tid N T)) : released (l₁ ++ l₂) = released l₁ + released l₂ := by
  simp only [released, List.filterMap_append, Multiset.coe_add]

variable [DecidableEq N] [Counter N] [Elem T] {x : Atomic.State Tid N T} {backoff : Nat → Nat} {c : Nat} {t : Tid} {m : Move}
  {q : AtomicQueue N T} {f : Frame N T}

theorem push_act {payload : Option T} (hm : m ≠ .throws) (h : PushFrame payload (x.pc t))
    (ha : x.queue.Acts backoff c m (x.pc t) q f) :
    PushFrame payload f ∧ unsent payload (x.pc t) = unsent payload f + constructed (trace c x (.move t m)) ∧
      released (trace c x (.move t m)) = 0 := by
  generalize hpc : x.pc t = g at h ha
  cases ha with
  | claim he =>
    rw [trace_claim hpc he]
    exact ⟨h, (add_zero _).symm, rfl⟩
  | lost hl =>
    rw [trace_lost hpc hl]
    exact ⟨h, (add_zero _).symm, rfl⟩
  | @construct arg pos =>
    have htr : trace c x (.move t .go) = [.constructed t pos arg] := by simp only [trace, hpc]
    rw [htr]
    obtain rfl : payload = some arg := h
    exact ⟨rfl, rfl, rfl⟩
  | constructThrows => exact absurd rfl hm
  | publish =>
    simp only [trace, hpc]
    exact ⟨h, rfl, rfl⟩
  | refused | admitted | loadEnqueue | ready | full | passed =>
    simp only [trace, hpc]
    exact ⟨h, (add_zero _).symm, rfl⟩
  | _ => exact h.elim

theorem pop_act {phase : Phase} (hm : m ≠ .throws) (h : PopFrame phase (x.pc t))
    (ha : x.queue.Acts backoff c m (x.pc t) q f) :
    PopFrame phase f ∧ taken f = taken (x.pc t) + released (trace c x (.move t m)) ∧
      constructed (trace c x (.move t m)) = 0 := by
  generalize hpc : x.pc t = g at h ha
  cases ha with
  | claimPop he =>
    rw [trace_claimPop hpc he]
    exact ⟨h, rfl, rfl⟩
  | lostPop hl =>
    rw [trace_lostPop hpc hl]
    exact ⟨h, rfl, rfl⟩
  | moveOutThrows => exact absurd rfl hm
  | loadDequeue | readyPop | empty | passedPop | moveOut | destroy | release =>
    simp only [trace, hpc]
    exact ⟨h, rfl, rfl⟩
  | _ => exact h.elim

end

/-! ## Steps of the queue -/

section
variable {Tid : Type} [DecidableEq Tid] {x q : Atomic.State Tid (BitVec 64) T × List (TicketEvent Tid (BitVec 64) T)}
  {t : Tid}

theorem queue_move {m : Move} (h : (version.recorded Tid T capacity).step x (.move t m) = some q) :
    ∃ q' f, m ≠ .throws ∧ x.1.queue.Acts version.backoff capacity.toNat m (x.1.pc t) q' f ∧
      q = (⟨q', Function.update x.1.pc t f⟩, x.2 ++ trace capacity.toNat x.1 (.move t m)) := by
  rw [AtomicVersion.recorded_eq] at h
  obtain ⟨h1, h2⟩ := Machine.logged_step.mp h
  have h1 : Atomic.step version.backoff capacity.toNat false x.1 (.move t m) = some q.1 := h1
  obtain ⟨s', log⟩ := q
  cases Atomic.step_spec h1 with
  | move hm ha => exact ⟨_, _, fun he => Bool.false_ne_true (hm he), ha, Prod.ext rfl h2⟩

theorem queue_call {op : AtomicOp T} (h : (version.recorded Tid T capacity).step x (.call t op) = some q) :
    x.1.pc t = .idle ∧ q = (⟨x.1.queue, Function.update x.1.pc t (AtomicQueue.enter op)⟩, x.2) := by
  rw [AtomicVersion.recorded_eq] at h
  obtain ⟨h1, h2⟩ := Machine.logged_step.mp h
  have h1 : Atomic.step version.backoff capacity.toNat false x.1 (.call t op) = some q.1 := h1
  obtain ⟨s', log⟩ := q
  cases Atomic.step_spec h1 with
  | call hidle => exact ⟨hidle, Prod.ext rfl (h2.trans (List.append_nil _))⟩

theorem queue_ret (h : (version.recorded Tid T capacity).step x (.ret t) = some q) :
    q = (⟨x.1.queue, Function.update x.1.pc t .idle⟩, x.2) := by
  rw [AtomicVersion.recorded_eq] at h
  obtain ⟨h1, h2⟩ := Machine.logged_step.mp h
  have h1 : Atomic.step version.backoff capacity.toNat false x.1 (.ret t) = some q.1 := h1
  obtain ⟨s', log⟩ := q
  cases Atomic.step_spec h1 with
  | ret _ => exact Prod.ext rfl (h2.trans (List.append_nil _))

end

/-! ## The invariant -/

omit [Elem T] in
theorem sum_move {ι : Type} [Fintype ι] [DecidableEq ι] {g g' : ι → Multiset T} {x : Multiset T} (i : ι)
    (h : ∀ j, j ≠ i → g' j = g j) (hi : g i = g' i + x) : ∑ j, g j = (∑ j, g' j) + x := by
  rw [← Finset.add_sum_erase _ g (Finset.mem_univ i), ← Finset.add_sum_erase _ g' (Finset.mem_univ i), hi]
  have hrest : ∑ j ∈ Finset.univ.erase i, g' j = ∑ j ∈ Finset.univ.erase i, g j :=
    Finset.sum_congr rfl fun j hj => h j (Finset.ne_of_mem_erase hj)
  rw [hrest, add_assoc, add_assoc, add_comm x]

variable [Fintype C] {items : P → List T}

omit [Elem T] in
theorem idle_of_none {N : Type} {f : Frame N T} (h : PushFrame none f) : f = .idle := by
  cases f with
  | idle => rfl
  | done k r =>
    cases r with
    | pushed ok arg => cases ok <;> cases h
    | _ => exact h.elim
  | _ => first | exact h.elim | cases h

def State.left (s : State P C T) (p : P) : Multiset T := s.todo p + unsent (s.payload p) (s.queue.1.pc (.inl p))

def State.got (s : State P C T) (c : C) : Multiset T := s.out c + taken (s.queue.1.pc (.inr c))

structure Inv (items : P → List T) (s : State P C T) : Prop where
  producers : ∀ p, PushFrame (s.payload p) (s.queue.1.pc (.inl p))
  consumers : ∀ c, PopFrame (s.phase c) (s.queue.1.pc (.inr c))
  finished : ∀ p, s.finished p = true → s.payload p = none ∧ s.todo p = []
  count : s.doneProducers = (Finset.univ.filter fun p => s.finished p = true).card
  exiting : ∀ c, s.phase c = .last ∨ s.phase c = .exited → ∀ p, s.finished p = true
  sent : ∑ p, (items p : Multiset T) = (∑ p, s.left p) + constructed s.queue.2
  received : released s.queue.2 = ∑ c, s.got c

variable {q : AtomicQueue (BitVec 64) T} {pc : P ⊕ C → Frame (BitVec 64) T}
  {log : List (TicketEvent (P ⊕ C) (BitVec 64) T)} {x : Multiset T}

omit [DecidableEq C] [Elem T] in
theorem Inv.producer (h : Inv items s) (p : P) {payload : P → Option T} {todo : P → List T}
    (hown : ∀ j, j ≠ p → payload j = s.payload j ∧ todo j = s.todo j) (hpc : ∀ t, t ≠ .inl p → pc t = s.queue.1.pc t)
    (hframe : PushFrame (payload p) (pc (.inl p))) (hfin : s.finished p = true → payload p = none ∧ todo p = [])
    (hleft : s.left p = (todo p + unsent (payload p) (pc (.inl p))) + x)
    (hcon : constructed log = constructed s.queue.2 + x) (hrel : released log = released s.queue.2) :
    Inv items { s with queue := (⟨q, pc⟩, log), payload := payload, todo := todo } := by
  refine ⟨fun j => ?_, fun c => ?_, fun j hj => ?_, h.count, h.exiting, ?_, ?_⟩
  · by_cases hj : j = p
    · subst hj; exact hframe
    · simp only [(hown j hj).1, hpc (.inl j) (by simpa using hj)]; exact h.producers j
  · simp only [hpc (.inr c) (by simp)]; exact h.consumers c
  · by_cases hjp : j = p
    · subst hjp; exact hfin hj
    · simp only [hown j hjp]; exact h.finished j hj
  · have hsum : ∑ j, s.left j = (∑ j, ((todo j : Multiset T) + unsent (payload j) (pc (.inl j)))) + x := by
      refine sum_move p (fun j hj => ?_) hleft
      rw [(hown j hj).1, (hown j hj).2, hpc (.inl j) (by simpa using hj)]
      rfl
    show _ = _ + constructed log
    rw [h.sent, hsum, hcon, add_assoc, add_comm x]
    rfl
  · show released log = _
    rw [hrel, h.received]
    apply Finset.sum_congr rfl
    intro c _
    show _ = _ + taken (pc (.inr c))
    rw [hpc (.inr c) (by simp)]
    rfl

omit [DecidableEq P] [Elem T] in
theorem Inv.consumer (h : Inv items s) (c : C) {phase : C → Phase} {out : C → List T}
    (hown : ∀ j, j ≠ c → phase j = s.phase j ∧ out j = s.out j) (hpc : ∀ t, t ≠ .inr c → pc t = s.queue.1.pc t)
    (hframe : PopFrame (phase c) (pc (.inr c)))
    (hexit : phase c = .last ∨ phase c = .exited → ∀ p, s.finished p = true)
    (hgot : out c + taken (pc (.inr c)) = s.got c + x) (hrel : released log = released s.queue.2 + x)
    (hcon : constructed log = constructed s.queue.2) :
    Inv items { s with queue := (⟨q, pc⟩, log), phase := phase, out := out } := by
  refine ⟨fun p => ?_, fun j => ?_, h.finished, h.count, fun j hj => ?_, ?_, ?_⟩
  · simp only [hpc (.inl p) (by simp)]; exact h.producers p
  · by_cases hj : j = c
    · subst hj; exact hframe
    · simp only [(hown j hj).1, hpc (.inr j) (by simpa using hj)]; exact h.consumers j
  · by_cases hjc : j = c
    · subst hjc; exact hexit hj
    · simp only [(hown j hjc).1] at hj; exact h.exiting j hj
  · rw [h.sent]
    show _ = _ + constructed log
    rw [hcon]
    congr 1
    apply Finset.sum_congr rfl
    intro p _
    show _ = _ + unsent _ (pc (.inl p))
    rw [hpc (.inl p) (by simp)]
    rfl
  · show released log = _
    rw [hrel, h.received]
    have hsum : ∑ j, ((out j : Multiset T) + taken (pc (.inr j))) = (∑ j, s.got j) + x := by
      refine sum_move c (fun j hj => ?_) hgot
      rw [(hown j hj).2, hpc (.inr j) (by simpa using hj)]
      rfl
    exact hsum.symm

omit [DecidableEq P] [DecidableEq C] [Elem T] in
theorem Inv.idle (h : Inv items s) (c : C) (h1 : s.phase c ≠ .first) (h2 : s.phase c ≠ .last) :
    s.queue.1.pc (.inr c) = .idle := by
  have hf := h.consumers c
  cases hpc : s.queue.1.pc (.inr c) with
  | idle => rfl
  | done k r =>
    rw [hpc] at hf
    cases r with
    | popped out =>
      rcases hf with hf | hf
      · exact absurd hf h1
      · exact absurd hf h2
    | _ => exact hf.elim
  | _ =>
    rw [hpc] at hf
    first
    | exact hf.elim
    | rcases hf with hf | hf
      · exact absurd hf h1
      · exact absurd hf h2

theorem Inv.step (h : Inv items s) (hs : Drain.step version capacity s a = some s') : Inv items s' := by
  cases step_spec hs with
  | @move t m q hq =>
    obtain ⟨q', f, hm, ha, rfl⟩ := queue_move hq
    cases t with
    | inl p =>
      obtain ⟨h1, h2, h3⟩ := push_act hm (h.producers p) ha
      refine h.producer p (x := constructed (trace capacity.toNat s.queue.1 (.move (.inl p) m))) (fun _ _ => ⟨rfl, rfl⟩)
        (fun t ht => Function.update_of_ne ht ..) (by rw [Function.update_self]; exact h1) (h.finished p) ?_ ?_ ?_
      · rw [State.left, h2, Function.update_self, add_assoc]
      · exact constructed_append ..
      · rw [released_append, h3, add_zero]
    | inr c =>
      obtain ⟨h1, h2, h3⟩ := pop_act hm (h.consumers c) ha
      refine h.consumer c (x := released (trace capacity.toNat s.queue.1 (.move (.inr c) m))) (fun _ _ => ⟨rfl, rfl⟩)
        (fun t ht => Function.update_of_ne ht ..) (by rw [Function.update_self]; exact h1) (h.exiting c) ?_ ?_ ?_
      · rw [State.got, Function.update_self, h2, add_assoc]
      · exact released_append ..
      · rw [constructed_append, h3, add_zero]
  | @make p x rest hp ht =>
    have hidle : s.queue.1.pc (.inl p) = .idle := idle_of_none (by rw [← hp]; exact h.producers p)
    refine h.producer p (x := 0) (fun j hj => ⟨Function.update_of_ne hj .., Function.update_of_ne hj ..⟩)
      (fun _ _ => rfl) (by rw [hidle]; trivial) (fun hfin => ?_) ?_ (add_zero _).symm rfl
    · rw [(h.finished p hfin).2] at ht; cases ht
    · have h0 : unsent none (.idle : Frame (BitVec 64) T) = 0 := rfl
      have h1 : unsent (some x) (.idle : Frame (BitVec 64) T) = {x} := rfl
      rw [State.left, hidle, hp, ht, Function.update_self, Function.update_self, h0, h1, ← Multiset.cons_coe,
        ← Multiset.singleton_add, add_zero, add_zero, add_comm]
  | @push p x q hp hq =>
    obtain ⟨hidle, rfl⟩ := queue_call hq
    refine h.producer p (x := 0) (fun _ _ => ⟨rfl, rfl⟩) (fun t ht => Function.update_of_ne ht ..)
      (by rw [Function.update_self]; exact hp) (h.finished p) ?_ (add_zero _).symm rfl
    rw [State.left, hidle, Function.update_self, add_zero]
    rfl
  | @pushed p k ok arg q hpc hq =>
    obtain rfl := queue_ret hq
    have hf := h.producers p
    rw [hpc] at hf
    refine h.producer p (x := 0) (fun j hj => ⟨Function.update_of_ne hj .., rfl⟩)
      (fun t ht => Function.update_of_ne ht ..) (by simp only [Function.update_self]; trivial) (fun hfin => ?_) ?_
      (add_zero _).symm rfl
    · rw [(h.finished p hfin).1] at hf
      cases ok <;> cases hf
    · simp only [State.left, hpc, Function.update_self, add_zero]
      cases ok with
      | true => rfl
      | false =>
        have hf : s.payload p = some arg := hf
        rw [hf]
        rfl
  | @finish p hp ht hf =>
    refine ⟨h.producers, h.consumers, fun j hj => ?_, ?_, fun c hc => ?_, h.sent, h.received⟩
    · by_cases hjp : j = p
      · subst hjp; exact ⟨hp, ht⟩
      · simp only [Function.update_of_ne hjp] at hj; exact h.finished j hj
    · have hset : (Finset.univ.filter fun j => Function.update s.finished p true j = true) =
          insert p (Finset.univ.filter fun j => s.finished j = true) := by
        ext j
        by_cases hjp : j = p <;> simp [hjp]
      rw [hset, Finset.card_insert_of_notMem (by simp [hf]), ← h.count]
    · rw [h.exiting c hc p] at hf; cases hf
  | @pop c q hph hq =>
    obtain ⟨hidle, rfl⟩ := queue_call hq
    refine h.consumer c (x := 0) (fun _ _ => ⟨rfl, rfl⟩) (fun t ht => Function.update_of_ne ht ..)
      (by rw [Function.update_self]; exact hph) (h.exiting c) ?_ (add_zero _).symm rfl
    rw [State.got, hidle, Function.update_self, add_zero]
    rfl
  | @took c k value q hpc hq =>
    obtain rfl := queue_ret hq
    refine h.consumer c (x := 0) (fun j hj => ⟨Function.update_of_ne hj .., Function.update_of_ne hj ..⟩)
      (fun t ht => Function.update_of_ne ht ..) (by simp only [Function.update_self]; trivial) (fun hph => ?_) ?_
      (add_zero _).symm rfl
    · simp at hph
    · rw [State.got, hpc, Function.update_self, Function.update_self, add_zero]
      exact (add_zero _).trans (Multiset.coe_add _ [value]).symm
  | @failed c k q hpc hq =>
    obtain rfl := queue_ret hq
    refine h.consumer c (x := 0) (fun j hj => ⟨Function.update_of_ne hj .., rfl⟩)
      (fun t ht => Function.update_of_ne ht ..) (by simp only [Function.update_self]; trivial) (fun hph => ?_) ?_
      (add_zero _).symm rfl
    · by_cases hl : s.phase c = .last
      · exact h.exiting c (.inl hl)
      · simp [hl] at hph
    · rw [State.got, hpc, Function.update_self]
      simp [taken]
  | @load c hph =>
    have hidle := h.idle c (by rw [hph]; intro he; cases he) (by rw [hph]; intro he; cases he)
    refine h.consumer c (x := 0) (fun j hj => ⟨Function.update_of_ne hj .., rfl⟩) (fun _ _ => rfl)
      (by rw [hidle]; trivial) (fun hl p => ?_) (by rw [State.got, add_zero]) (add_zero _).symm rfl
    rw [Function.update_self] at hl
    split at hl
    · rename_i hdone
      have hcard := h.count.symm.trans hdone
      have := (Finset.card_eq_iff_eq_univ _).mp hcard
      have hp : p ∈ Finset.univ.filter fun p => s.finished p = true := by rw [this]; exact Finset.mem_univ p
      exact (Finset.mem_filter.mp hp).2
    · rcases hl with hl | hl <;> cases hl

theorem Inv.start : Inv items (machine (C := C) version capacity items).start := by
  have hstart : (version.recorded (P ⊕ C) T capacity).start = (⟨AtomicQueue.new (BitVec 64) T, fun _ => .idle⟩, []) := by
    rw [AtomicVersion.recorded_eq]
    rfl
  rw [machine, hstart]
  refine ⟨fun _ => trivial, fun _ => trivial, fun _ hf => ?_, ?_, fun c hc => ?_, ?_, ?_⟩
  · cases hf
  · show 0 = (Finset.univ.filter fun _ : P => false = true).card
    simp
  · rcases hc with hc | hc <;> cases hc
  · show _ = (∑ p, ((items p : Multiset T) + 0)) + 0
    simp only [add_zero]
  · exact (Finset.sum_eq_zero fun c _ => rfl).symm

theorem inv_reachable (h : (machine version capacity items).Reachable s) : Inv items s :=
  h.invariant Inv.start fun _ _ _ _ hI hs => hI.step hs

omit [DecidableEq P] [DecidableEq C] [Elem T] in
/-- When the producers are done, no thread can claim a push ticket or holds one. -/
theorem Inv.no_push (h : Inv items s) (hall : ∀ p, s.finished p = true) (t : P ⊕ C) :
    pushTicket (s.queue.1.pc t) = none ∧ ∀ arg pos spins, s.queue.1.pc t ≠ .claim arg pos spins := by
  cases t with
  | inl p =>
    have hf := h.producers p
    rw [(h.finished p (hall p)).1] at hf
    rw [idle_of_none hf]
    exact ⟨rfl, fun _ _ _ he => by cases he⟩
  | inr c =>
    have hf := h.consumers c
    cases hpc : s.queue.1.pc (.inr c) with
    | claim | construct | publish => rw [hpc] at hf; exact hf.elim
    | _ => exact ⟨rfl, fun _ _ _ he => by cases he⟩

end Drain

end Yutil
