import Yutil.SpscFifo
import Yutil.Linear

/-!
# The cached indices decide nothing

A push or a pop that passes on its copy of the other side's counter would pass
on the counter itself, and the answer `false` is given by a load of the counter
only. Every call therefore takes effect at one step of its own, and the effects
are those of a bounded FIFO that knows no copies.
-/

namespace Yutil

open Interleave SpscBoundedQueue

namespace Spsc

inductive Party
  | producer
  | consumer
  deriving DecidableEq, Repr

variable {T : Type}

inductive Answers : TryOp T → Event T → Res T → Prop
  | accept {value : T} : Answers (.tryPush value) (.accept value) (.pushed true)
  | refuse {value : T} : Answers (.tryPush value) .refuse (.pushed false)
  | pushFails {value : T} : Answers (.tryPush value) .fail .threw
  | take {value : T} : Answers .tryPop (.take value) (.popped (some value))
  | miss : Answers .tryPop .miss (.popped none)
  | popFails : Answers .tryPop .fail .threw

/-- The effect of a step of `emplace`: the load of `head_` that finds no room, the throwing construction, or the store of `tail_`. -/
def pushEffect (capacity : BitVec 64) (q : SpscBoundedQueue T) : Bool → Producer T → Option (Event T)
  | false, .loadHead _ tail => if tail + 1 - q.head > capacity then some .refuse else none
  | true, .construct _ _ => some .fail
  | false, .storeTail value _ => some (.accept value)
  | _, _ => none

def popEffect (q : SpscBoundedQueue T) : Bool → Consumer T → Option (Event T)
  | false, .loadTail head => if q.tail = head then some .miss else none
  | true, .moveOut _ => some .fail
  | false, .storeHead _ out => some (.take out)
  | _, _ => none

def moments (capacity : BitVec 64) (s : State T) : Label T → List (Party × Moment (TryOp T) (Event T) (Res T))
  | .emplace arg => [(.producer, .call (.tryPush arg))]
  | .producer throws => ((pushEffect capacity s.queue throws s.producer).map fun e => (.producer, .effect e)).toList
  | .pushed =>
    match s.producer with
    | .done ok _ => [(.producer, .reply (.pushed ok))]
    | .threw => [(.producer, .reply .threw)]
    | _ => []
  | .tryPop => [(.consumer, .call .tryPop)]
  | .consumer throws => ((popEffect s.queue throws s.consumer).map fun e => (.consumer, .effect e)).toList
  | .popped =>
    match s.consumer with
    | .done out => [(.consumer, .reply (.popped out))]
    | .threw => [(.consumer, .reply .threw)]
    | _ => []

/-! ## One effect a call -/

def pushStage : Producer T → Stage (TryOp T) (Res T)
  | .idle => .idle
  | .loadTail arg | .loadHead arg _ | .construct arg _ | .storeTail arg _ => .called (.tryPush arg)
  | .done ok _ => .owed (.pushed ok)
  | .threw => .owed .threw

def popStage : Consumer T → Stage (TryOp T) (Res T)
  | .idle => .idle
  | .loadHead | .loadTail _ | .moveOut _ | .destroy _ _ | .storeHead _ _ => .called .tryPop
  | .done out => .owed (.popped out)
  | .threw => .owed .threw

def stage (s : State T) : Party → Stage (TryOp T) (Res T)
  | .producer => pushStage s.producer
  | .consumer => popStage s.consumer

section
variable [Elem T] {capacity : BitVec 64} {throwing throws : Bool} {q q' : SpscBoundedQueue T} {s s' : State T}

theorem pushEffect_advances {f f' : Producer T} (h : Emplaces capacity q throws f q' f') :
    Advances Answers (pushStage f) ((pushEffect capacity q throws f).map Moment.effect).toList (pushStage f') := by
  cases h with
  | full hf =>
    simp only [pushEffect, if_pos hf]
    exact .effect .refuse .nil
  | room hr =>
    simp only [pushEffect, if_neg hr]
    exact .nil
  | throws => exact .effect .pushFails .nil
  | storeTail => exact .effect .accept .nil
  | _ => exact .nil

theorem popEffect_advances {f f' : Consumer T} (h : Pops capacity q throws f q' f') :
    Advances Answers (popStage f) ((popEffect q throws f).map Moment.effect).toList (popStage f') := by
  cases h with
  | empty he =>
    simp only [popEffect, if_pos he]
    exact .effect .miss .nil
  | item hi =>
    simp only [popEffect, if_neg hi]
    exact .nil
  | throws => exact .effect .popFails .nil
  | storeHead => exact .effect .take .nil
  | _ => exact .nil

omit [Elem T] in
theorem momentsOf_tagged (t u : Party) (e : Option (Event T)) :
    momentsOf t ((e.map fun e => (u, (.effect e : Moment (TryOp T) (Event T) (Res T)))).toList) =
      if u = t then (e.map Moment.effect).toList else [] := by
  cases e with
  | none => simp [momentsOf]
  | some e =>
    by_cases h : u = t
    · simp [momentsOf, h]
    · simp [momentsOf, h]

theorem stage_step {a : Label T} (h : Spsc.step capacity throwing s a = some s') (t : Party) :
    Advances Answers (stage s t) (momentsOf t (moments capacity s a)) (stage s' t) := by
  cases step_spec h with
  | emplace hp =>
    cases t with
    | producer => simp only [stage, hp]; exact .call .nil
    | consumer => exact .nil
  | producer _ ha =>
    rw [moments, momentsOf_tagged]
    cases t with
    | producer => exact pushEffect_advances ha
    | consumer => exact .nil
  | pushed hp =>
    cases t with
    | producer =>
      rcases hp with ⟨ok, arg, hp⟩ | hp
      · simp only [moments, stage, hp]; exact .reply .nil
      · simp only [moments, stage, hp]; exact .reply .nil
    | consumer =>
      rcases hp with ⟨ok, arg, hp⟩ | hp
      · simp only [moments, hp]; exact .nil
      · simp only [moments, hp]; exact .nil
  | tryPop hc =>
    cases t with
    | producer => exact .nil
    | consumer => simp only [stage, hc]; exact .call .nil
  | consumer _ ha =>
    rw [moments, momentsOf_tagged]
    cases t with
    | producer => exact .nil
    | consumer => exact popEffect_advances ha
  | popped hc =>
    cases t with
    | producer =>
      rcases hc with ⟨out, hc⟩ | hc
      · simp only [moments, hc]; exact .nil
      · simp only [moments, hc]; exact .nil
    | consumer =>
      rcases hc with ⟨out, hc⟩ | hc
      · simp only [moments, stage, hc]; exact .reply .nil
      · simp only [moments, stage, hc]; exact .reply .nil

end

/-! ## The effects are those of the bounded FIFO -/

def events (log : List (Party × Moment (TryOp T) (Event T) (Res T))) : List (Event T) := (effects log).map (·.2)

def contents (log : List (Party × Moment (TryOp T) (Event T) (Res T))) : Fifo T :=
  ⟨(pushed (events log)).drop (popped (events log)).length, false⟩

/-- What the tests decide, against the tests on the counters themselves. -/
structure Uncached [Elem T] (capacity : BitVec 64) (s : State T) : Prop where
  passes : ∀ q arg tail, s.queue.emplace capacity false s.producer = some (q, .construct arg tail) →
    ¬ s.queue.tail + 1 - s.queue.head > capacity
  room : ∀ arg tail, s.producer = .construct arg tail ∨ s.producer = .storeTail arg tail →
    tail = s.queue.tail ∧ ¬ s.queue.tail + 1 - s.queue.head > capacity
  refuses : ∀ q arg, s.queue.emplace capacity false s.producer = some (q, .done false arg) →
    (∃ tail, s.producer = .loadHead arg tail) ∧ s.queue.tail - s.queue.head = capacity
  takes : ∀ q head, s.queue.tryPop capacity false s.consumer = some (q, .moveOut head) → s.queue.head ≠ s.queue.tail
  item : ∀ head out, s.consumer = .moveOut head ∨ s.consumer = .destroy head out ∨ s.consumer = .storeHead head out →
    head = s.queue.head ∧ s.queue.head ≠ s.queue.tail
  misses : ∀ q, s.queue.tryPop capacity false s.consumer = some (q, .done none) →
    (∃ head, s.consumer = .loadTail head) ∧ s.queue.head = s.queue.tail

section
variable {capacity : BitVec 64} {s s' : State T} {accepted returned : List T} {headCache tailCache : Nat}
  (hpow : ∃ j, 0 < j ∧ j < 64 ∧ capacity.toNat = 2 ^ j)

include hpow

theorem Inv.not_full (h : Inv capacity.toNat s accepted returned headCache tailCache)
    (hlt : accepted.length < headCache + capacity.toNat) : ¬ s.queue.tail + 1 - s.queue.head > capacity := by
  have h1 := h.head_le
  have h2 := h.cache_le
  have h3 := h.tail_le
  rw [h.counts.tail, h.counts.head, full_iff hpow (by omega) (by omega)]
  omega

theorem Inv.not_empty (h : Inv capacity.toNat s accepted returned headCache tailCache) (hlt : returned.length < tailCache) :
    s.queue.head ≠ s.queue.tail := by
  have h1 := h.head_le
  have h3 := h.tail_le
  have h4 := h.bound
  rw [h.counts.tail, h.counts.head, ne_eq, eq_comm, empty_iff hpow (by omega) (by omega)]
  omega

variable [Elem T]

theorem Inv.uncached (h : Inv capacity.toNat s accepted returned headCache tailCache) : Uncached capacity s := by
  have h1 := h.head_le
  have h2 := h.cache_le
  have h3 := h.tail_le
  have h4 := h.bound
  have htail := h.counts.tail
  have hhead := h.counts.head
  have hp := h.producer
  have hc := h.consumer
  refine ⟨?_, ?_, ?_, ?_, ?_, ?_⟩
  · intro q arg tail he
    have he := emplace_spec he
    generalize s.producer = f at he hp
    cases he with
    | cached hroom =>
      rw [htail, h.counts.headCache, full_iff hpow (by omega) h4] at hroom
      exact h.not_full hpow (by omega)
    | room hroom =>
      rw [htail, ← show tail = _ from hp]
      exact hroom
  · intro arg tail he
    rcases he with he | he
    · rw [he] at hp
      exact ⟨hp.1.trans htail.symm, h.not_full hpow hp.2⟩
    · rw [he] at hp
      exact ⟨hp.1.trans htail.symm, h.not_full hpow hp.2.1⟩
  · intro q arg he
    have he := emplace_spec he
    generalize s.producer = f at he hp
    cases he with
    | @full _ tail hfull =>
      refine ⟨⟨tail, rfl⟩, ?_⟩
      rw [show tail = _ from hp, hhead, full_iff hpow (by omega) (by omega)] at hfull
      apply BitVec.eq_of_toNat_eq
      have hb := (capacity_bounds hpow).2
      rw [htail, hhead, Counter.word_sub (by omega) (by omega)]
      omega
  · intro q head he
    have he := tryPop_spec he
    generalize s.consumer = f at he hc
    cases he with
    | cached hitem =>
      rw [hhead, h.counts.tailCache, ne_eq, empty_iff hpow h2 (by omega)] at hitem
      exact h.not_empty hpow (by omega)
    | item hitem =>
      rw [hhead, ← show head = _ from hc]
      exact fun heq => hitem heq.symm
  · intro head out he
    rcases he with he | he | he
    · rw [he] at hc
      exact ⟨hc.1.trans hhead.symm, h.not_empty hpow hc.2⟩
    · rw [he] at hc
      exact ⟨hc.1.trans hhead.symm, h.not_empty hpow hc.2⟩
    · rw [he] at hc
      exact ⟨hc.1.trans hhead.symm, h.not_empty hpow hc.2.1⟩
  · intro q he
    have he := tryPop_spec he
    generalize s.consumer = f at he hc
    cases he with
    | @empty head hempty =>
      refine ⟨⟨head, rfl⟩, ?_⟩
      rw [hhead, ← show head = _ from hc]
      exact hempty.symm

theorem Inv.push_path {throws : Bool} {q : SpscBoundedQueue T} {f : Producer T}
    (h : Inv capacity.toNat s accepted returned headCache tailCache) (ha : Emplaces capacity s.queue throws s.producer q f) :
    Fifo.Path (· < capacity.toNat) ⟨accepted.drop returned.length, false⟩
      ((pushEffect capacity s.queue throws s.producer).map fun e => (Party.producer, e)).toList
      ⟨(accepted ++ pushed (trace s (.producer throws))).drop returned.length, false⟩ := by
  have h1 := h.head_le
  have h2 := h.cache_le
  have h3 := h.tail_le
  have h4 := h.bound
  have hp := h.producer
  obtain ⟨queue, producer, consumer⟩ := s
  have hhead : queue.head = BitVec.ofNat 64 returned.length := h.counts.head
  cases ha with
  | @full arg tail hfull =>
    simp only [pushEffect, if_pos hfull]
    rw [show pushed (trace _ _) = ([] : List T) from rfl, List.append_nil]
    refine .cons (.refuse (.inr ?_)) .nil
    simp only [show tail = _ from hp, hhead] at hfull
    rw [full_iff hpow (by omega) (by omega)] at hfull
    rw [List.length_drop]
    omega
  | room hroom =>
    simp only [pushEffect, if_neg hroom]
    rw [show pushed (trace _ _) = ([] : List T) from rfl, List.append_nil]
    exact .nil
  | throws =>
    rw [show pushed (trace _ _) = ([] : List T) from rfl, List.append_nil]
    exact .cons .fail .nil
  | @storeTail value tail =>
    have hlt : accepted.length < headCache + capacity.toNat := hp.2.1
    rw [show pushed (trace _ _) = [value] from rfl, List.drop_append_of_le_length (by omega)]
    refine .cons (.accept ?_) .nil
    show (accepted.drop returned.length).length < capacity.toNat
    rw [List.length_drop]
    omega
  | _ =>
    rw [show pushed (trace _ _) = ([] : List T) from rfl, List.append_nil]
    exact .nil

theorem Inv.pop_path {throws : Bool} {q : SpscBoundedQueue T} {f : Consumer T}
    (h : Inv capacity.toNat s accepted returned headCache tailCache) (ha : Pops capacity s.queue throws s.consumer q f) :
    Fifo.Path (· < capacity.toNat) ⟨accepted.drop returned.length, false⟩
      ((popEffect s.queue throws s.consumer).map fun e => (Party.consumer, e)).toList
      ⟨accepted.drop (returned ++ popped (trace s (.consumer throws))).length, false⟩ := by
  have h1 := h.head_le
  have h2 := h.cache_le
  have h3 := h.tail_le
  have h4 := h.bound
  have hc := h.consumer
  have horder := h.order
  obtain ⟨queue, producer, consumer⟩ := s
  have htail : queue.tail = BitVec.ofNat 64 accepted.length := h.counts.tail
  cases ha with
  | @empty head hempty =>
    simp only [popEffect, if_pos hempty]
    rw [show popped (trace _ _) = ([] : List T) from rfl, List.append_nil]
    simp only [show head = _ from hc, htail] at hempty
    rw [empty_iff hpow (by omega) (by omega)] at hempty
    rw [List.drop_of_length_le (by omega)]
    exact .cons .miss .nil
  | item hitem =>
    simp only [popEffect, if_neg hitem]
    rw [show popped (trace _ _) = ([] : List T) from rfl, List.append_nil]
    exact .nil
  | throws =>
    rw [show popped (trace _ _) = ([] : List T) from rfl, List.append_nil]
    exact .cons .fail .nil
  | @storeHead head out =>
    rw [show popped (trace _ _) = [out] from rfl]
    obtain ⟨rest, hrest⟩ : returned ++ [out] <+: accepted := horder
    have hitems : accepted.drop returned.length = out :: rest := by
      rw [← hrest, List.append_assoc, List.drop_left]
      rfl
    have hrest : accepted.drop (returned ++ [out]).length = rest := by rw [← hrest, List.drop_left]
    rw [hitems, hrest]
    exact .cons .take .nil
  | _ =>
    rw [show popped (trace _ _) = ([] : List T) from rfl, List.append_nil]
    exact .nil

end

/-! ## Runs -/

section
variable [Elem T] {capacity : BitVec 64} {throwing : Bool} {s s' : State T}
  {log : List (Party × Moment (TryOp T) (Event T) (Res T))}

omit [Elem T] in
theorem events_append (l₁ l₂ : List (Party × Moment (TryOp T) (Event T) (Res T))) :
    events (l₁ ++ l₂) = events l₁ ++ events l₂ := by
  unfold events
  rw [effects_append, List.map_append]

omit [Elem T] in
theorem effects_tagged (u : Party) (e : Option (Event T)) :
    effects ((e.map fun e => (u, (.effect e : Moment (TryOp T) (Event T) (Res T)))).toList) = (e.map fun e => (u, e)).toList := by
  cases e <;> rfl

def Played (capacity : BitVec 64) (s : State T) (log : List (Party × Moment (TryOp T) (Event T) (Res T))) : Prop :=
  Recorded capacity.toNat s (events log) ∧ Fifo.empty.Path (· < capacity.toNat) (effects log) (contents log)

theorem events_moments {a : Label T} (h : Spsc.step capacity throwing s a = some s') :
    pushed (events (moments capacity s a)) = pushed (trace s a) ∧
      popped (events (moments capacity s a)) = popped (trace s a) := by
  cases step_spec h with
  | emplace _ => exact ⟨rfl, rfl⟩
  | tryPop _ => exact ⟨rfl, rfl⟩
  | pushed hp =>
    rcases hp with ⟨ok, arg, hp⟩ | hp
    · simp only [moments, hp]; exact ⟨rfl, rfl⟩
    · simp only [moments, hp]; exact ⟨rfl, rfl⟩
  | popped hc =>
    rcases hc with ⟨out, hc⟩ | hc
    · simp only [moments, hc]; exact ⟨rfl, rfl⟩
    · simp only [moments, hc]; exact ⟨rfl, rfl⟩
  | producer _ ha =>
    unfold events
    rw [moments, effects_tagged]
    obtain ⟨queue, producer, consumer⟩ := s
    cases ha with
    | full hf => simp only [pushEffect, if_pos hf]; exact ⟨rfl, rfl⟩
    | room hr => simp only [pushEffect, if_neg hr]; exact ⟨rfl, rfl⟩
    | _ => exact ⟨rfl, rfl⟩
  | consumer _ ha =>
    unfold events
    rw [moments, effects_tagged]
    obtain ⟨queue, producer, consumer⟩ := s
    cases ha with
    | empty he => simp only [popEffect, if_pos he]; exact ⟨rfl, rfl⟩
    | item hi => simp only [popEffect, if_neg hi]; exact ⟨rfl, rfl⟩
    | _ => exact ⟨rfl, rfl⟩

theorem Recorded.path (hpow : ∃ j, 0 < j ∧ j < 64 ∧ capacity.toNat = 2 ^ j) {a : Label T}
    (h : Recorded capacity.toNat s (events log)) (hs : Spsc.step capacity throwing s a = some s') :
    (contents log).Path (· < capacity.toNat) (effects (moments capacity s a)) (contents (log ++ moments capacity s a)) := by
  obtain ⟨hpushed, hpopped⟩ := events_moments hs
  obtain ⟨headCache, tailCache, hinv⟩ := h
  unfold contents
  rw [events_append, pushed_append, popped_append, hpushed, hpopped]
  have quiet : effects (moments capacity s a) = [] → trace s a = [] →
      Fifo.Path (· < capacity.toNat) ⟨(pushed (events log)).drop (popped (events log)).length, false⟩
        (effects (moments capacity s a))
        ⟨(pushed (events log) ++ pushed (trace s a)).drop (popped (events log) ++ popped (trace s a)).length, false⟩ := by
    intro h1 h2
    rw [h1, h2, show pushed ([] : List (Event T)) = [] from rfl, show popped ([] : List (Event T)) = [] from rfl,
      List.append_nil, List.append_nil]
    exact .nil
  cases step_spec hs with
  | emplace _ => exact quiet rfl rfl
  | tryPop _ => exact quiet rfl rfl
  | pushed hp =>
    refine quiet ?_ rfl
    rcases hp with ⟨ok, arg, hp⟩ | hp
    · simp only [moments, hp]; rfl
    · simp only [moments, hp]; rfl
  | popped hc =>
    refine quiet ?_ rfl
    rcases hc with ⟨out, hc⟩ | hc
    · simp only [moments, hc]; rfl
    · simp only [moments, hc]; rfl
  | @producer throws q f _ ha =>
    rw [moments, effects_tagged, popped_producer, List.append_nil]
    exact hinv.push_path hpow ha
  | @consumer throws q f _ ha =>
    rw [moments, effects_tagged, pushed_consumer, List.append_nil]
    exact hinv.pop_path hpow ha

theorem Played.step (hpow : ∃ j, 0 < j ∧ j < 64 ∧ capacity.toNat = 2 ^ j) {a : Label T} (h : Played capacity s log)
    (hs : Spsc.step capacity throwing s a = some s') : Played capacity s' (log ++ moments capacity s a) := by
  obtain ⟨hpushed, hpopped⟩ := events_moments hs
  have hrec := h.1.step hpow hs
  constructor
  · unfold Recorded at hrec ⊢
    rw [events_append, pushed_append, popped_append, hpushed, hpopped, ← pushed_append, ← popped_append]
    exact hrec
  · rw [effects_append]
    exact h.2.append (h.1.path hpow hs)

theorem played_reachable (hpow : ∃ j, 0 < j ∧ j < 64 ∧ capacity.toNat = 2 ^ j)
    (h : ((machine T capacity throwing).logged (moments capacity)).Reachable (s, log)) : Played capacity s log := by
  refine h.invariant (I := fun x => Played capacity x.1 x.2) ?_ ?_
  · exact ⟨recorded_reachable hpow (Machine.Reachable.start (M := (machine T capacity throwing).logged trace)), .nil⟩
  · intro x a x' _ hI hs
    obtain ⟨h1, h2⟩ := Machine.logged_step.mp hs
    rw [h2]
    exact hI.step hpow h1

omit [Elem T] in
theorem Played.length (hpow : ∃ j, 0 < j ∧ j < 64 ∧ capacity.toNat = 2 ^ j) (h : Played capacity s log) :
    (s.queue.tail - s.queue.head).toNat = (contents log).items.length := by
  obtain ⟨headCache, tailCache, h⟩ := h.1
  unfold contents
  rw [(h.size_eq hpow).1, List.length_drop]

end

end Spsc

open Spsc

variable {T : Type} [Elem T] {fuel : Nat} {requested capacity : BitVec 64}

/-- **The caches decide nothing.** The tests on the copies agree with the tests
on the counters in every state of every run; a call takes effect at one step
between its start and its answer, and the effects, in their order, are those of
a FIFO of `capacity` places whose items number `tail_ - head_`. -/
theorem caches_decide_nothing (hcap : normalizeCapacity fuel requested = some capacity) (throwing : Bool) {s : Spsc.State T}
    {log : List (Party × Moment (TryOp T) (Event T) (Res T))}
    (hr : ((Spsc.machine T capacity throwing).logged (moments capacity)).Reachable (s, log)) :
    Uncached capacity s ∧
    Linearized Answers (fun es => Fifo.empty.Path (· < capacity.toNat) es (contents log)) log ∧
    (∀ t before op during r after, momentsOf t log = before ++ .call op :: during ++ .reply r :: after →
      (∀ r', .reply r' ∉ during) → ∃ e, during = [.effect e] ∧ Answers op e r) ∧
    (s.queue.tail - s.queue.head).toNat = (contents log).items.length := by
  have hpow := normalizeCapacity_spec (by decide) hcap
  have hp := played_reachable hpow hr
  have hl : Linearized Answers (fun es => Fifo.empty.Path (· < capacity.toNat) es (contents log)) log :=
    ⟨fun t => ⟨stage s t, advances_reachable stage (fun t => by cases t <;> rfl) (fun _ _ _ t hs => stage_step hs t) hr t⟩,
      hp.2⟩
  refine ⟨?_, hl, ?_, hp.length hpow⟩
  · obtain ⟨headCache, tailCache, h⟩ := hp.1
    exact h.uncached hpow
  · intro t before op during r after he hfirst
    obtain ⟨g, hg⟩ := hl.each t
    rw [he] at hg
    exact hg.between hfirst

def fillAndPop : List (Spsc.Label Nat) :=
  [.emplace 7, .producer false, .producer false, .producer false, .pushed,
    .emplace 8, .producer false, .producer false, .producer false, .pushed,
    .emplace 9, .producer false, .producer false, .pushed,
    .tryPop, .consumer false, .consumer false, .consumer false, .consumer false, .consumer false, .popped]

theorem caches_decide_nothing_one :
    ∃ x, ((Spsc.machine Nat 2#64 false).logged (moments 2#64)).exec fillAndPop = some x ∧
    Linearized Answers (fun es => Fifo.empty.Path (· < (2#64).toNat) es (contents x.2)) x.2 := by
  have hrun : (((Spsc.machine Nat 2#64 false).logged (moments 2#64)).exec fillAndPop).isSome := by decide
  obtain ⟨x, hx⟩ := Option.isSome_iff_exists.mp hrun
  have hcap : normalizeCapacity 3 2#64 = some 2#64 := by decide
  exact ⟨x, hx, (caches_decide_nothing hcap false (Machine.exec_reachable _ hx)).2.1⟩

end Yutil
