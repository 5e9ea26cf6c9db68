import Yutil.Closing

/-!
# The waiter counters of V3

`MutexDequeQueueV3` and `MutexDequeMpmcQueueV3` count each sleep of
`wait_pop`, `RingMutexMpmcQueueV3` each stay in a wait. Between the critical
sections the counters are the numbers of threads inside the waits, so a section
that comes back from a sleep finds its counter up, and one that finds the
counter down has nobody to notify.
-/

namespace Yutil

open Interleave Monitor

variable {T : Type}

/-- `count` is the number of threads inside the waits of the operations in
`wait`, which sleep on `v`. Whoever comes back from such a sleep finds it up;
and nobody sleeps on `v` where a section that `tests` the counter does not notify. -/
structure CountsWaiters {D Op : Type} (M : Monitor D Op Cv (Res T)) (count : D → Nat) (wait : Op → Bool) (v : Cv)
    (tests : Op → D → Res T → Prop) : Prop where
  exact : ∀ (Tid : Type) [DecidableEq Tid] [Fintype Tid] (s : State Tid D Op Cv (Res T)),
    (M.machine fun (_ : Tid) _ => true).Reachable s → count s.data = (inside wait s.pc).card
  decrements : ∀ (Tid : Type) [DecidableEq Tid] [Fintype Tid] (s : State Tid D Op Cv (Res T)),
    (M.machine fun (_ : Tid) _ => true).Reachable s → ∀ t op c, s.pc t = .woken op c → wait op = true → 0 < count s.data
  skips : ∀ (Tid : Type) [DecidableEq Tid] [Fintype Tid] (s s' : State Tid D Op Cv (Res T)) (t : Tid) (pick : Option Tid),
    (M.machine fun (_ : Tid) _ => true).Reachable s → M.step (fun _ _ => true) s (.acquire t pick) = some s' →
    ∀ op todo r, s'.pc t = .leaving op todo r → tests op s.data r → .one v ∉ todo →
      ∀ u op', s.pc u ≠ .asleep op' v ∧ s'.pc u ≠ .asleep op' v

section
variable {D Op : Type} {M : Monitor D Op Cv (Res T)} {count : D → Nat} {wait : Op → Bool} {v : Cv}
  {tests : Op → D → Res T → Prop}

theorem CountsWaiters.of_count (hwait : ∀ {op w d d' c}, M.sect op w d = .sleep d' c → (wait op = true ↔ c = v))
    (hcount : ∀ (Tid : Type) [DecidableEq Tid] [Fintype Tid] (s : State Tid D Op Cv (Res T)),
      (M.machine fun (_ : Tid) _ => true).Reachable s → count s.data = total (insideOn v) s.pc)
    (htests : ∀ {op w d d' held later r}, M.sect op w d = .leave d' held later r → tests op d r → .one v ∉ later →
      count d = 0) : CountsWaiters M count wait v tests where
  exact := by
    intro Tid _ _ s hr
    rw [hcount Tid s hr, card_inside]
    intro t op c hpc
    obtain ⟨w, d, d', hx⟩ := op_sleeps hr hpc
    exact hwait hx
  decrements := by
    intro Tid _ _ s hr t op c hpc hop
    obtain ⟨w, d, d', hx⟩ := op_sleeps hr (.inr hpc)
    rw [hcount Tid s hr]
    refine total_pos.mpr ⟨t, ?_⟩
    rw [hpc, insideOn, if_pos ((hwait hx).mp hop)]
    exact Nat.one_pos
  skips := by
    intro Tid _ _ s s' t pick hr hs op todo r ht htest htodo
    have hs := step_spec hs
    -- the thread has just left its section, with nobody inside the wait
    have hzero : count s.data = 0 := by
      cases hs with
      | sleep _ _ => simp only [Function.update_self, reduceCtorEq] at ht
      | leave hready hx hd =>
        simp only [Function.update_self, Pc.leaving.injEq] at ht
        obtain ⟨rfl, rfl, rfl⟩ := ht
        exact htests hx htest htodo
    have hquiet : ∀ u op', s.pc u ≠ .asleep op' v := by
      intro u op' hu
      have hle := weight_le_total (insideOn v) s.pc u
      rw [← hcount Tid s hr, hzero, hu, insideOn, if_pos rfl] at hle
      omega
    intro u op'
    refine ⟨hquiet u op', fun hu => ?_⟩
    rcases hs.sleeper hu with hu | ⟨w, pick', ha, hready, hx⟩
    · exact hquiet u op' hu
    · cases ha
      rw [hu] at ht
      cases ht

end

/-! ## The deque queues -/

def DequeOp.waits : DequeOp T → Bool
  | .waitPop _ => true
  | _ => false

section
variable {emplace : Built T → Deque T → Exit (Deque T) Cv (Res T)} {shouldNotify : Deque T → Bool}

theorem deque_counts (he : ∀ b d, emplace b d = d.emplaceWith (shouldNotify d) b) (tests : DequeOp T → Deque T → Res T → Prop)
    (hpushed : ∀ op d r, tests op d r → op.pushes = true ∧ r = .pushed true)
    (hnotify : ∀ op d r, tests op d r → shouldNotify d = false → d.waitingConsumers = 0) :
    CountsWaiters (Deque.monitor emplace Deque.waitPopCounting) Deque.waitingConsumers DequeOp.waits .cv tests := by
  apply CountsWaiters.of_count
  · intro op w d d' c hx
    obtain ⟨hop, hc, -⟩ := deque_sleeps he waits_waitPopCounting hx
    cases op with
    | waitPop a => exact ⟨fun _ => hc, fun _ => rfl⟩
    | _ => cases hop
  · intro Tid _ _ s hr
    exact waiting_consumers he hr
  · intro op w d d' held later r hx htest hlater
    apply hnotify op d r htest
    obtain ⟨hop, hres⟩ := hpushed op d r htest
    cases op with
    | emplace b =>
      have hx := (he b d).symm.trans hx
      unfold Deque.emplaceWith at hx
      split at hx
      · cases hx
        cases hres
      · cases b with
        | throws _ =>
          cases hx
          cases hres
        | value x =>
          cases hx
          cases hn : shouldNotify d with
          | false => rfl
          | true => exact absurd (List.mem_singleton_self _) (hn ▸ hlater)
    | _ => cases hop

end

/-! ## The ring -/

section
variable [Elem T] {capacity : Nat}

theorem RingMutexMpmcQueueV3.wait_cv {op : RingOp T} {w : Bool} {r d : Ring T} {c : Cv}
    (hx : (monitor capacity).sect op w r = .sleep d c) :
    (op.consumes = true ↔ c = .notEmpty) ∧ (op.produces = true ↔ c = .notFull) := by
  have hsect := sect_spec capacity op w r
  rw [hx] at hsect
  cases hsect <;> simp [RingOp.consumes, RingOp.produces]

theorem RingMutexMpmcQueueV3.told {op : RingOp T} {w : Bool} {r d : Ring T} {held : Option (Notify Cv)}
    {later : List (Notify Cv)} {x : Res T} (hx : (monitor capacity).sect op w r = .leave d held later x) :
    (op.pushes = true → x = .pushed true → later = notifyConsumer r) ∧
    (op.consumes = true → ∀ y, x = .popped (some y) → later = notifyProducer r) := by
  have hsect := sect_spec capacity op w r
  rw [hx] at hsect
  cases hsect with
  | pushed hop _ _ _ _ _ => rcases hop with rfl | rfl <;> exact ⟨fun _ _ => rfl, fun _ _ => nofun⟩
  | popped hop _ _ _ =>
    refine ⟨fun _ => nofun, fun hc _ _ => ?_⟩
    rcases hop with rfl | rfl
    · rfl
    · cases hc
  | _ => exact ⟨fun _ => nofun, fun _ _ => nofun⟩

theorem RingMutexMpmcQueueV3.counts_consumers (capacity : Nat) :
    CountsWaiters (monitor (T := T) capacity) Ring.waitingConsumers RingOp.consumes .notEmpty
      (fun op r x => op.pushes = true ∧ x = .pushed true ∧ r.size = 0) := by
  apply CountsWaiters.of_count
  · exact fun hx => (wait_cv hx).1
  · exact fun Tid _ _ s hr => (waiting hr).1
  · rintro op w r d held later x hx ⟨hop, hres, hempty⟩ hlater
    rw [(told hx).1 hop hres] at hlater
    unfold notifyConsumer at hlater
    by_cases h : r.waitingConsumers = 0
    · exact h
    · rw [if_pos ⟨hempty, Nat.pos_of_ne_zero h⟩] at hlater
      exact absurd (List.mem_singleton_self _) hlater

theorem RingMutexMpmcQueueV3.counts_producers (capacity : Nat) :
    CountsWaiters (monitor (T := T) capacity) Ring.waitingProducers RingOp.produces .notFull
      (fun op r x => op.consumes = true ∧ (∃ y, x = .popped (some y)) ∧ r.size = r.capacity) := by
  apply CountsWaiters.of_count
  · exact fun hx => (wait_cv hx).2
  · exact fun Tid _ _ s hr => (waiting hr).2
  · rintro op w r d held later x hx ⟨hop, ⟨y, hres⟩, hfull⟩ hlater
    rw [(told hx).2 hop y hres] at hlater
    unfold notifyProducer at hlater
    by_cases h : r.waitingProducers = 0
    · exact h
    · rw [if_pos ⟨hfull, Nat.pos_of_ne_zero h⟩] at hlater
      exact absurd (List.mem_singleton_self _) hlater

end

/-- **V3's waiter counters are exact**: that of each deque queue, and both of the ring. -/
theorem waiter_counts_exact [Elem T] (capacity : Nat) :
    CountsWaiters (MutexDequeQueueV3.monitor (T := T)) Deque.waitingConsumers DequeOp.waits .cv
      (fun op d r => op.pushes = true ∧ r = .pushed true ∧ d.queue = []) ∧
    CountsWaiters (MutexDequeMpmcQueueV3.monitor (T := T)) Deque.waitingConsumers DequeOp.waits .cv
      (fun op _ r => op.pushes = true ∧ r = .pushed true) ∧
    CountsWaiters (RingMutexMpmcQueueV3.monitor (T := T) capacity) Ring.waitingConsumers RingOp.consumes .notEmpty
      (fun op r x => op.pushes = true ∧ x = .pushed true ∧ r.size = 0) ∧
    CountsWaiters (RingMutexMpmcQueueV3.monitor (T := T) capacity) Ring.waitingProducers RingOp.produces .notFull
      (fun op r x => op.consumes = true ∧ (∃ y, x = .popped (some y)) ∧ r.size = r.capacity) := by
  refine ⟨?_, ?_, RingMutexMpmcQueueV3.counts_consumers capacity, RingMutexMpmcQueueV3.counts_producers capacity⟩
  · apply deque_counts MutexDequeQueueV3.emplace_eq
    · exact fun op d r h => ⟨h.1, h.2.1⟩
    · rintro op d r ⟨-, -, hq⟩ hn
      rw [hq] at hn
      exact Nat.eq_zero_of_not_pos (of_decide_eq_false hn)
  · apply deque_counts MutexDequeMpmcQueueV3.emplace_eq
    · exact fun op d r h => h
    · intro op d r _ hn
      exact Nat.eq_zero_of_not_pos (of_decide_eq_false hn)

end Yutil
