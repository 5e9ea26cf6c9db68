import Yutil.Closing

/-!
# One blocking consumer

`MutexDequeQueueV2` notifies for the push that finds `queue_` empty, and
`MutexDequeQueueV3` for that one when its counter is up. With one thread at a
time inside `wait_pop` nothing more is needed: it went to sleep on an empty
queue, so the first push after that still owes it the `notify_one`, however
much is pushed and popped by others in between.
-/

namespace Yutil

open Interleave Monitor

variable {T : Type}

section
variable {Tid : Type}

def OneConsumer (s : State Tid (Deque T) (DequeOp T) Cv (Res T)) : Prop :=
  ∀ t u a b, (s.pc t).op? = some (.waitPop a) → (s.pc u).op? = some (.waitPop b) → t = u

/-- A push has yet to notify one thread, or a `close` everybody. -/
def NotifyOutstanding (s : State Tid (Deque T) (DequeOp T) Cv (Res T)) : Prop :=
  ∃ t op todo r, s.pc t = .leaving op todo r ∧ (op.pushes = true ∧ .one .cv ∈ todo ∨ op = .close ∧ .all .cv ∈ todo)

end

/-- In every run with at most one thread inside `wait_pop` at a time, a consumer
asleep next to an item, or in a closed queue, has a notification coming. -/
def WakesLoneConsumer (M : Monitor (Deque T) (DequeOp T) Cv (Res T)) : Prop :=
  ∀ (Tid : Type) [DecidableEq Tid] [Fintype Tid] (n : Nat) (r : Run (M.machine fun (_ : Tid) _ => true) n),
    (∀ i, i ≤ n → OneConsumer (r.st i)) → ∀ i, i ≤ n → ∀ t op c, (r.st i).pc t = .asleep op c →
      (r.st i).data.queue ≠ [] ∨ (r.st i).data.closed = true → NotifyOutstanding (r.st i)

section
variable {Tid : Type} [DecidableEq Tid] [Fintype Tid] {emplace : Built T → Deque T → Exit (Deque T) Cv (Res T)}
  {waitPop : Bool → Bool → Deque T → Exit (Deque T) Cv (Res T)} {shouldNotify : Deque T → Bool}
  {calls : Tid → DequeOp T → Bool} {s s' : State Tid (Deque T) (DequeOp T) Cv (Res T)} {a : Label Tid (DequeOp T)}

theorem deque_sleeper (he : ∀ b d, emplace b d = d.emplaceWith (shouldNotify d) b) (hw : Waits waitPop)
    (hr : ((Deque.monitor emplace waitPop).machine calls).Reachable s) {t : Tid} {op : DequeOp T} {c : Cv}
    (ht : s.pc t = .asleep op c) : c = .cv ∧ ∃ a, (s.pc t).op? = some (.waitPop a) := by
  obtain ⟨w, d, d', hx⟩ := op_sleeps hr (.inl ht)
  obtain ⟨hop, hc, -⟩ := deque_sleeps he hw hx
  rw [ht]
  cases op with
  | waitPop a => exact ⟨hc, a, rfl⟩
  | _ => cases hop

theorem deque_attended_step (he : ∀ b d, emplace b d = d.emplaceWith (shouldNotify d) b) (hw : Waits waitPop)
    (hr : ((Deque.monitor emplace waitPop).machine calls).Reachable s)
    (hn : ∀ t op, s.pc t = .asleep op .cv → s.data.queue = [] → shouldNotify s.data = true) (hone : OneConsumer s)
    (hs : (Deque.monitor emplace waitPop).step calls s a = some s')
    (h : Attended (fun op : DequeOp T => op.pushes = true) .cv (·.queue = []) s) :
    Attended (fun op : DequeOp T => op.pushes = true) .cv (·.queue = []) s' := by
  refine Attended.step (step_spec hs) ?_ ?_ ?_ h
  · intro t u op op' ht hu
    obtain ⟨-, a, ha⟩ := deque_sleeper he hw hr ht
    obtain ⟨-, b, hb⟩ := deque_sleeper he hw hr hu
    exact hone t u a b ha hb
  · intro t op w d c _ hx
    exact (deque_sleeps he hw hx).2.2
  · intro t op w d held later r u op' _ hx hu hempty
    have pops : ∀ (d₁ : Deque T) a, d₁.queue = s.data.queue → d₁.popFront a = .leave d held later r → d.queue = [] := by
      intro d₁ a hq hx
      rw [hempty] at hq
      rcases popFront_leaves hx with ⟨-, h2⟩ | ⟨-, h2⟩ | ⟨-, h2, -⟩
      · exact h2
      · rw [hq] at h2
        cases h2
      · exact absurd hq h2
    cases op with
    | emplace b =>
      have hx := (he b s.data).symm.trans hx
      rw [hn u op' hu hempty] at hx
      unfold Deque.emplaceWith at hx
      split at hx
      · cases hx
        exact .inl hempty
      · cases b with
        | throws _ =>
          cases hx
          exact .inl hempty
        | value v =>
          cases hx
          exact .inr ⟨rfl, List.mem_singleton_self _⟩
    | waitPop a =>
      rcases hw a w s.data with ⟨d₁, h1, -⟩ | ⟨d₁, h1, h2⟩
      · cases h1.symm.trans hx
      · exact .inl (pops d₁ a h1 (h2.symm.trans hx))
    | tryPop a => exact .inl (pops s.data a rfl hx)
    | close =>
      cases hx
      exact .inl hempty

end

section
variable {emplace : Built T → Deque T → Exit (Deque T) Cv (Res T)}
  {waitPop : Bool → Bool → Deque T → Exit (Deque T) Cv (Res T)} {shouldNotify : Deque T → Bool}

theorem deque_wakes_lone_consumer (he : ∀ b d, emplace b d = d.emplaceWith (shouldNotify d) b) (hw : Waits waitPop)
    (ho : WaitsOpen waitPop)
    (hn : ∀ (Tid : Type) [DecidableEq Tid] [Fintype Tid] (s : State Tid (Deque T) (DequeOp T) Cv (Res T)),
      ((Deque.monitor emplace waitPop).machine fun (_ : Tid) _ => true).Reachable s →
      ∀ t op, s.pc t = .asleep op .cv → s.data.queue = [] → shouldNotify s.data = true) :
    WakesLoneConsumer (Deque.monitor emplace waitPop) := by
  intro Tid _ _ n r hone i hi t op c ht hready
  have hr := r.reachable i hi
  obtain ⟨rfl, -⟩ := deque_sleeper he hw hr ht
  have hattended : Attended (fun op : DequeOp T => op.pushes = true) .cv (·.queue = []) (r.st i) := by
    refine r.persists (Attended (fun op : DequeOp T => op.pushes = true) .cv (·.queue = [])) (Nat.zero_le i)
      (fun j _ hj h => ?_) ?_
    · exact deque_attended_step he hw (r.reachable j (by omega)) (hn Tid _ (r.reachable j (by omega))) (hone j (by omega))
        (r.step j (by omega)) h
    · rw [r.start]
      intro t op ht
      cases ht
  rcases hready with hq | hc
  · rcases hattended t op ht with h | ⟨u, op', todo, x, hp, hu, hm⟩
    · exact absurd h hq
    · exact ⟨u, op', todo, x, hu, .inl ⟨hp, hm⟩⟩
  · obtain ⟨u, op', todo, x, hp, hu, hm⟩ := (deque_closes he hw ho).owed hr hc ht
    exact ⟨u, op', todo, x, hu, .inr ⟨hp, hm⟩⟩

end

/-- **Notifying on the empty-to-non-empty edge is enough for one consumer**, in `V2` and `V3`. -/
theorem lone_consumer_woken : WakesLoneConsumer (MutexDequeQueueV2.monitor (T := T)) ∧
    WakesLoneConsumer (MutexDequeQueueV3.monitor (T := T)) := by
  constructor
  · apply deque_wakes_lone_consumer MutexDequeQueueV2.emplace_eq waits_waitPop waitPop_open
    intro Tid _ _ s _ t op _ hq
    rw [hq]
    rfl
  · apply deque_wakes_lone_consumer MutexDequeQueueV3.emplace_eq waits_waitPopCounting waitPopCounting_open
    intro Tid _ _ s hr t op ht hq
    -- the sleeper itself holds the counter up
    have hle := weight_le_total (insideOn .cv) s.pc t
    rw [← waiting_consumers MutexDequeQueueV3.emplace_eq hr, ht, insideOn, if_pos rfl] at hle
    rw [hq]
    exact decide_eq_true hle

end Yutil
