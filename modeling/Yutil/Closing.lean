import Yutil.DequeWakeups
import Yutil.RingSides

/-!
# Closing the blocking queues

`close()` sets `closed_` under the mutex and notifies everybody after the
unlock, on each condition variable. All the queues release their sleepers
this way: who still sleeps in a closed queue has the `notify_all` of some
`close()` coming, nobody goes to sleep any more, and a push or a pop that gets
the lock returns.
-/

namespace Yutil

open Interleave Monitor

variable {T : Type}

/-! ## What closing promises -/

section
variable {D Op : Type} (M : Monitor D Op Cv (Res T)) (closed : D → Bool) (left : D → Nat) (close : Op)
  (pushes pops : Op → Bool)

/-- In a reachable closed state of any threads: a sleeper has the `notify_all`
of a `close` coming; a step sends nobody to sleep, and the queue stays closed;
and a section that a push or a pop runs is its last one, with `false` for a push,
and with `false` for a pop exactly when nothing is left. -/
def ReleasesSleepers : Prop :=
  ∀ (Tid : Type) [DecidableEq Tid] [Fintype Tid] (s : State Tid D Op Cv (Res T)),
    (M.machine fun (_ : Tid) _ => true).Reachable s → closed s.data = true →
    (∀ u op v, s.pc u = .asleep op v → ∃ t todo r, s.pc t = .leaving close todo r ∧ .all v ∈ todo) ∧
    ∀ a s', M.step (fun _ _ => true) s a = some s' →
      closed s'.data = true ∧ (∀ u op v, s'.pc u = .asleep op v → s.pc u = .asleep op v) ∧
      ∀ t pick op, a = .acquire t pick → (s.pc t).op? = some op → ∃ todo r, s'.pc t = .leaving op todo r ∧
        (pushes op = true → r = .pushed false) ∧ (pops op = true → (r = .popped none ↔ left s.data = 0))

def NobodySleepsAfter : Prop :=
  ∀ (Tid : Type) [DecidableEq Tid] [Fintype Tid] (n : Nat) (r : Run (M.machine fun (_ : Tid) _ => true) n) (i j : Nat)
    (t : Tid) (x : Res T), (r.st i).pc t = .leaving close [] x → i ≤ j → j ≤ n → ∀ u op v, (r.st j).pc u ≠ .asleep op v

variable {M closed left close pushes pops}

theorem Closes.releases (h : Closes M closed close)
    (hpush : ∀ op w d d' held later r, closed d = true → pushes op = true → M.sect op w d = .leave d' held later r →
      r = .pushed false)
    (hpop : ∀ op w d d' held later r, closed d = true → pops op = true → M.sect op w d = .leave d' held later r →
      (r = .popped none ↔ left d = 0)) : ReleasesSleepers M closed left close pushes pops ∧ NobodySleepsAfter M close := by
  constructor
  · intro Tid _ _ s hr hc
    constructor
    · intro u op v hu
      obtain ⟨t, op', todo, r, rfl, ht, hm⟩ := h.owed hr hc hu
      exact ⟨t, todo, r, ht, hm⟩
    · intro a s' hs
      have hs := step_spec hs
      refine ⟨h.step_closed hs hc, fun u op v hu => h.no_sleeper hs hc hu, ?_⟩
      intro t pick op ha hop
      subst ha
      cases hs with
      | sleep hready hx =>
        have := (h.sleep hx).1
        rw [hc] at this
        cases this
      | @leave _ _ op' w d held later r pc hready hx hd =>
        obtain rfl : op' = op := Option.some.inj ((ready_op? hready).symm.trans hop)
        exact ⟨later, r, Function.update_self .., fun hp => hpush _ _ _ _ _ _ _ hc hp hx,
          fun hp => hpop _ _ _ _ _ _ _ hc hp hx⟩
  · intro Tid _ _ n r i j t x ht hij hj
    exact h.nobody_sleeps r ht hij hj

end

/-! ## The deque queues -/

def DequeOp.pushes : DequeOp T → Bool
  | .emplace _ => true
  | _ => false

def DequeOp.pops : DequeOp T → Bool
  | .waitPop _ | .tryPop _ => true
  | _ => false

/-- How the two forms of `wait_pop` end, with what they do to `closed_`. -/
def WaitsOpen (waitPop : Bool → Bool → Deque T → Exit (Deque T) Cv (Res T)) : Prop :=
  ∀ a w d, (∃ d' : Deque T, waitPop a w d = .sleep d' .cv ∧ d.closed = false ∧ d'.closed = false) ∨
    ∃ d' : Deque T, d'.queue = d.queue ∧ d'.closed = d.closed ∧ waitPop a w d = d'.popFront a

theorem waitPop_open : WaitsOpen (Deque.waitPop (T := T)) := by
  intro a w d
  unfold Deque.waitPop
  split
  · exact .inr ⟨d, rfl, rfl, rfl⟩
  · rename_i h
    simp only [Bool.or_eq_true, not_or, Bool.not_eq_true] at h
    exact .inl ⟨d, rfl, h.1, h.1⟩

theorem waitPopCounting_open : WaitsOpen (Deque.waitPopCounting (T := T)) := by
  intro a w ⟨q, c, n⟩
  have key : ∀ n', (∃ d' : Deque T, (if q.isEmpty && !c then .sleep ⟨q, c, n' + 1⟩ .cv
        else (⟨q, c, n'⟩ : Deque T).popFront a) = .sleep d' .cv ∧ c = false ∧ d'.closed = false) ∨
      ∃ d' : Deque T, d'.queue = q ∧ d'.closed = c ∧ (if q.isEmpty && !c then .sleep ⟨q, c, n' + 1⟩ .cv
        else (⟨q, c, n'⟩ : Deque T).popFront a) = d'.popFront a := by
    intro n'
    split
    · rename_i h
      simp only [Bool.and_eq_true, Bool.not_eq_true'] at h
      exact .inl ⟨_, rfl, h.2, h.2⟩
    · exact .inr ⟨_, rfl, rfl, rfl⟩
  cases w with
  | true => exact key (n - 1)
  | false => exact key n

theorem popFront_closed {d d' : Deque T} {a : Bool} {held : Option (Notify Cv)} {later : List (Notify Cv)} {r : Res T}
    (h : d.popFront a = .leave d' held later r) : d'.closed = d.closed ∧ (r = .popped none ↔ d.queue.length = 0) := by
  unfold Deque.popFront at h
  cases hq : d.queue with
  | nil =>
    rw [hq] at h
    cases h
    simp
  | cons v rest =>
    rw [hq] at h
    cases a <;> cases h <;> simp

section
variable {emplace : Built T → Deque T → Exit (Deque T) Cv (Res T)}
  {waitPop : Bool → Bool → Deque T → Exit (Deque T) Cv (Res T)} {shouldNotify : Deque T → Bool}

theorem emplaceWith_closed {n : Bool} {b : Built T} {d d' : Deque T} {held : Option (Notify Cv)} {later : List (Notify Cv)}
    {r : Res T} (h : d.emplaceWith n b = .leave d' held later r) :
    d'.closed = d.closed ∧ (d.closed = true → r = .pushed false) := by
  unfold Deque.emplaceWith at h
  split at h
  · rename_i hc
    cases h
    exact ⟨rfl, fun _ => rfl⟩
  · rename_i hc
    refine ⟨?_, fun h => absurd h hc⟩
    cases b <;> cases h <;> rfl

theorem deque_leave_closed (he : ∀ b d, emplace b d = d.emplaceWith (shouldNotify d) b) (ho : WaitsOpen waitPop)
    {op : DequeOp T} {w : Bool} {d d' : Deque T} {held : Option (Notify Cv)} {later : List (Notify Cv)} {r : Res T}
    (hx : (Deque.monitor emplace waitPop).sect op w d = .leave d' held later r) :
    d'.closed = d.closed ∨ op = .close ∧ d'.closed = true := by
  cases op with
  | emplace b => exact .inl (emplaceWith_closed ((he b d).symm.trans hx)).1
  | waitPop a =>
    rcases ho a w d with ⟨d₁, h1, -⟩ | ⟨d₁, -, h2, h1⟩
    · cases h1.symm.trans hx
    · exact .inl ((popFront_closed (h1.symm.trans hx)).1.trans h2)
  | tryPop a => exact .inl (popFront_closed hx).1
  | close => cases hx; exact .inr ⟨rfl, rfl⟩

theorem deque_closes (he : ∀ b d, emplace b d = d.emplaceWith (shouldNotify d) b) (hw : Waits waitPop)
    (ho : WaitsOpen waitPop) : Closes (Deque.monitor emplace waitPop) Deque.closed .close where
  sleep := by
    intro op w d d' v hx
    obtain ⟨hop, -, -⟩ := deque_sleeps he hw hx
    cases op with
    | waitPop a =>
      rcases ho a w d with ⟨d₁, h1, h2, h3⟩ | ⟨d₁, -, -, h1⟩
      · obtain ⟨rfl, -⟩ := Exit.sleep.inj (h1.symm.trans hx)
        exact ⟨h2, h3⟩
      · exact absurd (h1.symm.trans hx) (popFront_no_sleep _ _ _ _)
    | _ => cases hop
  stays := by
    intro op w d d' held later r hx hc
    rcases deque_leave_closed he ho hx with h | ⟨-, h⟩
    · exact h.trans hc
    · exact h
  only := by
    intro op w d d' held later r hx hc hc'
    rcases deque_leave_closed he ho hx with h | ⟨h, -⟩
    · rw [h, hc] at hc'
      cases hc'
    · exact h
  shuts := by
    intro w d d' held later r hx
    cases hx
    rfl
  owes := by
    intro w d d' held later r hx op w₁ d₁ d₂ v hx₁
    cases hx
    rw [(deque_sleeps he hw hx₁).2.1]
    exact List.mem_singleton_self _

theorem deque_releases (he : ∀ b d, emplace b d = d.emplaceWith (shouldNotify d) b) (hw : Waits waitPop)
    (ho : WaitsOpen waitPop) :
    ReleasesSleepers (Deque.monitor emplace waitPop) Deque.closed (·.queue.length) .close DequeOp.pushes DequeOp.pops ∧
    NobodySleepsAfter (Deque.monitor emplace waitPop) .close := by
  refine Closes.releases (deque_closes he hw ho) ?_ ?_
  · intro op w d d' held later r hc hp hx
    cases op with
    | emplace b => exact (emplaceWith_closed ((he b d).symm.trans hx)).2 hc
    | _ => cases hp
  · intro op w d d' held later r hc hp hx
    cases op with
    | waitPop a =>
      rcases ho a w d with ⟨d₁, h1, -⟩ | ⟨d₁, h2, -, h1⟩
      · cases h1.symm.trans hx
      · rw [← h2]
        exact (popFront_closed (h1.symm.trans hx)).2
    | tryPop a => exact (popFront_closed hx).2
    | _ => cases hp

end

/-! ## The ring queues -/

def RingOp.pushes : RingOp T → Bool
  | .emplace _ | .tryEmplace _ => true
  | _ => false

def RingOp.pops : RingOp T → Bool
  | .waitPop _ | .tryPop _ => true
  | _ => false

section
variable {M : Monitor (Ring T) (RingOp T) Cv (Res T)} {full empty : Cv}
  {tells : RingOp T → Ring T → Option (Notify Cv) × List (Notify Cv)}

theorem ring_shuts {r d : Ring T} {held : Option (Notify Cv)} {later : List (Notify Cv)} {x : Res T}
    (h : r.Sect full empty tells .close (.leave d held later x)) : d.closed = true ∧ later = (tells .close r).2 := by
  generalize hop : (RingOp.close : RingOp T) = op at h
  cases h with
  | shut _ _ hd => exact ⟨hd, rfl⟩
  | refused h _ | nothing h _ _ => subst hop; simp at h
  | pushed h _ _ _ _ _ | pushThrew h _ _ _ | popped h _ _ _ | popThrew h _ _ => subst hop; simp at h

theorem ring_closes (hM : ∀ op w (r : Ring T), r.Sect full empty tells op (M.sect op w r))
    (hall : ∀ r, .all full ∈ (tells .close r).2 ∧ .all empty ∈ (tells .close r).2) : Closes M Ring.closed .close where
  sleep := by
    intro op w d d' v hx
    have hsect := hM op w d
    rw [hx] at hsect
    obtain ⟨hc, hd, -⟩ := hsect.sleep
    exact ⟨hc, hd.closed.trans hc⟩
  stays := by
    intro op w d d' held later r hx hc
    have hsect := hM op w d
    rw [hx] at hsect
    exact hsect.stays_closed hc
  only := by
    intro op w d d' held later r hx hc hc'
    have hsect := hM op w d
    rw [hx] at hsect
    rcases hsect.leave.2 with hd | ⟨hop, -⟩
    · rw [hd, hc] at hc'
      cases hc'
    · exact hop
  shuts := by
    intro w d d' held later r hx
    have hsect := hM .close w d
    rw [hx] at hsect
    exact (ring_shuts hsect).1
  owes := by
    intro w d d' held later r hx op w₁ d₁ d₂ v hx₁
    have hlater : later = (tells .close d).2 := by
      have hsect := hM .close w d
      rw [hx] at hsect
      exact (ring_shuts hsect).2
    have hsleep := hM op w₁ d₁
    rw [hx₁] at hsleep
    rw [hlater]
    rcases hsleep.sleep.2.2 with rfl | rfl
    · exact (hall d).1
    · exact (hall d).2

theorem ring_releases (hM : ∀ op w (r : Ring T), r.Sect full empty tells op (M.sect op w r))
    (hall : ∀ r, .all full ∈ (tells .close r).2 ∧ .all empty ∈ (tells .close r).2) :
    ReleasesSleepers M Ring.closed Ring.size .close RingOp.pushes RingOp.pops ∧ NobodySleepsAfter M .close := by
  refine Closes.releases (ring_closes hM hall) ?_ ?_
  · intro op w d d' held later r hc hp hx
    have hsect := hM op w d
    rw [hx] at hsect
    cases hsect with
    | refused _ _ => rfl
    | pushed _ ho _ _ _ _ => rw [hc] at ho; cases ho
    | pushThrew _ ho _ _ => rw [hc] at ho; cases ho
    | nothing h _ _ => rcases h with ⟨rfl, -⟩ | rfl <;> cases hp
    | popped h _ _ _ | popThrew h _ _ => rcases h with rfl | rfl <;> cases hp
    | shut _ _ _ => cases hp
  · intro op w d d' held later r hc hp hx
    have hsect := hM op w d
    rw [hx] at hsect
    cases hsect with
    | nothing _ hz _ => exact ⟨fun _ => hz, fun _ => rfl⟩
    | popped _ h1 _ _ => simp; omega
    | popThrew _ hz _ => simp; omega
    | refused h _ => rcases h with ⟨rfl, -⟩ | ⟨rfl, -⟩ <;> cases hp
    | pushed h _ _ _ _ _ | pushThrew h _ _ _ => rcases h with rfl | rfl <;> cases hp
    | shut _ _ _ => cases hp

end

/-! ## The classes -/

def Deque.Releases (M : Monitor (Deque T) (DequeOp T) Cv (Res T)) : Prop :=
  ReleasesSleepers M Deque.closed (·.queue.length) .close DequeOp.pushes DequeOp.pops ∧ NobodySleepsAfter M .close

def Ring.Releases (M : Monitor (Ring T) (RingOp T) Cv (Res T)) : Prop :=
  ReleasesSleepers M Ring.closed Ring.size .close RingOp.pushes RingOp.pops ∧ NobodySleepsAfter M .close

/-- **`close()` releases every sleeper**, in all the blocking queues. -/
theorem close_releases_sleepers [Elem T] (capacity : Nat) :
    Deque.Releases (MutexBlockingQueue.monitor (T := T)) ∧ Deque.Releases (MutexDequeQueueV1.monitor (T := T)) ∧
    Deque.Releases (MutexDequeQueueV2.monitor (T := T)) ∧ Deque.Releases (MutexDequeQueueV3.monitor (T := T)) ∧
    Deque.Releases (MutexDequeMpmcQueueV1.monitor (T := T)) ∧ Deque.Releases (MutexDequeMpmcQueueV2.monitor (T := T)) ∧
    Deque.Releases (MutexDequeMpmcQueueV3.monitor (T := T)) ∧
    Ring.Releases (RingMutexMpmcQueueV1.monitor (T := T) capacity) ∧
    Ring.Releases (RingMutexMpmcQueueV2.monitor (T := T) capacity) ∧
    Ring.Releases (RingMutexMpmcQueueV3.monitor (T := T) capacity) := by
  refine ⟨?_, ?_, ?_, ?_, ?_, ?_, ?_, ?_, ?_, ?_⟩
  · exact deque_releases MutexBlockingQueue.emplace_eq waits_waitPop waitPop_open
  · exact deque_releases MutexDequeQueueV1.emplace_eq waits_waitPop waitPop_open
  · exact deque_releases MutexDequeQueueV2.emplace_eq waits_waitPop waitPop_open
  · exact deque_releases MutexDequeQueueV3.emplace_eq waits_waitPopCounting waitPopCounting_open
  · exact deque_releases MutexDequeMpmcQueueV1.emplace_eq waits_waitPop waitPop_open
  · exact deque_releases MutexDequeMpmcQueueV2.emplace_eq waits_waitPop waitPop_open
  · exact deque_releases MutexDequeMpmcQueueV3.emplace_eq waits_waitPopCounting waitPopCounting_open
  · exact ring_releases (RingMutexMpmcQueueV1.sect_spec capacity) fun r => by simp [RingMutexMpmcQueueV1.tells]
  · exact ring_releases (RingMutexMpmcQueueV2.sect_spec capacity) fun r => by simp [RingMutexMpmcQueueV2.tells]
  · exact ring_releases (RingMutexMpmcQueueV3.sect_spec capacity) fun r => by simp [RingMutexMpmcQueueV3.tells]

end Yutil
