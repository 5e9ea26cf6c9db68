import Yutil.Fifo

/-!
# The mutex-and-deque queues

`MutexBlockingQueue`, `MutexDequeQueueV1` to `V3` and `MutexDequeMpmcQueueV1`
to `V3` share one critical section for each operation. They differ in when
`emplace` notifies and in whether `wait_pop` counts its sleepers.
-/

namespace Yutil

open Interleave

variable {T : Type}

/-- `queue_`, `closed_`, and V3's `waiting_consumers_` (zero in the other classes). -/
structure Deque (T : Type) where
  queue : List T
  closed : Bool
  waitingConsumers : Nat
  deriving DecidableEq

/-- The calls; `assigns` says whether `out = std::move(queue_.front())` completes. -/
inductive DequeOp (T : Type)
  | emplace (b : Built T)
  | waitPop (assigns : Bool)
  | tryPop (assigns : Bool)
  | close

def DequeOp.noThrow : DequeOp T → Bool
  | .emplace b => !b.throwing
  | .waitPop assigns => assigns
  | .tryPop assigns => assigns
  | .close => true

def DequeOp.event : DequeOp T → Res T → Event T
  | .emplace (.value v), .pushed true => .accept v
  | .emplace _, .pushed false => .refuse
  | .waitPop _, .popped none => .finish
  | .tryPop _, .popped none => .miss
  | .waitPop _, .popped (some v) => .take v
  | .tryPop _, .popped (some v) => .take v
  | .close, .closed => .shut
  | _, _ => .fail

namespace Deque

/-- `emplace`: `emplace_back` has no effect when it throws. -/
def emplaceWith (shouldNotify : Bool) (b : Built T) (d : Deque T) : Exit (Deque T) Cv (Res T) :=
  if d.closed then .leave d none [] (.pushed false)
  else
    match b with
    | .throws _ => .leave d none [] .threw
    | .value v =>
      .leave { d with queue := d.queue ++ [v] } none (if shouldNotify then [.one .cv] else []) (.pushed true)

def popFront (assigns : Bool) (d : Deque T) : Exit (Deque T) Cv (Res T) :=
  match d.queue with
  | [] => .leave d none [] (.popped none)
  | v :: rest =>
    if assigns then .leave { d with queue := rest } none [] (.popped (some v)) else .leave d none [] .threw

def waitPop (assigns _woken : Bool) (d : Deque T) : Exit (Deque T) Cv (Res T) :=
  if d.closed || !d.queue.isEmpty then d.popFront assigns else .sleep d .cv

/-- V3's `wait_pop`: its loop counts each sleep. -/
def waitPopCounting (assigns woken : Bool) (d : Deque T) : Exit (Deque T) Cv (Res T) :=
  let d := if woken then { d with waitingConsumers := d.waitingConsumers - 1 } else d
  if d.queue.isEmpty && !d.closed then .sleep { d with waitingConsumers := d.waitingConsumers + 1 } .cv
  else d.popFront assigns

def close (d : Deque T) : Exit (Deque T) Cv (Res T) := .leave { d with closed := true } none [.all .cv] .closed

def monitor (emplace : Built T → Deque T → Exit (Deque T) Cv (Res T))
    (waitPop : Bool → Bool → Deque T → Exit (Deque T) Cv (Res T)) : Monitor (Deque T) (DequeOp T) Cv (Res T) where
  start := ⟨[], false, 0⟩
  sect op woken d :=
    match op with
    | .emplace b => emplace b d
    | .waitPop assigns => waitPop assigns woken d
    | .tryPop assigns => d.popFront assigns
    | .close => d.close

end Deque

/-! ## The classes -/

namespace MutexBlockingQueue

def emplace (b : Built T) (d : Deque T) : Exit (Deque T) Cv (Res T) := d.emplaceWith true b

def monitor : Monitor (Deque T) (DequeOp T) Cv (Res T) := Deque.monitor emplace Deque.waitPop

theorem emplace_eq (b : Built T) (d : Deque T) : emplace b d = d.emplaceWith true b := rfl

end MutexBlockingQueue

namespace MutexDequeQueueV1

def emplace (b : Built T) (d : Deque T) : Exit (Deque T) Cv (Res T) := d.emplaceWith true b

def monitor : Monitor (Deque T) (DequeOp T) Cv (Res T) := Deque.monitor emplace Deque.waitPop

theorem emplace_eq (b : Built T) (d : Deque T) : emplace b d = d.emplaceWith true b := rfl

end MutexDequeQueueV1

namespace MutexDequeQueueV2

def emplace (b : Built T) (d : Deque T) : Exit (Deque T) Cv (Res T) := d.emplaceWith d.queue.isEmpty b

def monitor : Monitor (Deque T) (DequeOp T) Cv (Res T) := Deque.monitor emplace Deque.waitPop

theorem emplace_eq (b : Built T) (d : Deque T) : emplace b d = d.emplaceWith d.queue.isEmpty b := rfl

end MutexDequeQueueV2

namespace MutexDequeQueueV3

def emplace (b : Built T) (d : Deque T) : Exit (Deque T) Cv (Res T) :=
  d.emplaceWith (d.queue.isEmpty && decide (d.waitingConsumers > 0)) b

def monitor : Monitor (Deque T) (DequeOp T) Cv (Res T) := Deque.monitor emplace Deque.waitPopCounting

theorem emplace_eq (b : Built T) (d : Deque T) : emplace b d = d.emplaceWith (d.queue.isEmpty && decide (d.waitingConsumers > 0)) b := rfl

end MutexDequeQueueV3

namespace MutexDequeMpmcQueueV1

def emplace (b : Built T) (d : Deque T) : Exit (Deque T) Cv (Res T) := d.emplaceWith true b

def monitor : Monitor (Deque T) (DequeOp T) Cv (Res T) := Deque.monitor emplace Deque.waitPop

theorem emplace_eq (b : Built T) (d : Deque T) : emplace b d = d.emplaceWith true b := rfl

end MutexDequeMpmcQueueV1

namespace MutexDequeMpmcQueueV2

def emplace (b : Built T) (d : Deque T) : Exit (Deque T) Cv (Res T) := d.emplaceWith d.queue.isEmpty b

def monitor : Monitor (Deque T) (DequeOp T) Cv (Res T) := Deque.monitor emplace Deque.waitPop

theorem emplace_eq (b : Built T) (d : Deque T) : emplace b d = d.emplaceWith d.queue.isEmpty b := rfl

end MutexDequeMpmcQueueV2

/-- `MutexDequeMpmcQueueBaseline` is an alias of `V2`. -/
def MutexDequeMpmcQueueBaseline.monitor : Monitor (Deque T) (DequeOp T) Cv (Res T) := MutexDequeMpmcQueueV2.monitor

namespace MutexDequeMpmcQueueV3

def emplace (b : Built T) (d : Deque T) : Exit (Deque T) Cv (Res T) := d.emplaceWith (d.waitingConsumers > 0) b

def monitor : Monitor (Deque T) (DequeOp T) Cv (Res T) := Deque.monitor emplace Deque.waitPopCounting

theorem emplace_eq (b : Built T) (d : Deque T) : emplace b d = d.emplaceWith (d.waitingConsumers > 0) b := rfl

end MutexDequeMpmcQueueV3

/-! ## They implement the unbounded FIFO -/

def Deque.abs (d : Deque T) : Fifo T := ⟨d.queue, d.closed⟩

def unbounded (_ : Nat) : Prop := True

def Deque.Ok (op : DequeOp T) (d : Deque T) : Exit (Deque T) Cv (Res T) → Prop
  | .sleep d' _ => d'.abs = d.abs
  | .leave d' _ _ r => d.abs.Does unbounded (op.event r) d'.abs

theorem emplaceWith_ok (n : Bool) (b : Built T) (d : Deque T) : d.Ok (.emplace b) (d.emplaceWith n b) := by
  obtain ⟨q, c, w⟩ := d
  cases c with
  | true => cases b <;> exact .refuse (.inl rfl)
  | false =>
    cases b with
    | throws _ => exact .fail
    | value v => exact .accept trivial

theorem popFront_ok {op : DequeOp T} (assigns : Bool) (d : Deque T)
    (hop : op = .tryPop assigns ∨ op = .waitPop assigns ∧ (d.queue = [] → d.closed = true)) :
    d.Ok op (d.popFront assigns) := by
  obtain ⟨q, c, w⟩ := d
  cases q with
  | nil =>
    rcases hop with rfl | ⟨rfl, hc⟩
    · exact .miss
    · cases hc rfl; exact .finish
  | cons v rest =>
    cases assigns with
    | true => rcases hop with rfl | ⟨rfl, -⟩ <;> exact .take
    | false => rcases hop with rfl | ⟨rfl, -⟩ <;> exact .fail

theorem waitPop_ok (assigns woken : Bool) (d : Deque T) : d.Ok (.waitPop assigns) (d.waitPop assigns woken) := by
  unfold Deque.waitPop
  split
  · rename_i h
    refine popFront_ok assigns d (.inr ⟨rfl, fun hq => ?_⟩)
    simpa [hq] using h
  · rfl

theorem waitPopCounting_ok (assigns woken : Bool) (d : Deque T) :
    d.Ok (.waitPop assigns) (d.waitPopCounting assigns woken) := by
  obtain ⟨q, c, w⟩ := d
  have key : ∀ w', (⟨q, c, w'⟩ : Deque T).Ok (.waitPop assigns)
      (if q.isEmpty && !c then .sleep ⟨q, c, w' + 1⟩ .cv else (⟨q, c, w'⟩ : Deque T).popFront assigns) := by
    intro w'
    split
    · rfl
    · rename_i h
      refine popFront_ok assigns _ (.inr ⟨rfl, fun hq => ?_⟩)
      simp only at hq
      simpa [hq] using h
  cases woken with
  | true => exact key (w - 1)
  | false => exact key w

theorem deque_refines {emplace : Built T → Deque T → Exit (Deque T) Cv (Res T)}
    {waitPop : Bool → Bool → Deque T → Exit (Deque T) Cv (Res T)}
    (he : ∀ b (d : Deque T), d.Ok (.emplace b) (emplace b d))
    (hw : ∀ a w (d : Deque T), d.Ok (.waitPop a) (waitPop a w d)) :
    Refines (Deque.monitor emplace waitPop) DequeOp.event unbounded (fun _ => True) Deque.abs := by
  have ok : ∀ op w (d : Deque T), d.Ok op ((Deque.monitor emplace waitPop).sect op w d) := by
    intro op w d
    cases op with
    | emplace b => exact he b d
    | waitPop a => exact hw a w d
    | tryPop a => exact popFront_ok a d (.inl rfl)
    | close => exact .shut
  refine ⟨trivial, rfl, fun {op w d d' _} _ h => ⟨trivial, ?_⟩, fun {op w d d' held later r} _ h => ⟨trivial, ?_⟩⟩
  · have := ok op w d; rw [h] at this; exact this
  · have := ok op w d; rw [h] at this; exact this

end Yutil
