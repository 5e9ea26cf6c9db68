import Yutil.Immediate
import Yutil.QueueHistories

/-!
# The blocking queues as objects

To its callers each of the blocking queues is one FIFO that answers at once:
it has the histories of that object and no others. So whom the versions
notify, and when, is not seen in any history.
-/

namespace Yutil

open Interleave Monitor

variable {T : Type}

def Fifo.object (T : Type) (capacity : Nat) : Immediate (Fifo T) (RingOp T) (Res T) := ⟨Fifo.empty, fun op f => f.call capacity op⟩

def Fifo.unbounded (T : Type) : Immediate (Fifo T) (DequeOp T) (Res T) :=
  ⟨Fifo.empty, fun op f => f.call (f.items.length + 1) op.toRing⟩

/-- To its callers the monitor is the object. -/
def LooksLike {D S Op R : Type} (M : Monitor D Op Cv R) (O : Immediate S Op R) : Prop :=
  ∀ (Tid : Type) [DecidableEq Tid] [Fintype Tid] (calls : Tid → Op → Bool) (log : List (Tid × Moment Op (Op × R) R)),
    (M.observed calls).Shows log ↔ (O.observed calls).Shows log

/-! ## The deque queues -/

section
variable {emplace : Built T → Deque T → Exit (Deque T) Cv (Res T)}
  {waitPop : Bool → Bool → Deque T → Exit (Deque T) Cv (Res T)} {shouldNotify : Deque T → Bool}

theorem deque_sleep_unanswered (he : ∀ b d, emplace b d = d.emplaceWith (shouldNotify d) b) (hw : Waits waitPop)
    (ho : WaitsOpen waitPop) (hok : ∀ a w (d : Deque T), d.Ok (.waitPop a) (waitPop a w d)) {op : DequeOp T} {w : Bool}
    {d d' : Deque T} {c : Cv} (hx : (Deque.monitor emplace waitPop).sect op w d = .sleep d' c) :
    (Fifo.unbounded T).answer op d.abs = none := by
  obtain ⟨hop, -, hempty⟩ := deque_sleeps he hw hx
  have habs := deque_sleep_keeps he hok hx
  cases op with
  | waitPop a =>
    have hclosed : d.closed = false := by
      rcases ho a w d with ⟨d₁, -, hc, -⟩ | ⟨d₁, -, -, h1⟩
      · exact hc
      · exact absurd (h1.symm.trans hx) (popFront_no_sleep _ _ _ _)
    have hitems : d.abs.items = [] := by
      rw [← habs]
      exact hempty
    have hopen : d.abs.closed = false := hclosed
    simp [Fifo.unbounded, Fifo.call, DequeOp.toRing, hitems, hopen]
  | _ => cases hop

theorem deque_realizes (he : ∀ b d, emplace b d = d.emplaceWith (shouldNotify d) b) (hw : Waits waitPop)
    (ho : WaitsOpen waitPop) (hok : ∀ a w (d : Deque T), d.Ok (.waitPop a) (waitPop a w d)) :
    (Deque.monitor emplace waitPop).Realizes (Fifo.unbounded T) (fun _ => True) Deque.abs where
  start := trivial
  value := rfl
  sleep _ hx := ⟨trivial, deque_sleep_keeps he hok hx, deque_sleep_unanswered he hw ho hok hx⟩
  leave _ hx := ⟨trivial, deque_leave_gives he ho hok hx⟩

theorem deque_looks_waitPop (he : ∀ b d, emplace b d = d.emplaceWith (shouldNotify d) b) :
    LooksLike (Deque.monitor emplace Deque.waitPop) (Fifo.unbounded T) := fun _ _ _ _ _ =>
  (deque_realizes he waits_waitPop waitPop_open waitPop_ok).shows

theorem deque_looks_waitPopCounting (he : ∀ b d, emplace b d = d.emplaceWith (shouldNotify d) b) :
    LooksLike (Deque.monitor emplace Deque.waitPopCounting) (Fifo.unbounded T) := fun _ _ _ _ _ =>
  (deque_realizes he waits_waitPopCounting waitPopCounting_open waitPopCounting_ok).shows

end

/-! ## The rings -/

section
variable [Elem T]

theorem ring_realizes (version : RingVersion) (requested : Nat) :
    (version.monitor T requested).Realizes (Fifo.object T (Ring.new (T := T) requested).capacity)
      (fun r => r.WF ∧ r.capacity = (Ring.new (T := T) requested).capacity) Ring.abs where
  start := by
    rw [RingVersion.start_eq]
    exact ⟨Ring.wf_new requested, rfl⟩
  value := by
    rw [RingVersion.start_eq]
    exact abs_new requested
  sleep := by
    intro op w d d' c hI hx
    have hok := RingVersion.sect_ok version requested op w hI.1
    have hanswer := RingVersion.answers version requested op w hI.1
    rw [hx] at hok hanswer
    refine ⟨⟨hok.1, hok.2.2.trans hI.2⟩, hok.2.1, ?_⟩
    rw [← hI.2]
    exact hanswer.symm
  leave := by
    intro op w d d' held later r hI hx
    have hok := RingVersion.sect_ok version requested op w hI.1
    have hanswer := RingVersion.answers version requested op w hI.1
    rw [hx] at hok hanswer
    refine ⟨⟨hok.1, hok.2.2.trans hI.2⟩, ?_⟩
    rw [← hI.2]
    exact hanswer.symm

/-- **The blocking queues look like FIFO objects.** -/
theorem blocking_queues_look_alike (requested : Nat) :
    LooksLike MutexBlockingQueue.monitor (Fifo.unbounded T) ∧ LooksLike MutexDequeQueueV1.monitor (Fifo.unbounded T) ∧
    LooksLike MutexDequeQueueV2.monitor (Fifo.unbounded T) ∧ LooksLike MutexDequeQueueV3.monitor (Fifo.unbounded T) ∧
    LooksLike MutexDequeMpmcQueueV1.monitor (Fifo.unbounded T) ∧ LooksLike MutexDequeMpmcQueueV2.monitor (Fifo.unbounded T) ∧
    LooksLike MutexDequeMpmcQueueV3.monitor (Fifo.unbounded T) ∧
    ∀ version : RingVersion, LooksLike (version.monitor T requested) (Fifo.object T (Ring.new (T := T) requested).capacity) :=
  ⟨deque_looks_waitPop MutexBlockingQueue.emplace_eq, deque_looks_waitPop MutexDequeQueueV1.emplace_eq,
    deque_looks_waitPop MutexDequeQueueV2.emplace_eq, deque_looks_waitPopCounting MutexDequeQueueV3.emplace_eq,
    deque_looks_waitPop MutexDequeMpmcQueueV1.emplace_eq, deque_looks_waitPop MutexDequeMpmcQueueV2.emplace_eq,
    deque_looks_waitPopCounting MutexDequeMpmcQueueV3.emplace_eq, fun version _ _ _ _ _ => (ring_realizes version requested).shows⟩

end

end Yutil
