import Yutil.DequeQueues
import Yutil.RingQueues

/-!
# Blocking queues deliver every accepted item before they report closed

The histories of a FIFO: what was taken is a prefix of what was accepted, and
a `wait_pop` that returned `false` splits the history into a part in which
everything accepted was taken and a part in which nothing is accepted or
taken any more.
-/

namespace Yutil

open Interleave

section
variable {Tid T : Type}

def accepted (log : List (Tid × Event T)) : List (Tid × T) :=
  log.filterMap fun x => match x.2 with | .accept v => some (x.1, v) | _ => none

def received (log : List (Tid × Event T)) : List (Tid × T) :=
  log.filterMap fun x => match x.2 with | .take v => some (x.1, v) | _ => none

def values (l : List (Tid × T)) : List T := l.map (·.2)

structure Delivery (Tid T : Type) where
  producer : Tid
  consumer : Tid
  value : T

namespace Fifo.Path

variable {room : Nat → Prop} {f g : Fifo T} {log : List (Tid × Event T)}

theorem balance (h : f.Path room log g) : f.items ++ values (accepted log) = values (received log) ++ g.items := by
  induction h with
  | nil => exact List.append_nil _
  | @cons f g h t e log hd _ ih =>
    cases hd with
    | @accept xs v _ =>
      show xs ++ v :: values (accepted log) = values (received log) ++ h.items
      rw [← ih, List.append_assoc]
      rfl
    | @take xs v c => exact congrArg (v :: ·) ih
    | _ => exact ih

theorem shut_mem (h : f.Path room log g) (hf : f.closed = false) (hg : g.closed = true) :
    ∃ u, (u, .shut) ∈ log := by
  induction h with
  | nil => rw [hf] at hg; cases hg
  | @cons f g h t e log hd _ ih =>
    cases hd with
    | shut => exact ⟨t, List.mem_cons_self ..⟩
    | _ => obtain ⟨u, hu⟩ := ih hf hg; exact ⟨u, List.mem_cons_of_mem _ hu⟩

/-- A closed and empty queue stays so, and nothing is accepted or taken. -/
theorem finished (h : f.Path room log g) (hf : f = ⟨[], true⟩) :
    g = ⟨[], true⟩ ∧ accepted log = [] ∧ received log = [] := by
  induction h with
  | nil => exact ⟨hf, rfl, rfl⟩
  | cons hd _ ih =>
    subst hf
    cases hd with
    | _ => exact ih rfl

end Fifo.Path

def deliveries (log : List (Tid × Event T)) : List (Delivery Tid T) :=
  List.zipWith (fun a r => ⟨a.1, r.1, a.2⟩) (accepted log) (received log)

theorem zipWith_deliveries {as rs : List (Tid × T)} (h : values rs = values as) :
    let ds : List (Delivery Tid T) := List.zipWith (fun a r => ⟨a.1, r.1, a.2⟩) as rs
    ds.map (fun d => (d.producer, d.value)) = as ∧ ds.map (fun d => (d.consumer, d.value)) = rs := by
  induction as generalizing rs with
  | nil =>
    cases rs with
    | nil => exact ⟨rfl, rfl⟩
    | cons r rs => simp [values] at h
  | cons a as ih =>
    cases rs with
    | nil => simp [values] at h
    | cons r rs =>
      simp only [values, List.map_cons, List.cons.injEq] at h
      obtain ⟨h1, h2⟩ := ih h.2
      simp only [List.zipWith_cons_cons, List.map_cons, h1, h2, true_and, List.cons.injEq, and_true]
      exact Prod.ext rfl h.1.symm

theorem filter_sublist [DecidableEq Tid] (ds : List (Delivery Tid T)) (c p : Tid) :
    ((ds.filter fun d => d.consumer = c ∧ d.producer = p).map (·.value)).Sublist
      (values ((ds.map fun d => (d.producer, d.value)).filter (·.1 = p))) := by
  have h : (ds.filter fun d => d.consumer = c ∧ d.producer = p).Sublist (ds.filter fun d => d.producer = p) := by
    have : (ds.filter fun d => d.consumer = c ∧ d.producer = p) =
        (ds.filter fun d => d.producer = p).filter fun d => d.consumer = c := by
      rw [List.filter_filter]
      simp only [Bool.decide_and]
    rw [this]
    exact List.filter_sublist
  rw [values, List.filter_map, List.map_map]
  exact h.map (·.value)

end

/-! ## The property of a queue class -/

/-- What every history of a blocking queue satisfies, for any threads, in lock
order: the values received are a prefix of those accepted; and once a
`wait_pop` has returned `false` (as it has for every consumer whose
`while (wait_pop(v))` loop has ended), the queue was closed before, all that was accepted before
was received, nothing is accepted or received after, each accepted item has
one delivery, and a consumer got the items of a producer in push order. -/
def DeliversAccepted {D Op T : Type} (M : Monitor D Op Cv (Res T)) (event : Op → Res T → Event T) (closed : D → Bool) :
    Prop :=
  ∀ (Tid : Type) [DecidableEq Tid] [Fintype Tid] (s : Monitor.State Tid D Op Cv (Res T)) (log : List (Tid × Event T)),
    (recorded M event fun _ _ => true).Reachable (s, log) →
    values (received log) <+: values (accepted log) ∧
    ∀ before t after, log = before ++ (t, .finish) :: after →
      closed s.data = true ∧ (∃ u, (u, .shut) ∈ before) ∧ values (received before) = values (accepted before) ∧
      accepted after = [] ∧ received after = [] ∧
      (deliveries log).map (fun d => (d.producer, d.value)) = accepted log ∧
      (deliveries log).map (fun d => (d.consumer, d.value)) = received log ∧
      ∀ c p, (((deliveries log).filter fun d => d.consumer = c ∧ d.producer = p).map (·.value)).Sublist
        (values ((accepted log).filter (·.1 = p)))

theorem delivers_of_refines {D Op T : Type} {M : Monitor D Op Cv (Res T)} {event : Op → Res T → Event T}
    {room : Nat → Prop} {Inv : D → Prop} {abs : D → Fifo T} (h : Refines M event room Inv abs) :
    DeliversAccepted M event fun d => (abs d).closed := by
  intro Tid _ _ s log hr
  obtain ⟨-, hp⟩ := refines_path h hr
  have bal := hp.balance
  simp only [Fifo.empty, List.nil_append] at bal
  refine ⟨⟨_, bal.symm⟩, ?_⟩
  rintro before t after rfl
  obtain ⟨f, h1, h2⟩ := hp.split
  cases h2 with
  | cons hd h2 =>
    cases hd with
    | finish =>
      obtain ⟨hg, ha, hrec⟩ := h2.finished rfl
      have b1 := h1.balance
      simp only [Fifo.empty, List.nil_append, List.append_nil] at b1
      rw [hg] at bal
      simp only [List.append_nil] at bal
      obtain ⟨d1, d2⟩ := zipWith_deliveries bal.symm
      refine ⟨congrArg Fifo.closed hg, h1.shut_mem rfl rfl, b1.symm, ha, hrec, d1, d2, fun c p => ?_⟩
      have := filter_sublist (deliveries (before ++ (t, .finish) :: after)) c p
      rwa [show (deliveries (before ++ (t, .finish) :: after)).map (fun d => (d.producer, d.value)) = _ from d1] at this

section
variable {T : Type}

theorem deque_delivers {emplace : Built T → Deque T → Exit (Deque T) Cv (Res T)}
    {waitPop : Bool → Bool → Deque T → Exit (Deque T) Cv (Res T)}
    (he : ∀ b (d : Deque T), d.Ok (.emplace b) (emplace b d))
    (hw : ∀ a w (d : Deque T), d.Ok (.waitPop a) (waitPop a w d)) :
    DeliversAccepted (Deque.monitor emplace waitPop) DequeOp.event Deque.closed :=
  delivers_of_refines (deque_refines he hw)

theorem ring_delivers [Elem T] {M : Monitor (Ring T) (RingOp T) Cv (Res T)} {capacity : Nat}
    (h0 : M.start = Ring.new capacity) (hs : ∀ op w (r : Ring T), r.WF → r.Ok op (M.sect op w r)) :
    DeliversAccepted M RingOp.event Ring.closed :=
  delivers_of_refines (ring_refines h0 hs)

/-- **Every blocking queue delivers what it accepted.** -/
theorem blocking_queues_deliver [Elem T] (capacity : Nat) :
    DeliversAccepted (MutexBlockingQueue.monitor (T := T)) DequeOp.event Deque.closed ∧
    DeliversAccepted (MutexDequeQueueV1.monitor (T := T)) DequeOp.event Deque.closed ∧
    DeliversAccepted (MutexDequeQueueV2.monitor (T := T)) DequeOp.event Deque.closed ∧
    DeliversAccepted (MutexDequeQueueV3.monitor (T := T)) DequeOp.event Deque.closed ∧
    DeliversAccepted (MutexDequeMpmcQueueV1.monitor (T := T)) DequeOp.event Deque.closed ∧
    DeliversAccepted (MutexDequeMpmcQueueV2.monitor (T := T)) DequeOp.event Deque.closed ∧
    DeliversAccepted (MutexDequeMpmcQueueV3.monitor (T := T)) DequeOp.event Deque.closed ∧
    DeliversAccepted (RingMutexMpmcQueueV1.monitor (T := T) capacity) RingOp.event Ring.closed ∧
    DeliversAccepted (RingMutexMpmcQueueV2.monitor (T := T) capacity) RingOp.event Ring.closed ∧
    DeliversAccepted (RingMutexMpmcQueueV3.monitor (T := T) capacity) RingOp.event Ring.closed :=
  ⟨deque_delivers (emplaceWith_ok _) waitPop_ok, deque_delivers (emplaceWith_ok _) waitPop_ok,
    deque_delivers (fun b d => emplaceWith_ok _ b d) waitPop_ok,
    deque_delivers (fun b d => emplaceWith_ok _ b d) waitPopCounting_ok,
    deque_delivers (emplaceWith_ok _) waitPop_ok, deque_delivers (fun b d => emplaceWith_ok _ b d) waitPop_ok,
    deque_delivers (fun b d => emplaceWith_ok _ b d) waitPopCounting_ok,
    ring_delivers rfl fun _ _ _ => RingMutexMpmcQueueV1.sect_ok _ _,
    ring_delivers rfl fun _ _ _ => RingMutexMpmcQueueV2.sect_ok _ _,
    ring_delivers rfl fun _ _ _ => RingMutexMpmcQueueV3.sect_ok _ _⟩

end

end Yutil
