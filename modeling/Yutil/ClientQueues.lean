import Yutil.ClientRuns

/-!
# The clients of each queue class

No push waits in the deque queues, and the rings V1 and V2 never halt, so every
client of theirs runs to its end. What it has consumed when it has ended is
the same for all classes, `RingMutexMpmcQueueV3` included.
-/

namespace Yutil

open Interleave Monitor Client

variable {T : Type}

/-! ## The deque queues -/

section
variable {emplace : Built T → Deque T → Exit (Deque T) Cv (Res T)}
  {waitPop : Bool → Bool → Deque T → Exit (Deque T) Cv (Res T)} {shouldNotify : Deque T → Bool}

theorem popFront_popped {d d' : Deque T} {held : Option (Notify Cv)} {later : List (Notify Cv)} {r : Res T}
    (h : d.popFront true = .leave d' held later r) : held = none ∧ later = [] ∧ ∃ out, r = .popped out := by
  unfold Deque.popFront at h
  cases hq : d.queue with
  | nil =>
    rw [hq] at h
    cases h
    exact ⟨rfl, rfl, none, rfl⟩
  | cons v rest =>
    rw [hq] at h
    cases h
    exact ⟨rfl, rfl, some v, rfl⟩

theorem deque_serves (he : ∀ b d, emplace b d = d.emplaceWith (shouldNotify d) b) (hw : Waits waitPop)
    (ho : WaitsOpen waitPop) (hok : ∀ a w (d : Deque T), d.Ok (.waitPop a) (waitPop a w d)) :
    Serves (Deque.monitor emplace waitPop) DequeOp.event unbounded (fun _ => True) Deque.abs DequeOp.ends where
  refines := deque_refines (fun b d => by rw [he]; exact emplaceWith_ok _ b d) hok
  push := by
    intro v w d d' held later r hx
    have hx := (he (.value v) d).symm.trans hx
    unfold Deque.emplaceWith at hx
    split at hx
    · rename_i hc
      cases hx
      exact .inr ⟨rfl, hc⟩
    · cases hx
      exact .inl rfl
  pop := by
    intro w d d' held later r hx
    rcases hw true w d with ⟨d₁, h1, -⟩ | ⟨d₁, -, h1⟩
    · cases h1.symm.trans hx
    · obtain ⟨-, -, out, rfl⟩ := popFront_popped (h1.symm.trans hx)
      cases out with
      | none => exact .inr ⟨rfl, rfl⟩
      | some v => exact .inl ⟨v, rfl, rfl⟩
  shut := by
    intro w d d' held later r hx
    cases hx
    rfl
  awake := by
    intro w d d' v hx
    cases hx
  closes := deque_closes he hw ho

theorem deque_brief (he : ∀ b d, emplace b d = d.emplaceWith (shouldNotify d) b) (hw : Waits waitPop) :
    (Deque.monitor emplace waitPop).Brief 2 := by
  have pops : ∀ {d d' : Deque T} {a : Bool} {held : Option (Notify Cv)} {later : List (Notify Cv)} {r : Res T},
      d.popFront a = .leave d' held later r → held.toList.length + later.length ≤ 2 := by
    intro d d' a held later r hx
    unfold Deque.popFront at hx
    split at hx
    · cases hx
      exact Nat.zero_le _
    · cases a <;> cases hx <;> exact Nat.zero_le _
  intro op w d d' held later r hx
  cases op with
  | emplace b =>
    have hx := (he b d).symm.trans hx
    unfold Deque.emplaceWith at hx
    split at hx
    · cases hx
      exact Nat.zero_le _
    · cases b with
      | throws _ =>
        cases hx
        exact Nat.zero_le _
      | value v =>
        cases hx
        cases shouldNotify d <;> simp
  | waitPop a =>
    rcases hw a w d with ⟨d₁, h1, -⟩ | ⟨d₁, -, h1⟩
    · cases h1.symm.trans hx
    · exact pops (h1.symm.trans hx)
  | tryPop a => exact pops hx
  | close =>
    cases hx
    exact Nat.le_succ 1

theorem deque_never_halts (he : ∀ b d, emplace b d = d.emplaceWith (shouldNotify d) b) (hw : Waits waitPop) :
    NeverHalts (Deque.monitor emplace waitPop) (fun _ => true) (fun d => d.abs.closed) DequeOp.ends := by
  intro Tid _ _ s hr _ _ t u v c c' ht _
  obtain ⟨w, d, d', hx⟩ := op_sleeps hr (.inl ht)
  have := (deque_sleeps he hw hx).1
  cases this

end

/-! ## The rings -/

section
variable [Elem T] {M : Monitor (Ring T) (RingOp T) Cv (Res T)} {full empty : Cv} {capacity : Nat}
  {tells : RingOp T → Ring T → Option (Notify Cv) × List (Notify Cv)}

theorem ring_serves (hM : ∀ op w (r : Ring T), r.Sect full empty tells op (M.sect op w r)) (h0 : M.start = Ring.new capacity)
    (hok : ∀ op w (r : Ring T), r.WF → r.Ok op (M.sect op w r))
    (hall : ∀ r, .all full ∈ (tells .close r).2 ∧ .all empty ∈ (tells .close r).2) :
    Serves M RingOp.event (· < (Ring.new (T := T) capacity).capacity)
      (fun r => r.WF ∧ r.capacity = (Ring.new (T := T) capacity).capacity) Ring.abs RingOp.ends where
  refines := ring_refines h0 hok
  push := by
    intro v w d d' held later r hx
    have hsect := hM (.emplace (.value v)) w d
    rw [show M.sect (.emplace (.value v)) w d = _ from hx] at hsect
    generalize hop : (RingOp.emplace (.value v) : RingOp T) = op at hsect
    cases hsect with
    | refused h _ =>
      subst hop
      rcases h with ⟨-, hc⟩ | ⟨h, -⟩
      · exact .inr ⟨rfl, hc⟩
      · cases h
    | pushed _ _ _ _ _ _ => exact .inl rfl
    | pushThrew h _ _ _ | nothing h _ _ | popped h _ _ _ | popThrew h _ _ => subst hop; simp at h
    | shut _ _ _ => cases hop
  pop := by
    intro w d d' held later r hx
    have hsect := hM (.waitPop true) w d
    rw [show M.sect (.waitPop true) w d = _ from hx] at hsect
    generalize hop : (RingOp.waitPop true : RingOp T) = op at hsect
    cases hsect with
    | nothing _ _ _ => exact .inr ⟨rfl, rfl⟩
    | popped _ _ _ _ => exact .inl ⟨_, rfl, rfl⟩
    | refused h _ | pushThrew h _ _ _ | pushed h _ _ _ _ _ | popThrew h _ _ => subst hop; simp at h
    | shut _ _ _ => cases hop
  shut := by
    intro w d d' held later r hx
    have hsect := hM .close w d
    rw [show M.sect .close w d = _ from hx] at hsect
    generalize hop : (RingOp.close : RingOp T) = op at hsect
    cases hsect with
    | shut _ _ _ => rfl
    | refused h _ | pushThrew h _ _ _ | pushed h _ _ _ _ _ | nothing h _ _ | popped h _ _ _ | popThrew h _ _ =>
      subst hop
      simp at h
  awake := by
    intro w d d' v hx
    have hsect := hM .close w d
    rw [show M.sect .close w d = _ from hx] at hsect
    generalize hop : (RingOp.close : RingOp T) = op at hsect
    cases hsect <;> cases hop
  closes := ring_closes hM hall

omit [Elem T] in
theorem ring_brief (hM : ∀ op w (r : Ring T), r.Sect full empty tells op (M.sect op w r))
    (htells : ∀ op r, (tells op r).1.toList.length + (tells op r).2.length ≤ 2) : M.Brief 2 := by
  intro op w d d' held later r hx
  have hsect := hM op w d
  rw [hx] at hsect
  cases hsect with
  | pushed _ _ _ _ _ _ => exact htells op d
  | popped _ _ _ _ | shut _ _ _ =>
    rw [Option.toList_none, List.length_nil, Nat.zero_add]
    exact Nat.le_trans (Nat.le_add_left ..) (htells _ d)
  | _ => exact Nat.zero_le _

theorem ring_never_halts (hhalt : ∀ (Tid : Type) [DecidableEq Tid] [Fintype Tid] (s : State Tid (Ring T) (RingOp T) Cv (Res T)),
    (M.machine fun (_ : Tid) op => op.blocking).Reachable s → ¬ Halted s) :
    NeverHalts M RingOp.blocking (fun r => r.abs.closed) RingOp.ends := by
  intro Tid _ _ s hr hc hrests t u v c c' ht hu
  refine hhalt Tid s hr ⟨hc, ⟨u, by rw [hu]; rfl⟩, ⟨t, by rw [ht]; rfl⟩, fun x => ?_, fun x => ?_⟩
  · have := hrests x
    cases hpc : s.pc x <;> rw [hpc] at this <;> first | rfl | cases this
  · have := hrests x
    cases hpc : s.pc x <;> rw [hpc] at this <;> first | rfl | cases this

end

/-! ## The classes -/

/-- The clients of a queue, whatever they push and however many they are, stop only when they have
finished, and do so within a number of steps that only spurious wakeups add to. -/
def Completes {D Op : Type} (M : Monitor D Op Cv (Res T)) (ends : Ends Op T) : Prop :=
  ∀ (P C : Type) [Fintype P] [DecidableEq P] [Fintype C] [DecidableEq C] [Nonempty C] (key : T → BitVec 64)
    (pushes : P → List T) (s : Client P C D Op T) (as : List (Client.Label (Party P C))),
    (machine C M ends key pushes).exec as = some s →
      (s.Finished ∨ ∃ a s', a.stirs = false ∧ s.step M ends key a = some s') ∧
      as.length ≤ (2 * (Fintype.card P + Fintype.card C + 2) + 3) * (2 * ∑ p, (pushes p).length + Fintype.card C + 1) +
        2 * as.countP Label.stirs

def ConsumesOnce {D Op : Type} (M : Monitor D Op Cv (Res T)) (event : Op → Res T → Event T) (ends : Ends Op T) : Prop :=
  ∀ (P C : Type) [Fintype P] [DecidableEq P] [Fintype C] [DecidableEq C] [Nonempty C] (key : T → BitVec 64)
    (pushes : P → List T) (s : Client P C D Op T) (log : List (Party P C × Event T)),
    (Client.recorded C M event ends key pushes).Reachable (s, log) → s.Finished → Consumed key pushes s log

/-- The two checks at the end of the tests: the count holds, and the sum does while the expected sum has not
lost its highest bit. -/
def Checks {D Op : Type} (M : Monitor D Op Cv (Res T)) (ends : Ends Op T) : Prop :=
  ∀ (C : Type) [Fintype C] [DecidableEq C] [Nonempty C] (producers items : Nat) (payload : BitVec 64 → T)
    (key : T → BitVec 64) (s : Client (Fin producers) C D Op T), (∀ x, key (payload x) = x) →
    (machine C M ends key fun p : Fin producers => payloads items payload p).Reachable s → s.Finished →
      s.total.count = BitVec.ofNat 64 (producers * items) ∧
      (s.total.sum = expectedSum (BitVec.ofNat 64 (producers * items)) ↔
        producers * items * (producers * items + 1) / 2 % 2 ^ 64 < 2 ^ 63)

section
variable {D Op : Type} {M : Monitor D Op Cv (Res T)} {event : Op → Res T → Event T} {room : Nat → Prop} {Inv : D → Prop}
  {abs : D → Fifo T} {ends : Ends Op T}

theorem Serves.completes (hS : Serves M event room Inv abs ends) (hB : M.Brief 2) (calls : Op → Bool)
    (h1 : ∀ v, calls (ends.push v) = true) (h2 : calls ends.waitPop = true) (h3 : calls ends.close = true)
    (hN : NeverHalts M calls (fun d => (abs d).closed) ends) : Completes M ends := by
  intro P C _ _ _ _ _ key pushes s as h
  exact ⟨live hS h1 h2 h3 hN (Machine.exec_reachable as h), bounded hS hB h⟩

theorem Serves.consumes (hS : Serves M event room Inv abs ends) : ConsumesOnce M event ends :=
  fun _ _ _ _ _ _ _ _ _ _ _ hr hf => consumed hS hr hf

theorem Serves.checks (hS : Serves M event room Inv abs ends) : Checks M ends :=
  fun _ _ _ _ _ _ _ _ _ hkey hr hf => checked hS hkey hr hf

end

section
variable {emplace : Built T → Deque T → Exit (Deque T) Cv (Res T)} {shouldNotify : Deque T → Bool}

theorem deque_serves_waitPop (he : ∀ b d, emplace b d = d.emplaceWith (shouldNotify d) b) :
    Serves (Deque.monitor emplace Deque.waitPop) DequeOp.event unbounded (fun _ => True) Deque.abs DequeOp.ends :=
  deque_serves he waits_waitPop waitPop_open waitPop_ok

theorem deque_serves_waitPopCounting (he : ∀ b d, emplace b d = d.emplaceWith (shouldNotify d) b) :
    Serves (Deque.monitor emplace Deque.waitPopCounting) DequeOp.event unbounded (fun _ => True) Deque.abs DequeOp.ends :=
  deque_serves he waits_waitPopCounting waitPopCounting_open waitPopCounting_ok

theorem deque_completes {waitPop : Bool → Bool → Deque T → Exit (Deque T) Cv (Res T)}
    (he : ∀ b d, emplace b d = d.emplaceWith (shouldNotify d) b) (hw : Waits waitPop)
    (hS : Serves (Deque.monitor emplace waitPop) DequeOp.event unbounded (fun _ => True) Deque.abs DequeOp.ends) :
    Completes (Deque.monitor emplace waitPop) DequeOp.ends :=
  hS.completes (deque_brief he hw) (fun _ => true) (fun _ => rfl) rfl rfl (deque_never_halts he hw)

end

section
variable [Elem T]

theorem RingMutexMpmcQueueV1.serves (capacity : Nat) : Serves (RingMutexMpmcQueueV1.monitor (T := T) capacity) RingOp.event
    (· < (Ring.new (T := T) capacity).capacity) (fun r => r.WF ∧ r.capacity = (Ring.new (T := T) capacity).capacity)
    Ring.abs RingOp.ends :=
  ring_serves (RingMutexMpmcQueueV1.sect_spec capacity) rfl (fun _ _ _ => RingMutexMpmcQueueV1.sect_ok _ _)
    fun r => by simp [RingMutexMpmcQueueV1.tells]

theorem RingMutexMpmcQueueV2.serves (capacity : Nat) : Serves (RingMutexMpmcQueueV2.monitor (T := T) capacity) RingOp.event
    (· < (Ring.new (T := T) capacity).capacity) (fun r => r.WF ∧ r.capacity = (Ring.new (T := T) capacity).capacity)
    Ring.abs RingOp.ends :=
  ring_serves (RingMutexMpmcQueueV2.sect_spec capacity) rfl (fun _ _ _ => RingMutexMpmcQueueV2.sect_ok _ _)
    fun r => by simp [RingMutexMpmcQueueV2.tells]

theorem RingMutexMpmcQueueV3.serves (capacity : Nat) : Serves (RingMutexMpmcQueueV3.monitor (T := T) capacity) RingOp.event
    (· < (Ring.new (T := T) capacity).capacity) (fun r => r.WF ∧ r.capacity = (Ring.new (T := T) capacity).capacity)
    Ring.abs RingOp.ends :=
  ring_serves (RingMutexMpmcQueueV3.sect_spec capacity) rfl (fun _ _ _ => RingMutexMpmcQueueV3.sect_ok _ _)
    fun r => by simp [RingMutexMpmcQueueV3.tells]

theorem RingMutexMpmcQueueV1.completes (capacity : Nat) :
    Completes (RingMutexMpmcQueueV1.monitor (T := T) capacity) RingOp.ends := by
  refine (serves capacity).completes (ring_brief (sect_spec capacity) ?_) RingOp.blocking (fun _ => rfl) rfl rfl ?_
  · intro op r
    cases op <;> simp [tells]
  · exact ring_never_halts fun _ _ _ s hr => ((blocking_wakes_both_sides capacity s).1 hr).2

theorem RingMutexMpmcQueueV2.completes (capacity : Nat) :
    Completes (RingMutexMpmcQueueV2.monitor (T := T) capacity) RingOp.ends := by
  refine (serves capacity).completes (ring_brief (sect_spec capacity) ?_) RingOp.blocking (fun _ => rfl) rfl rfl ?_
  · intro op r
    cases op with
    | tryEmplace _ => by_cases h : r.size = 0 <;> simp [tells, h]
    | _ => simp [tells]
  · exact ring_never_halts fun _ _ _ s hr => ((blocking_wakes_both_sides capacity s).2 hr).2

/-- **Every client of these queues runs to its end.** -/
theorem clients_complete (capacity : Nat) :
    Completes (MutexBlockingQueue.monitor (T := T)) DequeOp.ends ∧ Completes (MutexDequeQueueV1.monitor (T := T)) DequeOp.ends ∧
    Completes (MutexDequeQueueV2.monitor (T := T)) DequeOp.ends ∧ Completes (MutexDequeQueueV3.monitor (T := T)) DequeOp.ends ∧
    Completes (MutexDequeMpmcQueueV1.monitor (T := T)) DequeOp.ends ∧
    Completes (MutexDequeMpmcQueueV2.monitor (T := T)) DequeOp.ends ∧
    Completes (MutexDequeMpmcQueueV3.monitor (T := T)) DequeOp.ends ∧
    Completes (RingMutexMpmcQueueV1.monitor (T := T) capacity) RingOp.ends ∧
    Completes (RingMutexMpmcQueueV2.monitor (T := T) capacity) RingOp.ends := by
  refine ⟨?_, ?_, ?_, ?_, ?_, ?_, ?_, ?_, ?_⟩
  · exact deque_completes MutexBlockingQueue.emplace_eq waits_waitPop (deque_serves_waitPop MutexBlockingQueue.emplace_eq)
  · exact deque_completes MutexDequeQueueV1.emplace_eq waits_waitPop (deque_serves_waitPop MutexDequeQueueV1.emplace_eq)
  · exact deque_completes MutexDequeQueueV2.emplace_eq waits_waitPop (deque_serves_waitPop MutexDequeQueueV2.emplace_eq)
  · exact deque_completes MutexDequeQueueV3.emplace_eq waits_waitPopCounting
      (deque_serves_waitPopCounting MutexDequeQueueV3.emplace_eq)
  · exact deque_completes MutexDequeMpmcQueueV1.emplace_eq waits_waitPop (deque_serves_waitPop MutexDequeMpmcQueueV1.emplace_eq)
  · exact deque_completes MutexDequeMpmcQueueV2.emplace_eq waits_waitPop (deque_serves_waitPop MutexDequeMpmcQueueV2.emplace_eq)
  · exact deque_completes MutexDequeMpmcQueueV3.emplace_eq waits_waitPopCounting
      (deque_serves_waitPopCounting MutexDequeMpmcQueueV3.emplace_eq)
  · exact RingMutexMpmcQueueV1.completes capacity
  · exact RingMutexMpmcQueueV2.completes capacity

/-- **A finished client has consumed each value once**, in all the blocking queues. -/
theorem clients_consume_once (capacity : Nat) :
    ConsumesOnce (MutexBlockingQueue.monitor (T := T)) DequeOp.event DequeOp.ends ∧
    ConsumesOnce (MutexDequeQueueV1.monitor (T := T)) DequeOp.event DequeOp.ends ∧
    ConsumesOnce (MutexDequeQueueV2.monitor (T := T)) DequeOp.event DequeOp.ends ∧
    ConsumesOnce (MutexDequeQueueV3.monitor (T := T)) DequeOp.event DequeOp.ends ∧
    ConsumesOnce (MutexDequeMpmcQueueV1.monitor (T := T)) DequeOp.event DequeOp.ends ∧
    ConsumesOnce (MutexDequeMpmcQueueV2.monitor (T := T)) DequeOp.event DequeOp.ends ∧
    ConsumesOnce (MutexDequeMpmcQueueV3.monitor (T := T)) DequeOp.event DequeOp.ends ∧
    ConsumesOnce (RingMutexMpmcQueueV1.monitor (T := T) capacity) RingOp.event RingOp.ends ∧
    ConsumesOnce (RingMutexMpmcQueueV2.monitor (T := T) capacity) RingOp.event RingOp.ends ∧
    ConsumesOnce (RingMutexMpmcQueueV3.monitor (T := T) capacity) RingOp.event RingOp.ends :=
  ⟨(deque_serves_waitPop MutexBlockingQueue.emplace_eq).consumes, (deque_serves_waitPop MutexDequeQueueV1.emplace_eq).consumes,
    (deque_serves_waitPop MutexDequeQueueV2.emplace_eq).consumes,
    (deque_serves_waitPopCounting MutexDequeQueueV3.emplace_eq).consumes,
    (deque_serves_waitPop MutexDequeMpmcQueueV1.emplace_eq).consumes,
    (deque_serves_waitPop MutexDequeMpmcQueueV2.emplace_eq).consumes,
    (deque_serves_waitPopCounting MutexDequeMpmcQueueV3.emplace_eq).consumes, (RingMutexMpmcQueueV1.serves capacity).consumes,
    (RingMutexMpmcQueueV2.serves capacity).consumes, (RingMutexMpmcQueueV3.serves capacity).consumes⟩

/-- **The checks of the tests**: `consumed_count == total_items` always, `consumed_sum == expected_sum` exactly
while the product in `expected_sum` keeps its highest bit. -/
theorem client_checks (capacity : Nat) :
    Checks (MutexBlockingQueue.monitor (T := T)) DequeOp.ends ∧ Checks (MutexDequeQueueV1.monitor (T := T)) DequeOp.ends ∧
    Checks (MutexDequeQueueV2.monitor (T := T)) DequeOp.ends ∧ Checks (MutexDequeQueueV3.monitor (T := T)) DequeOp.ends ∧
    Checks (MutexDequeMpmcQueueV1.monitor (T := T)) DequeOp.ends ∧ Checks (MutexDequeMpmcQueueV2.monitor (T := T)) DequeOp.ends ∧
    Checks (MutexDequeMpmcQueueV3.monitor (T := T)) DequeOp.ends ∧
    Checks (RingMutexMpmcQueueV1.monitor (T := T) capacity) RingOp.ends ∧
    Checks (RingMutexMpmcQueueV2.monitor (T := T) capacity) RingOp.ends ∧
    Checks (RingMutexMpmcQueueV3.monitor (T := T) capacity) RingOp.ends :=
  ⟨(deque_serves_waitPop MutexBlockingQueue.emplace_eq).checks, (deque_serves_waitPop MutexDequeQueueV1.emplace_eq).checks,
    (deque_serves_waitPop MutexDequeQueueV2.emplace_eq).checks, (deque_serves_waitPopCounting MutexDequeQueueV3.emplace_eq).checks,
    (deque_serves_waitPop MutexDequeMpmcQueueV1.emplace_eq).checks, (deque_serves_waitPop MutexDequeMpmcQueueV2.emplace_eq).checks,
    (deque_serves_waitPopCounting MutexDequeMpmcQueueV3.emplace_eq).checks, (RingMutexMpmcQueueV1.serves capacity).checks,
    (RingMutexMpmcQueueV2.serves capacity).checks, (RingMutexMpmcQueueV3.serves capacity).checks⟩

example : ((machine Unit (MutexBlockingQueue.monitor (T := BitVec 64)) DequeOp.ends id fun p : Fin 1 => payloads 1 id p).exec
    [.call (.inr (.inl ())), .acquire (.inr (.inl ())) none, .call (.inl 0), .acquire (.inl 0) none,
      .notify (.inl 0) (some (.inr (.inl ()))), .ret (.inl 0), .call (.inr (.inr ())), .acquire (.inr (.inr ())) none,
      .notify (.inr (.inr ())) none, .ret (.inr (.inr ())), .acquire (.inr (.inl ())) none, .ret (.inr (.inl ())),
      .call (.inr (.inl ())), .acquire (.inr (.inl ())) none, .ret (.inr (.inl ()))]).map
    (fun s => (s.total, s.exited (), s.shut)) = some (⟨1, 1⟩, true, true) := by
  decide

end

end Yutil
