import Yutil.RingWakeups

/-!
# Both sides of the rings

With pushes and pops that wait, V1 and V2 lose no wakeup on either side: in V1
whatever changes the size owes everybody a `notify_all`, in V2 each item and
each free slot has a `notify_one` or a woken thread of its own. V2's
`try_emplace` breaks this for the consumers, because it is silent unless the
ring was empty, and a push that throws after its wait breaks it for the
producers, because it keeps the one wakeup that its slot was worth.
-/

namespace Yutil

open Interleave Monitor

variable {T : Type}

/-- Blocking use: pushes, `wait_pop`s and `close`, with elements that do not throw. -/
def RingOp.blocking : RingOp T → Bool
  | .emplace b => !b.throwing
  | .waitPop assigns => assigns
  | .close => true
  | _ => false

def consumerAsleep : Pc (RingOp T) Cv (Res T) → Bool
  | .asleep op _ => op.consumes
  | _ => false

def Ring.queued (r : Ring T) : Nat := if r.closed then 0 else r.size

section
variable {Tid : Type} [DecidableEq Tid] [Fintype Tid]

/-- A consumer and a producer sleep in an open ring, nothing is outstanding and nobody is woken. -/
def Halted (s : State Tid (Ring T) (RingOp T) Cv (Res T)) : Prop :=
  s.data.closed = false ∧ (∃ t, consumerAsleep (s.pc t) = true) ∧ (∃ t, producerAsleep (s.pc t) = true) ∧
    (∀ t, (s.pc t).notifies = false) ∧ ∀ t, (s.pc t).rechecks = false

/-! ## What every section keeps -/

section
variable {M : Monitor (Ring T) (RingOp T) Cv (Res T)} {calls : Tid → RingOp T → Bool} {full empty : Cv}
  {tells : RingOp T → Ring T → Option (Notify Cv) × List (Notify Cv)} {s : State Tid (Ring T) (RingOp T) Cv (Res T)}

theorem ring_capacity (hM : ∀ op w (r : Ring T), r.Sect full empty tells op (M.sect op w r))
    (hr : (M.machine calls).Reachable s) : s.data.capacity = M.start.capacity := by
  refine hr.invariant (I := fun s => s.data.capacity = M.start.capacity) rfl ?_
  intro s a s' _ h hs
  rcases (step_spec hs).data with hd | ⟨t, pick, op, w, -, -, ⟨c, hx, -⟩ | ⟨held, later, r, hx, -⟩⟩
  · rw [hd, h]
  · have hsect := hM op w s.data
    rw [hx] at hsect
    exact hsect.sleep.2.1.capacity.trans h
  · have hsect := hM op w s.data
    rw [hx] at hsect
    exact hsect.leave.1.trans h

def RingOp.waits (op : RingOp T) (r : Ring T) : Prop :=
  (op.produces = true → r.capacity ≤ r.size) ∧ (op.consumes = true → r.size = 0)

omit [DecidableEq Tid] [Fintype Tid] in
theorem waits_like {op : RingOp T} {d r : Ring T} (hsize : d.size = r.size) (hcap : d.capacity = r.capacity)
    (h : op.waits r) : op.waits d := by
  unfold RingOp.waits at *
  rw [hsize, hcap]
  exact h

end

/-! ## V1 in blocking use -/

section
variable [Elem T] {requested : Nat} {s : State Tid (Ring T) (RingOp T) Cv (Res T)}

omit [DecidableEq Tid] [Elem T] in
theorem owed_alls {A : RingOp T → Prop} {v : Cv} {pc : Tid → Pc (RingOp T) Cv (Res T)} (h : Owed A v pc) :
    0 < total (allsOn v) pc := by
  obtain ⟨t, op, todo, r, -, ht, hm⟩ := h
  refine total_pos.mpr ⟨t, ?_⟩
  rw [ht]
  exact List.count_pos_iff.mpr hm

theorem RingMutexMpmcQueueV1.awaited
    (hr : ((monitor (T := T) requested).machine fun (_ : Tid) op => op.blocking).Reachable s) :
    Awaited (fun _ => True) RingOp.waits s := by
  refine hr.invariant (I := Awaited (fun _ => True) RingOp.waits) ?_ ?_
  · intro t op v h
    cases h
  · intro s a s' hr h hs
    refine Awaited.step (step_spec hs) ?_ ?_ h
    · intro t op w d c _ hx
      have hsect := sect_spec requested op w s.data
      rw [hx] at hsect
      cases hsect with
      | waitFull _ hsz hd =>
        refine ⟨?_, fun op' => waits_like hd.size hd.capacity⟩
        exact waits_like hd.size hd.capacity ⟨fun _ => hsz, by simp [RingOp.consumes]⟩
      | waitEmpty _ hsz hd =>
        refine ⟨?_, fun op' => waits_like hd.size hd.capacity⟩
        exact waits_like hd.size hd.capacity ⟨by simp [RingOp.produces], fun _ => hsz⟩
    · intro t op w d held later r u op' c hready hx hu hw
      have hcalled := op_called hr (ready_op? hready)
      have hcv : c = .cv := by
        rcases ring_sleeps (sect_spec requested) hr (.inl hu) with ⟨_, -, h⟩ | ⟨_, -, h⟩ <;> exact h
      have hsect := sect_spec requested op w s.data
      rw [hx] at hsect
      cases hsect with
      | refused _ hd | nothing _ _ hd => exact .inl (waits_like hd.size hd.capacity hw)
      | pushThrew _ _ _ hd | popThrew _ _ hd => exact .inl (waits_like hd.size hd.capacity hw)
      | shut hd hd' _ => exact .inl (waits_like hd hd' hw)
      | pushed hop _ _ _ _ _ =>
        rcases hop with rfl | rfl
        · exact .inr ⟨trivial, by simp [tells, hcv]⟩
        · cases hcalled
      | popped hop _ _ _ =>
        rcases hop with rfl | rfl
        · exact .inr ⟨trivial, by simp [tells, hcv]⟩
        · cases hcalled

end

/-! ## V2 in blocking use -/

def RingOp.entering (op : RingOp T) : Nat := if op.consumes then 1 else 0

theorem RingOp.entering_waitPop (a : Bool) : (waitPop a : RingOp T).entering = 1 := rfl

theorem RingOp.entering_eq_zero {op : RingOp T} (h : op.consumes = false) : op.entering = 0 := by
  unfold entering
  rw [h]
  rfl

section
variable {M : Monitor (Ring T) (RingOp T) Cv (Res T)} {calls : Tid → RingOp T → Bool} {e : RingOp T → Nat}
  {tells : RingOp T → Ring T → Option (Notify Cv) × List (Notify Cv)} {s : State Tid (Ring T) (RingOp T) Cv (Res T)}

/-- The wakeup on `not_empty_cv_` that a thread uses up by running a section is a consumer's. -/
theorem ring_awake_consumer (hM : ∀ op w (r : Ring T), r.Sect .notFull .notEmpty tells op (M.sect op w r))
    (he : ∀ op, e op ≤ op.entering) (hr : (M.machine calls).Reachable s) {t : Tid} {op : RingOp T} {w : Bool}
    (hready : (s.pc t).ready = some (op, w)) : awakeOn e .notEmpty (s.pc t) ≤ op.entering := by
  cases hpc : s.pc t with
  | entry o =>
    rw [hpc] at hready
    cases hready
    exact he op
  | woken o v =>
    rw [hpc] at hready
    cases hready
    rcases ring_sleeps hM hr (.inr hpc) with ⟨b, rfl, rfl⟩ | ⟨a, rfl, rfl⟩
    · simp [awakeOn]
    · simp [awakeOn, RingOp.entering, RingOp.consumes]
  | _ => rw [hpc] at hready; cases hready

omit [DecidableEq Tid] [Fintype Tid] in
theorem queued_like {d r : Ring T} (h : d.Like r) : d.queued = r.queued := by
  unfold Ring.queued
  rw [h.closed, h.size]

omit [DecidableEq Tid] [Fintype Tid] in
theorem queued_shut {r : Ring T} (h : r.closed = true) : r.queued = 0 := if_pos h

omit [DecidableEq Tid] [Fintype Tid] in
theorem queued_open {r : Ring T} (h : r.closed = false) : r.queued = r.size := by
  unfold Ring.queued
  rw [h]
  rfl

end

section
variable [Elem T] {requested : Nat} {s : State Tid (Ring T) (RingOp T) Cv (Res T)}

theorem RingMutexMpmcQueueV2.items_backed
    (hr : ((monitor (T := T) requested).machine fun (_ : Tid) op => op.blocking).Reachable s) :
    Backed (fun _ => 0) .notEmpty s.data.queued s.pc := by
  refine hr.invariant (I := fun s => Backed (fun _ => 0) .notEmpty s.data.queued s.pc) ?_ ?_
  · intro _
    exact .inr (Nat.zero_le _)
  · intro s a s' hr h hs
    have hM := sect_spec (T := T) requested
    refine Backed.step Ring.queued (step_spec hs) ?_ ?_ h
    · intro t op w d c hready hx
      have ha := ring_awake_consumer hM (fun _ => Nat.zero_le _) hr hready
      have hsect := hM op w s.data
      rw [hx] at hsect
      cases hsect with
      | waitEmpty hc hsz hd =>
        rw [if_pos rfl, queued_like hd, queued_open hc]
        exact hsz
      | waitFull _ _ hd =>
        rw [if_neg (by decide), queued_like hd]
        rw [RingOp.entering_eq_zero rfl] at ha
        omega
    · intro t op w d held later r hready hx _
      have ha := ring_awake_consumer hM (fun _ => Nat.zero_le _) hr hready
      have hcalled := op_called hr (ready_op? hready)
      have hsect := hM op w s.data
      rw [hx] at hsect
      cases hsect with
      | refused hop hd =>
        rcases hop with ⟨rfl, hc⟩ | ⟨rfl, -⟩
        · exact .inr (.inl (queued_shut (hd.closed.trans hc)))
        · cases hcalled
      | nothing hop hz hd => exact .inr (.inl (by simp [Ring.queued, hd.size, hz]))
      | @pushed _ v _ hop hc _ h1 _ h3 =>
        rcases hop with rfl | rfl
        · have hsent : sent .notEmpty (tells (.emplace (.value v)) s.data).1 (tells (.emplace (.value v)) s.data).2 = 1 := rfl
          rw [RingOp.entering_eq_zero rfl] at ha
          rw [queued_open (h3.trans hc), queued_open hc, h1, hsent]
          exact .inr (.inr (by omega))
        · cases hcalled
      | popped hop h1 _ h3 =>
        rcases hop with rfl | rfl
        · rw [RingOp.entering_waitPop] at ha
          simp only [Ring.queued, h3]
          split
          · exact .inr (.inl rfl)
          · exact .inr (.inr (by omega))
        · cases hcalled
      | pushThrew hop _ _ _ => rcases hop with rfl | rfl <;> cases hcalled
      | popThrew hop _ _ => rcases hop with rfl | rfl <;> cases hcalled
      | shut _ _ hc => exact .inr (.inl (queued_shut hc))

theorem RingMutexMpmcQueueV2.free_backed
    (hr : ((monitor (T := T) requested).machine fun (_ : Tid) op => op.blocking).Reachable s) :
    Backed (fun _ => 0) .notFull s.data.free s.pc := by
  refine hr.invariant (I := fun s => Backed (fun _ => 0) .notFull s.data.free s.pc) ?_ ?_
  · intro hst
    obtain ⟨t, ht⟩ := total_pos.mp hst
    cases ht
  · intro s a s' hr h hs
    have hM := sect_spec (T := T) requested
    refine Backed.step Ring.free (step_spec hs) ?_ ?_ h
    · intro t op w d c hready hx
      have ha := ring_awake hM hr hready
      have hsect := hM op w s.data
      rw [hx] at hsect
      cases hsect with
      | waitEmpty _ _ hd =>
        rw [if_neg (by decide), free_like hd, ha]
        simp [RingOp.produces]
      | waitFull hc hsz hd =>
        rw [if_pos rfl, free_like hd, free_open hc]
        omega
    · intro t op w d held later r hready hx _
      have ha := ring_awake hM hr hready
      have hle : awakeOn (fun _ => 0) .notFull (s.pc t) ≤ 1 := by
        rw [ha]
        split <;> omega
      have hcalled := op_called hr (ready_op? hready)
      have hsect := hM op w s.data
      rw [hx] at hsect
      cases hsect with
      | refused hop hd =>
        rcases hop with ⟨rfl, hc⟩ | ⟨rfl, -⟩
        · exact .inr (.inl (free_shut (hd.closed.trans hc)))
        · cases hcalled
      | nothing hop _ hd =>
        rcases hop with ⟨rfl, hc⟩ | rfl
        · exact .inr (.inl (free_shut (hd.closed.trans hc)))
        · cases hcalled
      | pushed hop hc hsz h1 h2 h3 =>
        rw [free_open (h3.trans hc), free_open hc, h1, h2]
        exact .inr (.inr (by omega))
      | popped hop h1 h2 h3 =>
        rcases hop with rfl | rfl
        · have hsent : sent .notFull none (tells (.waitPop (T := T) true) s.data).2 = 1 := rfl
          simp only [RingOp.produces, Bool.false_and, Bool.false_eq_true, ite_false] at ha
          simp only [Ring.free, h3, h2, ha, hsent]
          split
          · exact .inr (.inl rfl)
          · exact .inr (.inr (by omega))
        · cases hcalled
      | pushThrew hop _ _ _ => rcases hop with rfl | rfl <;> cases hcalled
      | popThrew hop _ _ => rcases hop with rfl | rfl <;> cases hcalled
      | shut _ _ hc => exact .inr (.inl (free_shut hc))

end

/-! ## No wakeup is lost in blocking use -/

def RingMutexMpmcQueueV1.LosesNoWakeup (s : State Tid (Ring T) (RingOp T) Cv (Res T)) : Prop :=
  s.data.closed = false →
    (∃ t, consumerAsleep (s.pc t) = true) ∧ 0 < s.data.size ∨
      (∃ t, producerAsleep (s.pc t) = true) ∧ s.data.size < s.data.capacity →
    0 < total (allsOn .cv) s.pc

/-- A sleeping consumer has a wakeup in flight for each item, a sleeping producer one for each free slot. -/
def RingMutexMpmcQueueV2.LosesNoWakeup (s : State Tid (Ring T) (RingOp T) Cv (Res T)) : Prop :=
  s.data.closed = false →
    ((∃ t, consumerAsleep (s.pc t) = true) → 0 < s.data.size →
      s.data.size ≤ total (onesOn .notEmpty) s.pc + total (awakeOn (fun _ => 0) .notEmpty) s.pc) ∧
    ((∃ t, producerAsleep (s.pc t) = true) → s.data.size < s.data.capacity →
      s.data.capacity - s.data.size ≤ total (onesOn .notFull) s.pc + total (awakeOn (fun _ => 0) .notFull) s.pc)

omit [DecidableEq Tid] in
theorem nobody_woken (v : Cv) {pc : Tid → Pc (RingOp T) Cv (Res T)} (h : ∀ u, (pc u).rechecks = false) :
    total (awakeOn (fun _ => 0) v) pc = 0 := by
  apply Finset.sum_eq_zero
  intro u _
  have hu := h u
  cases hpc : pc u with
  | woken op c => rw [hpc] at hu; cases hu
  | _ => rfl

section
variable {M : Monitor (Ring T) (RingOp T) Cv (Res T)} {calls : Tid → RingOp T → Bool} {full empty : Cv}
  {tells : RingOp T → Ring T → Option (Notify Cv) × List (Notify Cv)} {s : State Tid (Ring T) (RingOp T) Cv (Res T)}

theorem consumer_sleeps_on (hM : ∀ op w (r : Ring T), r.Sect full empty tells op (M.sect op w r))
    (hr : (M.machine calls).Reachable s) {t : Tid} (ht : consumerAsleep (s.pc t) = true) :
    ∃ a, s.pc t = .asleep (.waitPop a) empty := by
  cases hpc : s.pc t with
  | asleep op v =>
    rw [hpc] at ht
    rcases ring_sleeps hM hr (.inl hpc) with ⟨b, rfl, rfl⟩ | ⟨a, rfl, rfl⟩
    · cases ht
    · exact ⟨a, rfl⟩
  | _ => rw [hpc] at ht; cases ht

end

section
variable [Elem T] {requested : Nat} {s : State Tid (Ring T) (RingOp T) Cv (Res T)}

omit [DecidableEq Tid] [Fintype Tid] in
theorem new_capacity_pos (requested : Nat) : 0 < (Ring.new requested : Ring T).capacity := (Ring.wf_new requested).pos

theorem RingMutexMpmcQueueV1.loses_no_wakeup
    (hr : ((monitor (T := T) requested).machine fun (_ : Tid) op => op.blocking).Reachable s) : LosesNoWakeup s := by
  intro _ h
  have hM := sect_spec (T := T) requested
  have hawaited := awaited hr
  rcases h with ⟨⟨t, ht⟩, hsize⟩ | ⟨⟨t, ht⟩, hsize⟩
  · obtain ⟨a, ha⟩ := consumer_sleeps_on hM hr ht
    rcases hawaited _ _ _ ha with hw | hw
    · exact absurd (hw.2 rfl) (Nat.ne_of_gt hsize)
    · exact owed_alls hw
  · obtain ⟨b, hb⟩ := producer_sleeps_on hM hr ht
    rcases hawaited _ _ _ hb with hw | hw
    · exact absurd (hw.1 rfl) (Nat.not_le_of_lt hsize)
    · exact owed_alls hw

theorem RingMutexMpmcQueueV2.loses_no_wakeup
    (hr : ((monitor (T := T) requested).machine fun (_ : Tid) op => op.blocking).Reachable s) : LosesNoWakeup s := by
  intro hc
  have hM := sect_spec (T := T) requested
  -- only `close` makes a `notify_all`
  have quiet : ∀ v, total (allsOn v) s.pc = 0 := by
    intro v
    apply Nat.eq_zero_of_not_pos
    intro h
    have := ring_alls_closed hM (fun op r hm => ?_) hr h
    · rw [hc] at this
      cases this
    · cases op <;> simp [tells] at hm ⊢
  constructor
  · rintro ⟨t, ht⟩ _
    obtain ⟨a, ha⟩ := consumer_sleeps_on hM hr ht
    rcases items_backed hr (asleep_total ha) with h | h
    · have := quiet .notEmpty
      omega
    · rw [queued_open hc] at h
      exact h
  · rintro ⟨t, ht⟩ _
    obtain ⟨b, hb⟩ := producer_sleeps_on hM hr ht
    rcases free_backed hr (asleep_total hb) with h | h
    · have := quiet .notFull
      omega
    · rw [free_open hc] at h
      exact h

end

/-- **In blocking use V1 and V2 lose no wakeup on either side**, and never halt. -/
theorem blocking_wakes_both_sides [Elem T] (requested : Nat) (s : State Tid (Ring T) (RingOp T) Cv (Res T)) :
    (((RingMutexMpmcQueueV1.monitor requested).machine fun (_ : Tid) op => op.blocking).Reachable s →
      RingMutexMpmcQueueV1.LosesNoWakeup s ∧ ¬ Halted s) ∧
    (((RingMutexMpmcQueueV2.monitor requested).machine fun (_ : Tid) op => op.blocking).Reachable s →
      RingMutexMpmcQueueV2.LosesNoWakeup s ∧ ¬ Halted s) := by
  constructor
  · intro hr
    have hno := RingMutexMpmcQueueV1.loses_no_wakeup hr
    have hcap := ring_capacity (RingMutexMpmcQueueV1.sect_spec requested) hr
    have hpos := new_capacity_pos (T := T) requested
    refine ⟨hno, ?_⟩
    rintro ⟨hc, hcons, hprod, hn, -⟩
    have hsome : 0 < total (allsOn .cv) s.pc := by
      apply hno hc
      by_cases hz : 0 < s.data.size
      · exact .inl ⟨hcons, hz⟩
      · refine .inr ⟨hprod, ?_⟩
        rw [hcap]
        exact Nat.lt_of_le_of_lt (Nat.le_of_not_lt hz) hpos
    have := (nothing_outstanding .cv hn).2
    omega
  · intro hr
    have hno := RingMutexMpmcQueueV2.loses_no_wakeup hr
    have hcap := ring_capacity (RingMutexMpmcQueueV2.sect_spec requested) hr
    have hpos := new_capacity_pos (T := T) requested
    refine ⟨hno, ?_⟩
    rintro ⟨hc, hcons, hprod, hn, hw⟩
    obtain ⟨h1, h2⟩ := hno hc
    have n1 := (nothing_outstanding .notEmpty hn).1
    have n2 := (nothing_outstanding .notFull hn).1
    have w1 := nobody_woken .notEmpty hw
    have w2 := nobody_woken .notFull hw
    have hcap' : s.data.capacity = (Ring.new requested : Ring T).capacity := hcap
    by_cases hz : 0 < s.data.size
    · have := h1 hcons hz
      omega
    · have := h2 hprod (by omega)
      omega

end

def freedSlot : List (Label (Fin 4) (RingOp Nat)) :=
  [.call 0 (.emplace (.value 1)), .acquire 0 none, .notify 0 none, .ret 0, .call 0 (.emplace (.value 2)), .acquire 0 none,
    .call 1 (.waitPop true), .acquire 1 none]

theorem blocking_wakes_both_sides_one :
    RingMutexMpmcQueueV1.LosesNoWakeup ((Run.ofExec ((RingMutexMpmcQueueV1.monitor 1).machine fun _ op => op.blocking)
      (.ret 0) freedSlot rfl).st 8) ∧
    RingMutexMpmcQueueV2.LosesNoWakeup ((Run.ofExec ((RingMutexMpmcQueueV2.monitor 1).machine fun _ op => op.blocking)
      (.ret 0) freedSlot rfl).st 8) :=
  ⟨((blocking_wakes_both_sides 1 _).1 (Run.reachable _ 8 (by decide))).1,
    ((blocking_wakes_both_sides 1 _).2 (Run.reachable _ 8 (by decide))).1⟩

/-! ## Pushes that throw after their wait -/

def RingOp.waiting : RingOp T → Bool
  | .emplace _ | .waitPop _ | .close => true
  | _ => false

section
variable {Tid : Type} [DecidableEq Tid] [Fintype Tid]

def RingMutexMpmcQueueV2.FailsTight (s : State Tid (Ring T) (RingOp T) Cv (Res T)) : Label Tid (RingOp T) → Prop
  | .acquire t _ =>
    ((s.pc t).ready.any fun x =>
      match x with
      | (.emplace (.throws _), woken) => woken
      | _ => false) = true ∧ Tight s
  | _ => False

instance RingMutexMpmcQueueV2.decidableFailsTight (s : State Tid (Ring T) (RingOp T) Cv (Res T)) :
    (a : Label Tid (RingOp T)) → Decidable (RingMutexMpmcQueueV2.FailsTight s a)
  | .acquire _ _ => inferInstanceAs (Decidable (_ ∧ _))
  | .call _ _ | .notify _ _ | .spurious _ | .ret _ => .isFalse id

theorem failing_pushes_wake [Elem T] (capacity : Nat) {n : Nat}
    (r : Run ((RingMutexMpmcQueueV2.monitor capacity).machine fun (_ : Tid) (op : RingOp T) => op.waiting) n)
    (hr : ∀ i, i < n → ¬ RingMutexMpmcQueueV2.FailsTight (r.st i) (r.lab i)) (i : Nat) (hi : i ≤ n) :
    ¬ StuckProducer .notFull (r.st i) := by
  refine ring_run_covered (RingMutexMpmcQueueV2.sect_spec capacity) (fun _ => true)
    (fun s _ a _ _ => List.mem_singleton_self _) (fun r => List.mem_cons_of_mem _ (List.mem_singleton_self _)) r ?_ i hi
  -- only a woken push that throws is silent here
  intro j hj hstrands
  apply hr j hj
  cases ha : r.lab j with
  | acquire t pick =>
    rw [ha] at hstrands
    obtain ⟨hsilent, htight⟩ := hstrands
    refine ⟨?_, htight⟩
    cases hready : ((r.st j).pc t).ready with
    | none => rw [hready] at hsilent; cases hsilent
    | some x =>
      obtain ⟨op, w⟩ := x
      have hcalled := op_called (r.reachable j (by omega)) (ready_op? hready)
      rw [hready] at hsilent
      simp only [Option.any_some] at hsilent ⊢
      cases op with
      | emplace b =>
        cases b with
        | value v => cases hsilent
        | throws l => exact hsilent
      | waitPop a => cases a <;> simp [Ring.silent] at hsilent
      | close => cases hsilent
      | _ => cases hcalled
  | _ => rw [ha] at hstrands; exact hstrands.elim

end

theorem failing_pushes_wake_one :
    ¬ StuckProducer .notFull ((Run.ofExec ((RingMutexMpmcQueueV2.monitor 1).machine fun _ op => op.waiting) (.ret 0)
      (wokenPush .notFull [none]) rfl).st 8) :=
  failing_pushes_wake 1 (Run.ofExec _ (.ret 0) (wokenPush .notFull [none]) rfl) (by decide) 8 (by decide)

def failingPush : List (Label (Fin 4) (RingOp Nat)) :=
  [.call 2 (.emplace (.value 1)), .acquire 2 none, .notify 2 none, .ret 2,
    .call 0 (.emplace (.throws none)), .acquire 0 none, .call 1 (.emplace (.value 2)), .acquire 1 none,
    .call 2 (.waitPop true), .acquire 2 none, .notify 2 (some 0), .ret 2, .acquire 0 none, .ret 0]

theorem failing_push_swallows :
    ∃ s : State (Fin 4) (Ring Nat) (RingOp Nat) Cv (Res Nat),
      ((RingMutexMpmcQueueV2.monitor 1).machine fun _ op => op.waiting).Reachable s ∧ StuckProducer .notFull s :=
  ⟨_, Machine.exec_reachable failingPush rfl, by decide⟩

/-! ## Pushes that notify nobody -/

def popAwake : Pc (RingOp T) Cv (Res T) → Bool
  | .entry op | .woken op _ => op.consumes
  | _ => false

section
variable {Tid : Type} [DecidableEq Tid] [Fintype Tid]

/-- An item is in the open ring and a consumer sleeps, with no notification of
`not_empty_cv_` outstanding and no consumer awake inside `wait_pop`. -/
def StuckConsumer (s : State Tid (Ring T) (RingOp T) Cv (Res T)) : Prop :=
  s.data.closed = false ∧ 0 < s.data.size ∧ (∃ t, consumerAsleep (s.pc t) = true) ∧
    (∀ t, notifying .notEmpty (s.pc t) = false) ∧ ∀ t, popAwake (s.pc t) = false

instance (s : State Tid (Ring T) (RingOp T) Cv (Res T)) : Decidable (StuckConsumer s) :=
  inferInstanceAs (Decidable (_ ∧ _ ∧ _ ∧ _ ∧ _))

/-- The section adds an item and tells nobody, or throws next to an item and gives up its wakeup. -/
def Ring.quiet (r : Ring T) : RingOp T → Bool
  | .tryEmplace (.value _) => decide (0 < r.size ∧ r.size < r.capacity)
  | .waitPop false => decide (0 < r.size)
  | _ => false

def TightItems (s : State Tid (Ring T) (RingOp T) Cv (Res T)) : Prop :=
  s.data.closed = false ∧ Stranded .notEmpty s.pc ∧ total (allsOn .notEmpty) s.pc = 0 ∧
    flight RingOp.entering .notEmpty s.pc ≤ s.data.size

instance (s : State Tid (Ring T) (RingOp T) Cv (Res T)) : Decidable (TightItems s) :=
  inferInstanceAs (Decidable (_ ∧ _ < _ ∧ _ ∧ _))

def RingMutexMpmcQueueV2.StrandsConsumer (s : State Tid (Ring T) (RingOp T) Cv (Res T)) : Label Tid (RingOp T) → Prop
  | .acquire t _ => ((s.pc t).ready.any fun x => s.data.quiet x.1) = true ∧ TightItems s
  | _ => False

instance RingMutexMpmcQueueV2.decidableStrandsConsumer (s : State Tid (Ring T) (RingOp T) Cv (Res T)) :
    (a : Label Tid (RingOp T)) → Decidable (RingMutexMpmcQueueV2.StrandsConsumer s a)
  | .acquire _ _ => inferInstanceAs (Decidable (_ ∧ _))
  | .call _ _ | .notify _ _ | .spurious _ | .ret _ => .isFalse id

section
variable [Elem T] {capacity : Nat} {calls : Tid → RingOp T → Bool} {s : State Tid (Ring T) (RingOp T) Cv (Res T)}

theorem RingMutexMpmcQueueV2.items_covered_step
    (hr : ((monitor (T := T) capacity).machine calls).Reachable s)
    {s' : State Tid (Ring T) (RingOp T) Cv (Res T)} {a : Label Tid (RingOp T)}
    (hs : (monitor capacity).step calls s a = some s') (hn : ¬ StrandsConsumer s a)
    (h : Covered RingOp.entering .notEmpty s.data.queued s.pc) :
    Covered RingOp.entering .notEmpty s'.data.queued s'.pc := by
  have hM := sect_spec (T := T) capacity
  refine Covered.step Ring.queued (step_spec hs) ?_ ?_ h
  · intro t pick op w d c ha hready hx
    have haw := ring_awake_consumer hM (fun op => Nat.le_refl _) hr hready
    have hsect := hM op w s.data
    rw [hx] at hsect
    cases hsect with
    | waitEmpty hc hsz hd =>
      rw [if_pos rfl, queued_like hd, queued_open hc]
      exact hsz
    | waitFull _ _ hd =>
      rw [if_neg (by decide), queued_like hd]
      rw [RingOp.entering_eq_zero rfl] at haw
      omega
  · intro t pick op w d held later r ha hready hx hst hall hneed
    subst ha
    have haw := ring_awake_consumer hM (fun op => Nat.le_refl _) hr hready
    have hle : awakeOn RingOp.entering .notEmpty (s.pc t) ≤ flight RingOp.entering .notEmpty s.pc :=
      (weight_le_total ..).trans (Nat.le_add_left ..)
    have hone : op.entering ≤ 1 := by
      unfold RingOp.entering
      split <;> omega
    have hsect := hM op w s.data
    rw [hx] at hsect
    cases hcl : s.data.closed with
    | true =>
      -- a closed ring stays closed and needs no consumer
      have := queued_shut (hsect.stays_closed hcl)
      exact .inr (by omega)
    | false =>
      have hq := queued_open hcl
      -- a quiet section runs only when a wakeup is to spare
      have spare : s.data.quiet op = true → s.data.size < flight RingOp.entering .notEmpty s.pc := fun hquiet =>
        Nat.lt_of_not_le fun hf => hn ⟨by rw [hready]; exact hquiet, hcl, hst, hall, hf⟩
      cases hsect with
      | refused hop hd =>
        rw [queued_like hd]
        rcases hop with ⟨-, hc⟩ | ⟨rfl, -⟩
        · rw [hcl] at hc
          cases hc
        · rw [RingOp.entering_eq_zero rfl] at haw
          exact .inr (by omega)
      | @pushed _ v _ hop hc hsz h1 _ h3 =>
        have hd : d.queued = s.data.size + 1 := (queued_open (h3.trans hcl)).trans h1
        rcases hop with rfl | rfl
        · have hsent : sent .notEmpty (tells (.emplace (.value v)) s.data).1 (tells (.emplace (.value v)) s.data).2 = 1 := rfl
          rw [RingOp.entering_eq_zero rfl] at haw
          rw [hsent]
          exact .inr (by omega)
        · rw [RingOp.entering_eq_zero rfl] at haw
          by_cases hz : s.data.size = 0
          · have hsent : sent .notEmpty (tells (.tryEmplace (.value v)) s.data).1 (tells (.tryEmplace (.value v)) s.data).2 = 1 := by
              simp [sent, tells, hz]
            rw [hsent]
            exact .inr (by omega)
          · have := spare (by simp [Ring.quiet, hsz, Nat.pos_of_ne_zero hz])
            exact .inr (by omega)
      | pushThrew hop _ _ hd =>
        rw [queued_like hd]
        have hz : op.entering = 0 := by rcases hop with rfl | rfl <;> rfl
        exact .inr (by omega)
      | nothing hop hz hd =>
        rw [queued_like hd]
        rcases hop with ⟨-, hc⟩ | rfl
        · rw [hcl] at hc
          cases hc
        · rw [RingOp.entering_eq_zero rfl] at haw
          exact .inr (by omega)
      | popped hop h1 _ h3 =>
        have hd := queued_open (h3.trans hcl)
        exact .inr (by omega)
      | popThrew hop hz hd =>
        rw [queued_like hd]
        rcases hop with rfl | rfl
        · have := spare (by simp [Ring.quiet, hz])
          exact .inr (by omega)
        · rw [RingOp.entering_eq_zero rfl] at haw
          exact .inr (by omega)
      | shut _ _ _ => exact .inl (List.mem_cons_self ..)

theorem RingMutexMpmcQueueV2.covered_not_stuck_consumer
    (hr : ((monitor (T := T) capacity).machine calls).Reachable s)
    (h : Covered RingOp.entering .notEmpty s.data.queued s.pc) : ¬ StuckConsumer s := by
  rintro ⟨hc, hsz, ⟨t, ht⟩, hn, hw⟩
  have hM := sect_spec (T := T) capacity
  obtain ⟨a, ha⟩ := consumer_sleeps_on hM hr ht
  obtain ⟨h1, h2⟩ := nothing_notifying hn
  have h3 : total (awakeOn RingOp.entering .notEmpty) s.pc = 0 := by
    apply Finset.sum_eq_zero
    intro u _
    have hwu := hw u
    cases hpc : s.pc u with
    | entry op =>
      rw [hpc] at hwu
      have hop : op.consumes = false := hwu
      simp [awakeOn, RingOp.entering, hop]
    | woken op v =>
      rw [hpc] at hwu
      rcases ring_sleeps hM hr (.inr hpc) with ⟨b, rfl, rfl⟩ | ⟨a, rfl, rfl⟩
      · rfl
      · cases hwu
    | _ => rfl
  have hzero := h.rest (asleep_total ha) h1 h2 h3
  rw [queued_open hc] at hzero
  omega

end

/-- **A run none of whose steps strands a consumer leaves no consumer stuck.** -/
theorem ring_consumers_woken [Elem T] (capacity : Nat) {n : Nat}
    (r : Run ((RingMutexMpmcQueueV2.monitor capacity).machine fun (_ : Tid) (_ : RingOp T) => true) n)
    (hr : ∀ i, i < n → ¬ RingMutexMpmcQueueV2.StrandsConsumer (r.st i) (r.lab i)) (i : Nat) (hi : i ≤ n) :
    ¬ StuckConsumer (r.st i) := by
  apply RingMutexMpmcQueueV2.covered_not_stuck_consumer (r.reachable i hi)
  refine r.persists (fun s => Covered RingOp.entering Cv.notEmpty s.data.queued s.pc) (Nat.zero_le i)
    (fun j _ hj h => ?_) ?_
  · exact RingMutexMpmcQueueV2.items_covered_step (r.reachable j (by omega)) (r.step j (by omega)) (hr j (by omega)) h
  · rw [r.start]
    exact fun hst => absurd hst (start_not_stranded _ _)

end

def tryWakeup : List (Label (Fin 4) (RingOp Nat)) :=
  [.call 0 (.waitPop true), .acquire 0 none, .call 2 (.tryEmplace (.value 10)), .acquire 2 (some 0), .ret 2, .acquire 0 none]

theorem ring_consumers_woken_one :
    ¬ StuckConsumer ((Run.ofExec ((RingMutexMpmcQueueV2.monitor 2).machine fun _ _ => true) (.ret 0) tryWakeup rfl).st 5) :=
  ring_consumers_woken 2 (Run.ofExec _ (.ret 0) tryWakeup rfl) (by decide) 5 (by decide)

def twoTryPushes : List (Label (Fin 4) (RingOp Nat)) :=
  [.call 0 (.waitPop true), .acquire 0 none, .call 1 (.waitPop true), .acquire 1 none,
    .call 2 (.tryEmplace (.value 10)), .acquire 2 (some 0), .ret 2, .call 2 (.tryEmplace (.value 11)), .acquire 2 none,
    .ret 2, .acquire 0 none, .notify 0 none, .ret 0]

theorem ring_consumer_stuck :
    ∃ s : State (Fin 4) (Ring Nat) (RingOp Nat) Cv (Res Nat),
      ((RingMutexMpmcQueueV2.monitor 2).machine fun _ op => op.noThrow).Reachable s ∧ StuckConsumer s :=
  ⟨_, Machine.exec_reachable twoTryPushes rfl, by decide⟩

end Yutil
