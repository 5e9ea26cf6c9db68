import Yutil.RingQueues
import Yutil.Wakeups
import Yutil.Broadcasts

/-!
# Wakeups of the ring queues

`try_pop` frees a slot and tells nobody, in all three versions; in V3 neither
does a `wait_pop` on a ring that is not full. A producer can then sleep next
to a free slot for good. The conditions under which it does not are stated on
the state before such a step: for V1, whose notifications wake everybody, that
somebody else is on the way; for V2 and V3 that more wakeups are in flight
than slots are free.
-/

namespace Yutil

open Interleave Monitor

variable {T : Type}

def RingOp.produces : RingOp T → Bool
  | .emplace _ => true
  | _ => false

def RingOp.consumes : RingOp T → Bool
  | .waitPop _ => true
  | _ => false

def producerAsleep : Pc (RingOp T) Cv (Res T) → Bool
  | .asleep op _ => op.produces
  | _ => false

def producerWoken : Pc (RingOp T) Cv (Res T) → Bool
  | .woken op _ => op.produces
  | _ => false

def notifying (v : Cv) : Pc (RingOp T) Cv (Res T) → Bool
  | .leaving _ todo _ => todo.contains (.one v) || todo.contains (.all v)
  | _ => false

section
variable {Tid : Type} [DecidableEq Tid] [Fintype Tid]

/-- A slot is free and a producer sleeps, with no notification of `v`
outstanding and no woken producer on its way. -/
def StuckProducer (v : Cv) (s : State Tid (Ring T) (RingOp T) Cv (Res T)) : Prop :=
  s.data.closed = false ∧ s.data.size < s.data.capacity ∧ (∃ t, producerAsleep (s.pc t) = true) ∧
    (∀ t, notifying v (s.pc t) = false) ∧ ∀ t, producerWoken (s.pc t) = false

instance (v : Cv) (s : State Tid (Ring T) (RingOp T) Cv (Res T)) : Decidable (StuckProducer v s) :=
  inferInstanceAs (Decidable (_ ∧ _ ∧ _ ∧ _ ∧ _))

omit [DecidableEq Tid] in
theorem nothing_notifying {v : Cv} {pc : Tid → Pc (RingOp T) Cv (Res T)} (h : ∀ u, notifying v (pc u) = false) :
    total (onesOn v) pc = 0 ∧ total (allsOn v) pc = 0 := by
  have idle : ∀ u, onesOn v (pc u) = 0 ∧ allsOn v (pc u) = 0 := by
    intro u
    have hu := h u
    cases hpc : pc u with
    | leaving op todo r =>
      rw [hpc] at hu
      simp only [notifying, Bool.or_eq_false_iff, List.contains_eq_mem, decide_eq_false_iff_not] at hu
      exact ⟨List.count_eq_zero.mpr hu.1, List.count_eq_zero.mpr hu.2⟩
    | _ => exact ⟨rfl, rfl⟩
  exact ⟨Finset.sum_eq_zero fun u _ => (idle u).1, Finset.sum_eq_zero fun u _ => (idle u).2⟩

def Ring.free (r : Ring T) : Nat := if r.closed then 0 else r.capacity - r.size

omit [DecidableEq Tid] [Fintype Tid] in
theorem free_like {d r : Ring T} (h : d.Like r) : d.free = r.free := by
  unfold Ring.free
  rw [h.closed, h.capacity, h.size]

omit [DecidableEq Tid] [Fintype Tid] in
theorem free_shut {r : Ring T} (h : r.closed = true) : r.free = 0 := if_pos h

omit [DecidableEq Tid] [Fintype Tid] in
theorem free_open {r : Ring T} (h : r.closed = false) : r.free = r.capacity - r.size := by
  unfold Ring.free
  rw [h]
  rfl

/-! ## V1 -/

/-- The step takes an item with `try_pop`, or throws in `emplace`, while a
producer sleeps and no other thread is on its way to notify or to push. -/
def RingMutexMpmcQueueV1.Strands (s : State Tid (Ring T) (RingOp T) Cv (Res T)) : Label Tid (RingOp T) → Prop
  | .acquire t _ =>
    ((s.pc t).ready.any fun x =>
      match x.1 with
      | .tryPop true => decide (0 < s.data.size)
      | .emplace (.throws _) => decide (s.data.size < s.data.capacity)
      | _ => false) = true ∧
    s.data.closed = false ∧ (∃ u, producerAsleep (s.pc u) = true) ∧ total (allsOn .cv) s.pc = 0 ∧
      ∀ u, u ≠ t → producerWoken (s.pc u) = false
  | _ => False

instance RingMutexMpmcQueueV1.decidableStrands (s : State Tid (Ring T) (RingOp T) Cv (Res T)) :
    (a : Label Tid (RingOp T)) → Decidable (RingMutexMpmcQueueV1.Strands s a)
  | .acquire _ _ => inferInstanceAs (Decidable (_ ∧ _ ∧ _ ∧ _ ∧ _))
  | .call _ _ | .notify _ _ | .spurious _ | .ret _ => .isFalse id

/-! ## V2 and V3 -/

/-- The section frees a slot without telling a producer, or throws after the
wait and gives up the wakeup it got. -/
def Ring.silent (notifies : Ring T → Bool) (r : Ring T) : RingOp T × Bool → Bool
  | (.tryPop true, _) => decide (0 < r.size)
  | (.waitPop true, _) => decide (0 < r.size) && !notifies r
  | (.emplace (.throws _), woken) => woken
  | _ => false

/-- The ring is open, more producers sleep than `notify_one` calls are
outstanding, no `notify_all` is, and no wakeup in flight is left over once
each free slot has one. -/
def Tight (s : State Tid (Ring T) (RingOp T) Cv (Res T)) : Prop :=
  s.data.closed = false ∧ Stranded .notFull s.pc ∧ total (allsOn .notFull) s.pc = 0 ∧
    flight (fun _ => 0) .notFull s.pc ≤ s.data.capacity - s.data.size

def Ring.Strands (notifies : Ring T → Bool) (s : State Tid (Ring T) (RingOp T) Cv (Res T)) :
    Label Tid (RingOp T) → Prop
  | .acquire t _ => (s.pc t).ready.any (s.data.silent notifies) = true ∧ Tight s
  | _ => False

instance (s : State Tid (Ring T) (RingOp T) Cv (Res T)) : Decidable (Tight s) :=
  inferInstanceAs (Decidable (_ ∧ _ < _ ∧ _ ∧ _))

instance Ring.decidableStrands (n : Ring T → Bool) (s : State Tid (Ring T) (RingOp T) Cv (Res T)) :
    (a : Label Tid (RingOp T)) → Decidable (Ring.Strands n s a)
  | .acquire _ _ => inferInstanceAs (Decidable (_ ∧ _))
  | .call _ _ | .notify _ _ | .spurious _ | .ret _ => .isFalse id

def RingMutexMpmcQueueV2.Strands (s : State Tid (Ring T) (RingOp T) Cv (Res T)) (a : Label Tid (RingOp T)) : Prop :=
  Ring.Strands (fun _ => true) s a

def RingMutexMpmcQueueV3.Strands (s : State Tid (Ring T) (RingOp T) Cv (Res T)) (a : Label Tid (RingOp T)) : Prop :=
  Ring.Strands (fun r => decide (r.size = r.capacity)) s a

instance RingMutexMpmcQueueV2.decidableStrands (s : State Tid (Ring T) (RingOp T) Cv (Res T))
    (a : Label Tid (RingOp T)) : Decidable (RingMutexMpmcQueueV2.Strands s a) := inferInstanceAs (Decidable (Ring.Strands ..))

instance RingMutexMpmcQueueV3.decidableStrands (s : State Tid (Ring T) (RingOp T) Cv (Res T))
    (a : Label Tid (RingOp T)) : Decidable (RingMutexMpmcQueueV3.Strands s a) := inferInstanceAs (Decidable (Ring.Strands ..))

/-! ## What sleeps -/

section
variable {M : Monitor (Ring T) (RingOp T) Cv (Res T)} {calls : Tid → RingOp T → Bool} {full empty : Cv}
  {tells : RingOp T → Ring T → Option (Notify Cv) × List (Notify Cv)} {s : State Tid (Ring T) (RingOp T) Cv (Res T)}

theorem ring_sleeps (hM : ∀ op w (r : Ring T), r.Sect full empty tells op (M.sect op w r))
    (hr : (M.machine calls).Reachable s) {t : Tid} {op : RingOp T} {v : Cv}
    (hpc : s.pc t = .asleep op v ∨ s.pc t = .woken op v) :
    (∃ b, op = .emplace b ∧ v = full) ∨ (∃ a, op = .waitPop a ∧ v = empty) := by
  obtain ⟨w, d, d', hx⟩ := op_sleeps hr hpc
  have hM := hM op w d
  rw [hx] at hM
  cases hM with
  | waitFull => exact .inl ⟨_, rfl, rfl⟩
  | waitEmpty => exact .inr ⟨_, rfl, rfl⟩

theorem producer_sleeps_on (hM : ∀ op w (r : Ring T), r.Sect full empty tells op (M.sect op w r))
    (hr : (M.machine calls).Reachable s) {t : Tid} (ht : producerAsleep (s.pc t) = true) :
    ∃ b, s.pc t = .asleep (.emplace b) full := by
  cases hpc : s.pc t with
  | asleep op v =>
    rw [hpc] at ht
    rcases ring_sleeps hM hr (.inl hpc) with ⟨b, rfl, rfl⟩ | ⟨a, rfl, rfl⟩
    · exact ⟨b, rfl⟩
    · cases ht
  | _ => rw [hpc] at ht; cases ht

omit [DecidableEq Tid] in
theorem asleep_total {t : Tid} {op : RingOp T} {v : Cv} (h : s.pc t = .asleep op v) : 0 < total (asleepOn v) s.pc :=
  total_pos.mpr ⟨t, by simp [h, asleepOn]⟩

omit [Fintype Tid] in
theorem ring_closed_step (hM : ∀ op w (r : Ring T), r.Sect full empty tells op (M.sect op w r))
    {s' : State Tid (Ring T) (RingOp T) Cv (Res T)} {a : Label Tid (RingOp T)} (hs : Steps M calls s a s') :
    (s.data.closed = true → s'.data.closed = true) ∧
    (s'.data.closed = true → s.data.closed = true ∨ ∃ t, (s.pc t).op? = some .close) := by
  cases hs with
  | @sleep t pick op w d v hready hx =>
    have hsect := hM op w s.data
    rw [hx] at hsect
    have hd : d.closed = s.data.closed := hsect.sleep.2.1.closed
    exact ⟨fun h => hd.trans h, fun h => .inl (hd.symm.trans h)⟩
  | @leave t pick op w d held later r pc hready hx hdel =>
    have hsect := hM op w s.data
    rw [hx] at hsect
    refine ⟨hsect.stays_closed, fun h => ?_⟩
    rcases hsect.leave.2 with hd | ⟨rfl, -⟩
    · exact .inl (hd.symm.trans h)
    · exact .inr ⟨t, ready_op? hready⟩
  | _ => exact ⟨id, .inl⟩

/-- A `notify_all` that only `close` makes is outstanding on closed rings only. -/
theorem ring_alls_closed (hM : ∀ op w (r : Ring T), r.Sect full empty tells op (M.sect op w r)) {v : Cv}
    (hA : ∀ op r, .all v ∈ (tells op r).2 → op = .close) (hr : (M.machine calls).Reachable s)
    (h : 0 < total (allsOn v) s.pc) : s.data.closed = true := by
  refine hr.invariant (I := fun s => 0 < total (allsOn v) s.pc → s.data.closed = true) ?_ ?_ h
  · intro h
    obtain ⟨t, ht⟩ := total_pos.mp h
    cases ht
  · intro s a s' _ ih hs h
    have spec := step_spec hs
    have hclosed := (ring_closed_step hM spec).1
    rcases spec.alls v with hle | ⟨op, w, held, later, r, hx, hlater⟩
    · exact hclosed (ih (Nat.lt_of_lt_of_le h hle))
    · have hsect := hM op w s.data
      rw [hx] at hsect
      cases hsect with
      | pushed hop _ _ _ _ _ => rcases hop with rfl | rfl <;> cases hA _ _ hlater
      | popped hop _ _ _ => rcases hop with rfl | rfl <;> cases hA _ _ hlater
      | shut _ _ hd => exact hd
      | _ => cases hlater

theorem ring_inside (hM : ∀ op w (r : Ring T), r.Sect .notFull .notEmpty tells op (M.sect op w r))
    (hr : (M.machine calls).Reachable s) {t : Tid} {op : RingOp T} {w : Bool} (hready : (s.pc t).ready = some (op, w)) :
    insideOn .notFull (s.pc t) = (if op.produces && w then 1 else 0) ∧
    insideOn .notEmpty (s.pc t) = if op.consumes && w then 1 else 0 := by
  cases hpc : s.pc t with
  | entry o =>
    rw [hpc] at hready
    cases hready
    simp [insideOn]
  | woken o v =>
    rw [hpc] at hready
    cases hready
    rcases ring_sleeps hM hr (.inr hpc) with ⟨b, rfl, rfl⟩ | ⟨a, rfl, rfl⟩ <;>
      simp [insideOn, RingOp.produces, RingOp.consumes]
  | _ => rw [hpc] at hready; cases hready

theorem ring_awake (hM : ∀ op w (r : Ring T), r.Sect .notFull .notEmpty tells op (M.sect op w r))
    (hr : (M.machine calls).Reachable s) {t : Tid} {op : RingOp T} {w : Bool} (hready : (s.pc t).ready = some (op, w)) :
    awakeOn (fun _ => 0) .notFull (s.pc t) = if op.produces && w then 1 else 0 := by
  rw [← (ring_inside hM hr hready).1]
  cases hpc : s.pc t <;> rw [hpc] at hready <;> first | rfl | cases hready

/-- The step lemma of V2 and V3: while no step strands a producer, the
sleeping producers stay covered. `hN`: a section that notifies as `notifies`
says does send a `notify_one`, unless nobody sleeps. -/
theorem ring_covered_step (hM : ∀ op w (r : Ring T), r.Sect .notFull .notEmpty tells op (M.sect op w r))
    (notifies : Ring T → Bool)
    (hN : ∀ a, notifies s.data = true → Stranded .notFull s.pc → Notify.one Cv.notFull ∈ (tells (.waitPop a) s.data).2)
    (hC : ∀ r, .all .notFull ∈ (tells .close r).2) (hr : (M.machine calls).Reachable s)
    {s' : State Tid (Ring T) (RingOp T) Cv (Res T)} {a : Label Tid (RingOp T)} (hs : M.step calls s a = some s')
    (hn : ¬ Ring.Strands notifies s a) (h : Covered (fun _ => 0) .notFull s.data.free s.pc) :
    Covered (fun _ => 0) .notFull s'.data.free s'.pc := by
  refine Covered.step Ring.free (step_spec hs) ?_ ?_ h
  · rintro t pick op w d c rfl hready hx
    have hsect := hM op w s.data
    have ha := ring_awake hM hr hready
    rw [hx] at hsect
    cases hsect with
    | waitFull hc hsz hd =>
      rw [if_pos rfl, free_like hd, free_open hc]
      omega
    | waitEmpty hc hsz hd =>
      rw [if_neg (by decide), ha, free_like hd]
      simp [RingOp.produces]
  · rintro t pick op w d held later r rfl hready hx hst hall hneed
    have hsect := hM op w s.data
    have ha := ring_awake hM hr hready
    have hle : awakeOn (fun _ => 0) .notFull (s.pc t) ≤ flight (fun _ => 0) .notFull s.pc :=
      (weight_le_total ..).trans (Nat.le_add_left ..)
    -- a silent section of an open ring runs only when a wakeup is to spare
    have spare : s.data.closed = false → s.data.silent notifies (op, w) = true →
        s.data.capacity - s.data.size < flight (fun _ => 0) .notFull s.pc := fun hc hsil =>
      Nat.lt_of_not_le fun hf => hn ⟨by rw [hready]; exact hsil, hc, hst, hall, hf⟩
    rw [hx] at hsect
    by_cases hcl : s.data.closed = true
    · -- a closed ring stays closed and needs no producer
      have := free_shut (hsect.stays_closed hcl)
      exact .inr (by omega)
    · have hcl := Bool.eq_false_iff.mpr hcl
      rw [free_open hcl] at hneed
      cases hsect with
      | refused hop hd =>
        rw [free_like hd, free_open hcl, ha]
        rcases hop with ⟨-, hc⟩ | ⟨rfl, -⟩
        · rw [hcl] at hc; cases hc
        · simp only [RingOp.produces, Bool.false_and, Bool.false_eq_true, ite_false]
          exact .inr (by omega)
      | pushed hop hc hsz h1 h2 h3 =>
        rw [free_open (h3.trans hcl), h1, h2]
        have : awakeOn (fun _ => 0) .notFull (s.pc t) ≤ 1 := by rw [ha]; split <;> omega
        exact .inr (by omega)
      | @pushThrew _ l _ hop hc hsz hd =>
        rw [free_like hd, free_open hcl, ha]
        rcases hop with rfl | rfl
        · cases w with
          | true =>
            have := spare hcl rfl
            simp only [RingOp.produces, Bool.and_self, ite_true]
            exact .inr (by omega)
          | false =>
            simp only [RingOp.produces, Bool.and_false, Bool.false_eq_true, ite_false]
            exact .inr (by omega)
        · simp only [RingOp.produces, Bool.false_and, Bool.false_eq_true, ite_false]
          exact .inr (by omega)
      | nothing hop hz hd =>
        rw [free_like hd, free_open hcl, ha]
        have : op.produces = false := by rcases hop with ⟨rfl, -⟩ | rfl <;> rfl
        simp only [this, Bool.false_and, Bool.false_eq_true, ite_false]
        exact .inr (by omega)
      | popped hop h1 h2 h3 =>
        rw [free_open (h3.trans hcl), h2, ha]
        have hpr : op.produces = false := by rcases hop with rfl | rfl <;> rfl
        simp only [hpr, Bool.false_and, Bool.false_eq_true, ite_false]
        by_cases hsil : s.data.silent notifies (op, w) = true
        · have := spare hcl hsil
          exact .inr (by omega)
        · have hpos : 0 < s.data.size := by omega
          rcases hop with rfl | rfl
          · have hnt : notifies s.data = true := by simpa [Ring.silent, hpos] using hsil
            have := List.count_pos_iff.mpr (hN true hnt hst)
            simp only [sent]
            exact .inr (by omega)
          · simp [Ring.silent, hpos] at hsil
      | popThrew hop _ hd =>
        rw [free_like hd, free_open hcl, ha]
        have : op.produces = false := by rcases hop with rfl | rfl <;> rfl
        simp only [this, Bool.false_and, Bool.false_eq_true, ite_false]
        exact .inr (by omega)
      | shut _ _ _ => exact .inl (hC _)

theorem covered_not_stuck (hM : ∀ op w (r : Ring T), r.Sect .notFull .notEmpty tells op (M.sect op w r))
    (hr : (M.machine calls).Reachable s) (h : Covered (fun _ => 0) .notFull s.data.free s.pc) :
    ¬ StuckProducer .notFull s := by
  rintro ⟨hc, hsz, ⟨t, ht⟩, hn, hw⟩
  obtain ⟨b, hb⟩ := producer_sleeps_on hM hr ht
  obtain ⟨h1, h2⟩ := nothing_notifying hn
  have h3 : total (awakeOn (fun _ => 0) .notFull) s.pc = 0 := by
    apply Finset.sum_eq_zero
    intro u _
    have hwu := hw u
    cases hpc : s.pc u with
    | woken op v =>
      rw [hpc] at hwu
      rcases ring_sleeps hM hr (.inr hpc) with ⟨b, rfl, rfl⟩ | ⟨a, rfl, rfl⟩
      · cases hwu
      · rfl
    | _ => rfl
  have hzero := h.rest (asleep_total hb) h1 h2 h3
  rw [free_open hc] at hzero
  omega

/-! ### V1, whose notifications wake everybody -/

def RingMutexMpmcQueueV1.Served (s : State Tid (Ring T) (RingOp T) Cv (Res T)) : Prop :=
  s.data.closed = false → s.data.size < s.data.capacity → (∃ t, producerAsleep (s.pc t) = true) →
    0 < total (allsOn .cv) s.pc ∨ ∃ t, producerWoken (s.pc t) = true

omit [Fintype Tid] in
theorem asleep_delivers {pc pc' : Tid → Pc (RingOp T) Cv (Res T)} {n : Notify Cv} (h : Delivers pc n pc') {u : Tid}
    (hu : producerAsleep (pc' u) = true) : producerAsleep (pc u) = true := by
  cases hpc : pc' u with
  | asleep op v =>
    rw [hpc] at hu
    rw [(h.sleeper hpc).1]
    exact hu
  | _ => rw [hpc] at hu; cases hu

omit [Fintype Tid] in
theorem woken_delivers {pc pc' : Tid → Pc (RingOp T) Cv (Res T)} {n : Notify Cv} (h : Delivers pc n pc') {u : Tid}
    (hu : producerWoken (pc u) = true) : producerWoken (pc' u) = true := by
  have : pc' u = pc u := h.same fun v => by cases hpc : pc u <;> rw [hpc] at hu <;> first | rfl | cases hu
  rwa [this]

omit [Fintype Tid] in
theorem asleep_update {pc : Tid → Pc (RingOp T) Cv (Res T)} {t u : Tid} {p : Pc (RingOp T) Cv (Res T)}
    (hp : producerAsleep p = false) (hu : producerAsleep (Function.update pc t p u) = true) :
    producerAsleep (pc u) = true := by
  by_cases hut : u = t
  · subst hut
    rw [Function.update_self, hp] at hu
    cases hu
  · rwa [Function.update_of_ne hut] at hu

omit [Fintype Tid] in
theorem woken_update {pc : Tid → Pc (RingOp T) Cv (Res T)} {t u : Tid} {p : Pc (RingOp T) Cv (Res T)}
    (ht : producerWoken (pc t) = false) (hu : producerWoken (pc u) = true) :
    producerWoken (Function.update pc t p u) = true := by
  have : u ≠ t := by rintro rfl; rw [ht] at hu; cases hu
  rwa [Function.update_of_ne this]

theorem nobody_after {capacity : Nat} [Elem T]
    (hr : ((RingMutexMpmcQueueV1.monitor (T := T) capacity).machine calls).Reachable s)
    {pc : Tid → Pc (RingOp T) Cv (Res T)} (h : Delivers s.pc (.all .cv) pc) (u : Tid) :
    ¬ producerAsleep (pc u) = true := by
  cases hpc : pc u with
  | asleep op v =>
    obtain ⟨hu, hne⟩ := h.sleeper hpc
    have hv : v = .cv := by
      rcases ring_sleeps (RingMutexMpmcQueueV1.sect_spec capacity) hr (.inl hu) with
        ⟨_, -, rfl⟩ | ⟨_, -, rfl⟩ <;> rfl
    exact absurd (congrArg Notify.all hv.symm) hne
  | _ =>
    intro h
    cases h

omit [DecidableEq Tid] in
theorem served_mono {s s' : State Tid (Ring T) (RingOp T) Cv (Res T)} (h : RingMutexMpmcQueueV1.Served s)
    (hd : s'.data.closed = false → s'.data.size < s'.data.capacity →
      s.data.closed = false ∧ s.data.size < s.data.capacity)
    (h1 : ∀ u, producerAsleep (s'.pc u) = true → producerAsleep (s.pc u) = true)
    (h2 : ∀ u, producerWoken (s.pc u) = true → producerWoken (s'.pc u) = true)
    (ha : total (allsOn .cv) s.pc ≤ total (allsOn .cv) s'.pc) : RingMutexMpmcQueueV1.Served s' := by
  rintro hc hs ⟨t, ht⟩
  obtain ⟨hc, hs⟩ := hd hc hs
  rcases h hc hs ⟨t, h1 t ht⟩ with h | ⟨u, hu⟩
  · exact .inl (Nat.lt_of_lt_of_le h ha)
  · exact .inr ⟨u, h2 u hu⟩

theorem RingMutexMpmcQueueV1.served_step {capacity : Nat} [Elem T]
    (hr : ((monitor (T := T) capacity).machine calls).Reachable s)
    {s' : State Tid (Ring T) (RingOp T) Cv (Res T)} {a : Label Tid (RingOp T)}
    (hs : (monitor capacity).step calls s a = some s') (hn : ¬ Strands s a) (h : Served s) : Served s' := by
  -- the `notify_all` calls of the other threads stay outstanding
  have alls : ∀ (t : Tid) (p : Pc (RingOp T) Cv (Res T)), allsOn .cv (s.pc t) ≤ allsOn .cv p →
      total (allsOn .cv) s.pc ≤ total (allsOn .cv) (Function.update s.pc t p) := by
    intro t p hp
    have := total_update (allsOn .cv) s.pc t p
    omega
  -- a thread that is no woken producer moves on
  have moves : ∀ (d : Ring T) (t : Tid) (p : Pc (RingOp T) Cv (Res T)),
      (d.closed = false → d.size < d.capacity → s.data.closed = false ∧ s.data.size < s.data.capacity) →
      producerAsleep p = false → producerWoken (s.pc t) = false → allsOn .cv (s.pc t) = 0 →
      Served ⟨d, Function.update s.pc t p⟩ := fun d t p hd hp ht h0 =>
    served_mono h hd (fun u hu => asleep_update hp hu) (fun u hu => woken_update ht hu)
      (alls t p (by rw [h0]; exact Nat.zero_le _))
  have like : ∀ {d : Ring T}, d.Like s.data → d.closed = false → d.size < d.capacity →
      s.data.closed = false ∧ s.data.size < s.data.capacity := fun hd h1 h2 =>
    ⟨hd.closed ▸ h1, by rw [← hd.size, ← hd.capacity]; exact h2⟩
  cases step_spec hs with
  | @call t op hpc _ => exact moves s.data t _ (fun h1 h2 => ⟨h1, h2⟩) rfl (by rw [hpc]; rfl) (by rw [hpc]; rfl)
  | @sleep t pick op w d v hready hx =>
    have hsect := sect_spec capacity op w s.data
    obtain ⟨-, -, w3⟩ := ready_weights .cv hready
    rw [hx] at hsect
    cases hsect with
    | waitFull hc hsz hd => exact fun _ hlt => absurd hlt (by rw [hd.size, hd.capacity]; omega)
    | waitEmpty hc hsz hd =>
      refine moves d t _ (like hd) rfl ?_ w3
      cases hpc : s.pc t <;> rw [hpc] at hready <;> cases hready <;> rfl
  | @leave t pick op w d held later r pc hready hx hdel =>
    have hsect := sect_spec capacity op w s.data
    obtain ⟨-, -, w3⟩ := ready_weights .cv hready
    have unwoken : op.produces = false → producerWoken (s.pc t) = false := fun hop => by
      cases hpc : s.pc t <;> rw [hpc] at hready <;> cases hready <;> first | rfl | exact hop
    -- what stays for the sleeping producers when the section sends nothing
    have alone : ∀ {d : Ring T}, (∃ u, producerAsleep (Function.update s.pc t (.leaving op [] r) u) = true) →
        ((∃ u, producerAsleep (s.pc u) = true) → total (allsOn .cv) s.pc = 0 →
          ¬ ∀ u, u ≠ t → producerWoken (s.pc u) = false) → Served ⟨d, Function.update s.pc t (.leaving op [] r)⟩ := by
      rintro d ⟨u, hu⟩ hst - - -
      by_cases h0 : total (allsOn .cv) s.pc = 0
      · have := hst ⟨u, asleep_update rfl hu⟩ h0
        simp only [not_forall, Bool.not_eq_false] at this
        obtain ⟨v, hv, hw⟩ := this
        exact .inr ⟨v, by simpa only [Function.update_of_ne hv] using hw⟩
      · exact .inl (Nat.lt_of_lt_of_le (Nat.pos_of_ne_zero h0) (alls t _ (by rw [w3]; exact Nat.zero_le _)))
    have coming : ∀ {d : Ring T} {pc : Tid → Pc (RingOp T) Cv (Res T)}, later = [.all .cv] →
        Served ⟨d, Function.update pc t (.leaving op later r)⟩ := by
      rintro d pc rfl - - -
      exact .inl (total_pos.mpr ⟨t, by simp [allsOn]⟩)
    rw [hx] at hsect
    cases hsect with
    | refused hop hd =>
      rcases hop with ⟨rfl, hc⟩ | ⟨rfl, -⟩
      · exact fun h1 => absurd (hd.closed.symm.trans h1) (by simp [hc])
      · cases hdel
        exact moves d t _ (like hd) rfl (unwoken rfl) w3
    | pushed hop hc hsz _ _ _ =>
      rcases hop with rfl | rfl
      · exact coming rfl
      · -- `try_emplace` has notified everybody under the lock
        rintro - - ⟨u, hu⟩
        cases hdel with
        | some hdel =>
          have hu := asleep_update rfl hu
          exact absurd hu (nobody_after hr hdel u)
    | @pushThrew _ l _ hop hc hsz hd =>
      cases hdel
      rcases hop with rfl | rfl
      · intro h1 h2 hu
        exact alone hu (fun hu h0 hw => hn ⟨by rw [hready]; simpa using hsz, hc, hu, h0, hw⟩) h1 h2 hu
      · exact moves d t _ (like hd) rfl (unwoken rfl) w3
    | nothing hop hz hd =>
      have hop : op.produces = false ∧ (tells op s.data).1 = none := by rcases hop with ⟨rfl, -⟩ | rfl <;> exact ⟨rfl, rfl⟩
      cases hdel
      exact moves d t _ (like hd) rfl (unwoken hop.1) w3
    | @popped _ _ x hop h1 h2 h3 =>
      rcases hop with rfl | rfl
      · exact coming rfl
      · cases hdel
        intro h4 h5 hu
        refine alone hu (fun hu h0 hw => hn ⟨?_, h3.symm.trans h4, hu, h0, hw⟩) h4 h5 hu
        rw [hready]
        simp only [Option.any_some, decide_eq_true_eq]
        omega
    | popThrew hop _ hd =>
      cases hdel
      exact moves d t _ (like hd) rfl (unwoken (by rcases hop with rfl | rfl <;> rfl)) w3
    | shut _ _ hd =>
      intro h1
      cases hd.symm.trans h1
  | @notify t pick op n todo r pc hpc hdel =>
    have hsame := hdel.same (t := t) fun c => by rw [hpc]; rfl
    by_cases hn : n = .all .cv
    · subst hn
      rintro - - ⟨u, hu⟩
      exact absurd (asleep_update rfl hu) (nobody_after hr hdel u)
    · refine served_mono h (fun h1 h2 => ⟨h1, h2⟩) (fun u hu => asleep_delivers hdel (asleep_update rfl hu))
        (fun u hu => woken_update (by rw [hsame, hpc]; rfl) (woken_delivers hdel hu)) ?_
      have h1 := total_update (allsOn .cv) pc t (.leaving op todo r)
      have h2 := (hdel.totals (fun _ => 0) .cv).2.1
      rw [hsame, hpc] at h1
      simp only [allsOn, List.count_cons, beq_iff_eq, hn, ite_false] at h1 ⊢
      omega
  | @spurious t op v hpc =>
    by_cases hop : op.produces = true
    · exact fun _ _ _ => .inr ⟨t, by simp [producerWoken, hop]⟩
    · exact moves s.data t _ (fun h1 h2 => ⟨h1, h2⟩) rfl (by rw [hpc]; rfl) (by rw [hpc]; rfl)
  | @ret t op r hpc => exact moves s.data t _ (fun h1 h2 => ⟨h1, h2⟩) rfl (by rw [hpc]; rfl) (by rw [hpc]; rfl)

/-! ### V3's counters -/

def RingMutexMpmcQueueV3.Counts (op : RingOp T) (w : Bool) (r : Ring T) : Exit (Ring T) Cv (Res T) → Prop
  | .sleep d _ =>
    d.waitingConsumers = r.waitingConsumers + (if op.consumes && !w then 1 else 0) ∧
    d.waitingProducers = r.waitingProducers + if op.produces && !w then 1 else 0
  | .leave d _ _ _ =>
    d.waitingConsumers = r.waitingConsumers - (if op.consumes && w then 1 else 0) ∧
    d.waitingProducers = r.waitingProducers - if op.produces && w then 1 else 0

theorem RingMutexMpmcQueueV3.sect_counts [Elem T] (capacity : Nat) (op : RingOp T) (w : Bool) (r : Ring T) :
    Counts op w r ((monitor capacity).sect op w r) := by
  let Left (d : Ring T) : Prop := d.waitingConsumers = r.waitingConsumers - (if op.consumes && w then 1 else 0) ∧
    d.waitingProducers = r.waitingProducers - if op.produces && w then 1 else 0
  have puts : ∀ (d : Ring T) (held : Option (Notify Cv)) (later : List (Notify Cv)) (b : Built T), Left d →
      Counts op w r (d.put held later b) := by
    intro d held later b h
    cases b with
    | value v => exact h
    | throws l => cases l <;> exact h
  have gets : ∀ (d : Ring T) (later : List (Notify Cv)) (a : Bool), Left d → Counts op w r (d.get later a) := by
    intro d later a h
    unfold Ring.get
    split
    · exact h
    · cases a <;> exact h
  -- the two waits, whatever their tests say
  have waits : ∀ (c : Bool) (e : Exit (Ring T) Cv (Res T)) (d : Ring T) (v : Cv), Counts op w r e →
      Counts op w r (.sleep d v) → Counts op w r (if c then e else .sleep d v) := by
    intro c e d v h1 h2
    cases c with
    | true => exact h1
    | false => exact h2
  have orPut : ∀ (c : Bool) (d : Ring T) (later : List (Notify Cv)) (b : Built T), Left d →
      Counts op w r (if c then .leave d none [] (.pushed false) else d.put none later b) := by
    intro c d later b h
    cases c with
    | true => exact h
    | false => exact puts _ _ _ _ h
  cases op with
  | emplace b => cases w <;> exact waits _ _ _ _ (orPut _ _ _ _ ⟨rfl, rfl⟩) ⟨rfl, rfl⟩
  | tryEmplace b => exact orPut _ _ _ _ ⟨rfl, rfl⟩
  | waitPop a => cases w <;> exact waits _ _ _ _ (gets _ _ _ ⟨rfl, rfl⟩) ⟨rfl, rfl⟩
  | tryPop a => exact gets _ _ _ ⟨rfl, rfl⟩
  | close => exact ⟨rfl, rfl⟩

/-- The waiter counters are the numbers of threads inside the waits. -/
theorem RingMutexMpmcQueueV3.waiting [Elem T] {capacity : Nat}
    (hr : ((monitor (T := T) capacity).machine calls).Reachable s) :
    s.data.waitingConsumers = total (insideOn .notEmpty) s.pc ∧
    s.data.waitingProducers = total (insideOn .notFull) s.pc := by
  refine hr.invariant (I := fun s => s.data.waitingConsumers = total (insideOn .notEmpty) s.pc ∧
    s.data.waitingProducers = total (insideOn .notFull) s.pc) ?_ ?_
  · constructor <;> exact (Finset.sum_eq_zero fun _ _ => rfl).symm
  · rintro s a s' hr ⟨h1, h2⟩ hs
    have hM := sect_spec (T := T) capacity
    constructor
    · refine Counted.step Ring.waitingConsumers (step_spec hs) ?_ ?_ h1
      · intro t op w d c hready hx
        obtain ⟨hc, -⟩ := hx ▸ sect_counts capacity op w s.data
        rw [hc, (ring_inside hM hr hready).2]
        have hsect := hM op w s.data
        rw [hx] at hsect
        cases hsect <;> cases w <;> rfl
      · intro t op w d held later r hready hx
        obtain ⟨hc, -⟩ := hx ▸ sect_counts capacity op w s.data
        have := weight_le_total (insideOn .notEmpty) s.pc t
        rw [(ring_inside hM hr hready).2] at this ⊢
        omega
    · refine Counted.step Ring.waitingProducers (step_spec hs) ?_ ?_ h2
      · intro t op w d c hready hx
        obtain ⟨-, hc⟩ := hx ▸ sect_counts capacity op w s.data
        rw [hc, (ring_inside hM hr hready).1]
        have hsect := hM op w s.data
        rw [hx] at hsect
        cases hsect <;> cases w <;> rfl
      · intro t op w d held later r hready hx
        obtain ⟨-, hc⟩ := hx ▸ sect_counts capacity op w s.data
        have := weight_le_total (insideOn .notFull) s.pc t
        rw [(ring_inside hM hr hready).1] at this ⊢
        omega

end

end

section
variable {Tid : Type} [DecidableEq Tid] [Fintype Tid] [Elem T] {calls : Tid → RingOp T → Bool}

/-- A full ring with a producer asleep has its counter up. -/
theorem RingMutexMpmcQueueV3.tells_full {capacity : Nat} {s : State Tid (Ring T) (RingOp T) Cv (Res T)}
    (hr : ((monitor capacity).machine calls).Reachable s) (hfull : s.data.size = s.data.capacity)
    (hst : Stranded .notFull s.pc) (a : Bool) : Notify.one Cv.notFull ∈ (tells (.waitPop a) s.data).2 := by
  have hw := (waiting hr).2
  have : 0 < s.data.waitingProducers := by
    rw [hw]
    exact Nat.pos_of_ne_zero fun h => not_stranded_of_inside h hst
  simp [tells, notifyProducer, hfull, this]

end

/-! ## No producer is left asleep -/

/-- In every run of the class, of any threads, none of whose steps strands a
producer, no producer is stuck. -/
def WakesProducers (M : Monitor (Ring T) (RingOp T) Cv (Res T)) (v : Cv)
    (strands : ∀ {Tid : Type} [DecidableEq Tid] [Fintype Tid],
      State Tid (Ring T) (RingOp T) Cv (Res T) → Label Tid (RingOp T) → Prop) : Prop :=
  ∀ (Tid : Type) [DecidableEq Tid] [Fintype Tid] (n : Nat) (r : Run (M.machine fun (_ : Tid) _ => true) n),
    (∀ i, i < n → ¬ strands (r.st i) (r.lab i)) → ∀ i, i ≤ n → ¬ StuckProducer v (r.st i)

section
variable {Tid : Type} [DecidableEq Tid] [Fintype Tid] [Elem T] {calls : Tid → RingOp T → Bool} {n : Nat}

theorem RingMutexMpmcQueueV1.run_served {capacity : Nat} (r : Run ((monitor (T := T) capacity).machine calls) n)
    (hr : ∀ i, i < n → ¬ Strands (r.st i) (r.lab i)) (i : Nat) (hi : i ≤ n) : Served (r.st i) := by
  refine r.persists Served (Nat.zero_le i) (fun j _ hj h => ?_) ?_
  · exact served_step (r.reachable j (by omega)) (r.step j (by omega)) (hr j (by omega)) h
  · rw [r.start]
    rintro - - ⟨t, ht⟩
    cases ht

omit [Elem T] in
theorem ring_run_covered {M : Monitor (Ring T) (RingOp T) Cv (Res T)}
    {tells : RingOp T → Ring T → Option (Notify Cv) × List (Notify Cv)}
    (hM : ∀ op w (r : Ring T), r.Sect .notFull .notEmpty tells op (M.sect op w r)) (notifies : Ring T → Bool)
    (hN : ∀ s, (M.machine calls).Reachable s → ∀ a, notifies s.data = true → Stranded .notFull s.pc →
      Notify.one Cv.notFull ∈ (tells (.waitPop a) s.data).2)
    (hC : ∀ r, .all .notFull ∈ (tells .close r).2) (r : Run (M.machine calls) n)
    (hr : ∀ i, i < n → ¬ Ring.Strands notifies (r.st i) (r.lab i)) (i : Nat) (hi : i ≤ n) :
    ¬ StuckProducer .notFull (r.st i) := by
  apply covered_not_stuck hM (r.reachable i hi)
  refine r.persists (fun s => Covered (fun _ => 0) Cv.notFull s.data.free s.pc) (Nat.zero_le i) (fun j _ hj h => ?_) ?_
  · have hj' := r.reachable j (by omega)
    exact ring_covered_step hM notifies (hN _ hj') hC hj' (r.step j (by omega)) (hr j (by omega)) h
  · rw [r.start]
    exact fun hst => absurd hst (start_not_stranded M calls)

end

/-- **A run none of whose steps strands a producer leaves no producer stuck.** -/
theorem ring_producers_woken [Elem T] (capacity : Nat) :
    WakesProducers (RingMutexMpmcQueueV1.monitor (T := T) capacity) .cv RingMutexMpmcQueueV1.Strands ∧
    WakesProducers (RingMutexMpmcQueueV2.monitor (T := T) capacity) .notFull RingMutexMpmcQueueV2.Strands ∧
    WakesProducers (RingMutexMpmcQueueV3.monitor (T := T) capacity) .notFull RingMutexMpmcQueueV3.Strands := by
  refine ⟨fun Tid _ _ n r hr i hi => ?_, fun Tid _ _ n r hr i hi => ?_, fun Tid _ _ n r hr i hi => ?_⟩
  · have hserved := RingMutexMpmcQueueV1.run_served r hr i hi
    rintro ⟨hc, hs, ha, hn, hw⟩
    rcases hserved hc hs ha with h | ⟨t, ht⟩
    · have := (nothing_notifying hn).2
      omega
    · rw [hw t] at ht
      cases ht
  · refine ring_run_covered (RingMutexMpmcQueueV2.sect_spec capacity) (fun _ => true) (fun s _ a _ _ => ?_) (fun r => ?_)
      r hr i hi
    · exact List.mem_singleton_self _
    · exact List.mem_cons_of_mem _ (List.mem_singleton_self _)
  · refine ring_run_covered (RingMutexMpmcQueueV3.sect_spec capacity) (fun r => decide (r.size = r.capacity))
      (fun s hs a hfull hst => ?_) (fun r => ?_) r hr i hi
    · exact RingMutexMpmcQueueV3.tells_full hs (by simpa using hfull) hst a
    · exact List.mem_cons_of_mem _ (List.mem_singleton_self _)

def wokenPush (v : Cv) (n : List (Option (Fin 2))) : List (Label (Fin 2) (RingOp Nat)) :=
  [.call 0 (.emplace (.value 1)), .acquire 0 none] ++ n.map (.notify 0 ·) ++
    [.ret 0, .call 0 (.emplace (.value 2)), .acquire 0 none, .call 1 (.waitPop true), .acquire 1 none,
      .notify 1 (if v = .cv then none else some 0), .ret 1, .acquire 0 none]

theorem ring_producers_woken_one :
    ¬ StuckProducer .cv ((Run.ofExec ((RingMutexMpmcQueueV1.monitor 1).machine fun _ _ => true) (.ret 0)
      (wokenPush .cv [none]) rfl).st 8) ∧
    ¬ StuckProducer .notFull ((Run.ofExec ((RingMutexMpmcQueueV2.monitor 1).machine fun _ _ => true) (.ret 0)
      (wokenPush .notFull [none]) rfl).st 8) ∧
    ¬ StuckProducer .notFull ((Run.ofExec ((RingMutexMpmcQueueV3.monitor 1).machine fun _ _ => true) (.ret 0)
      (wokenPush .notFull []) rfl).st 8) :=
  ⟨(ring_producers_woken 1).1 _ _ (Run.ofExec _ (.ret 0) (wokenPush .cv [none]) rfl) (by decide) 8 (by decide),
    (ring_producers_woken 1).2.1 _ _ (Run.ofExec _ (.ret 0) (wokenPush .notFull [none]) rfl) (by decide) 8 (by decide),
    (ring_producers_woken 1).2.2 _ _ (Run.ofExec _ (.ret 0) (wokenPush .notFull []) rfl) (by decide) 8 (by decide)⟩

def silentPop (n : List (Option (Fin 2))) : List (Label (Fin 2) (RingOp Nat)) :=
  [.call 0 (.emplace (.value 1)), .acquire 0 none] ++ n.map (.notify 0 ·) ++
    [.ret 0, .call 0 (.emplace (.value 2)), .acquire 0 none, .call 1 (.tryPop true), .acquire 1 none, .ret 1]

theorem ring_producer_stuck :
    (∃ s : State (Fin 2) (Ring Nat) (RingOp Nat) Cv (Res Nat),
      ((RingMutexMpmcQueueV1.monitor 1).machine fun _ op => op.noThrow).Reachable s ∧ StuckProducer .cv s) ∧
    (∃ s : State (Fin 2) (Ring Nat) (RingOp Nat) Cv (Res Nat),
      ((RingMutexMpmcQueueV2.monitor 1).machine fun _ op => op.noThrow).Reachable s ∧ StuckProducer .notFull s) ∧
    ∃ s : State (Fin 2) (Ring Nat) (RingOp Nat) Cv (Res Nat),
      ((RingMutexMpmcQueueV3.monitor 1).machine fun _ op => op.noThrow).Reachable s ∧ StuckProducer .notFull s :=
  ⟨⟨_, Machine.exec_reachable (silentPop [none]) rfl, by decide⟩,
    ⟨_, Machine.exec_reachable (silentPop [none]) rfl, by decide⟩,
    ⟨_, Machine.exec_reachable (silentPop []) rfl, by decide⟩⟩

end Yutil
