import Yutil.RingWakeups

/-!
# The produce, close, drain protocol on `RingMutexMpmcQueueV3`

Producers push, consumers loop on `wait_pop` until it returns `false`, and the
main thread closes the queue when all producers have returned. A `wait_pop`
that leaves the full state wakes one producer, and the pops after it nobody.
With two producers asleep, a second item taken before the first producer is
back leaves the other one asleep while the ring drains.
-/

namespace Yutil

open Interleave Monitor

variable {P C T : Type}

abbrev Party (P C : Type) := P ⊕ C ⊕ Unit

def plays : Party P C → RingOp T → Bool
  | .inl _, .emplace (.value _) => true
  | .inr (.inl _), .waitPop true => true
  | .inr (.inr _), .close => true
  | _, _ => false

/-- `left` counts the pushes a producer has not called yet, `exited` the
consumers whose loop has ended, and `shut` says that `close` was called. -/
structure Session (P C T : Type) where
  mon : State (Party P C) (Ring T) (RingOp T) Cv (Res T)
  left : P → Nat
  exited : C → Bool
  shut : Bool

namespace Session

def unfinished (s : Session P C T) (p : P) : Bool := decide (0 < s.left p) || (s.mon.pc (.inl p)).op?.isSome

variable [DecidableEq P] [DecidableEq C] [Fintype P] [Fintype C]

/-- The threads' own control: a producer counts its pushes, a consumer stops
after `false`, and `close` waits for the producers. -/
def allows (s : Session P C T) : Label (Party P C) (RingOp T) → Bool
  | .call (.inl p) _ => decide (0 < s.left p)
  | .call (.inr (.inl c)) _ => !s.exited c
  | .call (.inr (.inr _)) _ => !s.shut && decide (∀ p, s.unfinished p = false)
  | _ => true

def note (s : Session P C T) (m : State (Party P C) (Ring T) (RingOp T) Cv (Res T)) :
    Label (Party P C) (RingOp T) → Session P C T
  | .call (.inl p) _ => { s with mon := m, left := Function.update s.left p (s.left p - 1) }
  | .call (.inr (.inr _)) _ => { s with mon := m, shut := true }
  | .ret (.inr (.inl c)) =>
    match s.mon.pc (.inr (.inl c)) with
    | .leaving _ _ (.popped none) => { s with mon := m, exited := Function.update s.exited c true }
    | _ => { s with mon := m }
  | _ => { s with mon := m }

variable [Elem T]

def step (capacity : Nat) (s : Session P C T) (a : Label (Party P C) (RingOp T)) : Option (Session P C T) :=
  if s.allows a then ((RingMutexMpmcQueueV3.monitor capacity).step plays s.mon a).map fun m => s.note m a else none

def machine (C T : Type) [DecidableEq C] [Fintype C] [Elem T] (capacity : Nat) (pushes : P → Nat) :
    Machine (Session P C T) (Label (Party P C) (RingOp T)) where
  start := ⟨((RingMutexMpmcQueueV3.monitor capacity).machine plays).start, pushes, fun _ => false, false⟩
  step := step capacity

omit [Fintype P] [Fintype C] [Elem T] in
@[simp] theorem note_mon (s : Session P C T) (m : State (Party P C) (Ring T) (RingOp T) Cv (Res T))
    (a : Label (Party P C) (RingOp T)) : (s.note m a).mon = m := by
  unfold note
  split <;> first | rfl | (split <;> rfl)

theorem step_iff {capacity : Nat} {s s' : Session P C T} {a : Label (Party P C) (RingOp T)} :
    s.step capacity a = some s' ↔ s.allows a = true ∧
      (RingMutexMpmcQueueV3.monitor capacity).step plays s.mon a = some s'.mon ∧ s' = s.note s'.mon a := by
  unfold step
  constructor
  · intro h
    split at h
    · rename_i ha
      obtain ⟨m, hm, rfl⟩ := Option.map_eq_some_iff.mp h
      exact ⟨ha, by rw [note_mon]; exact hm, by rw [note_mon]⟩
    · cases h
  · rintro ⟨ha, hm, hs⟩
    rw [if_pos ha, hm, Option.map_some, ← hs]

/-- A stuck session: the queue is not closed, some producer has not finished,
every unfinished producer is asleep, so is every consumer, no notification is
outstanding and no woken thread is to check its predicate again. -/
def Deadlock (s : Session P C T) : Prop :=
  s.shut = false ∧ (∃ p, s.unfinished p = true) ∧
    (∀ p, s.unfinished p = true → (s.mon.pc (.inl p)).sleepsOn .notFull = true) ∧
    (∀ c, (s.mon.pc (.inr (.inl c))).sleepsOn .notEmpty = true) ∧
    (∀ t, (s.mon.pc t).notifies = false) ∧ ∀ t, (s.mon.pc t).rechecks = false

instance (s : Session P C T) : Decidable (Deadlock s) := inferInstanceAs (Decidable (_ ∧ _ ∧ _ ∧ _ ∧ _ ∧ _))

/-! ## Invariants of a session -/

variable {capacity : Nat} {pushes : P → Nat} {s s' : Session P C T} {a : Label (Party P C) (RingOp T)}

theorem mon_reachable (h : (machine C T capacity pushes).Reachable s) :
    ((RingMutexMpmcQueueV3.monitor (T := T) capacity).machine plays).Reachable s.mon := by
  induction h with
  | start => exact .start
  | step _ hs ih => exact .step ih (step_iff.mp hs).2.1

omit [DecidableEq P] [DecidableEq C] [Fintype P] [Fintype C] [Elem T] in
theorem plays_producer {t : Party P C} {b : Built T} (h : plays t (.emplace b) = true) : ∃ p, t = .inl p := by
  rcases t with p | c | u
  · exact ⟨p, rfl⟩
  · cases h
  · cases h

omit [DecidableEq P] [DecidableEq C] [Fintype P] [Fintype C] [Elem T] in
theorem plays_consumer {t : Party P C} {a : Bool} (h : plays t (.waitPop (T := T) a) = true) : ∃ c, t = .inr (.inl c) := by
  rcases t with p | c | u
  · cases h
  · exact ⟨c, rfl⟩
  · cases h

/-- Only `close` closes the ring, and only the main thread calls it. -/
theorem closed_shut (h : (machine C T capacity pushes).Reachable s) :
    (s.mon.data.closed = true → s.shut = true) ∧ ∀ t, (s.mon.pc t).op? = some .close → s.shut = true := by
  refine h.invariant (I := fun s => (s.mon.data.closed = true → s.shut = true) ∧
    ∀ t, (s.mon.pc t).op? = some .close → s.shut = true) ?_ ?_
  · exact ⟨(fun h => Bool.noConfusion h), fun _ h => by cases h⟩
  rintro s a s' hr ⟨h1, h2⟩ hs
  obtain ⟨ha, hm, he⟩ := step_iff.mp hs
  have hshut : s.shut = true → s'.shut = true := by
    intro h
    rw [he]
    unfold note
    split <;> first | rfl | exact h | (split <;> exact h)
  have spec := step_spec hm
  refine ⟨fun hc => ?_, fun t ht => ?_⟩
  · rcases (ring_closed_step (RingMutexMpmcQueueV3.sect_spec capacity) spec).2 hc with h | ⟨t, ht⟩
    · exact hshut (h1 h)
    · exact hshut (h2 t ht)
  · rcases spec.op? t with h | ⟨op, rfl, hcall, -, h⟩ | ⟨-, h⟩
    · exact hshut (h2 t (h ▸ ht))
    · rw [h] at ht
      cases ht
      rcases t with p | c | u
      · cases hcall
      · cases hcall
      · rw [he]; rfl
    · rw [h] at ht; cases ht

def pending : Pc (RingOp T) Cv (Res T) → Nat
  | .entry _ | .asleep _ _ | .woken _ _ => 1
  | _ => 0

def pushesLeft (s : Session P C T) (p : P) : Nat := s.left p + pending (s.mon.pc (.inl p))

omit [DecidableEq P] [DecidableEq C] [Fintype P] [Fintype C] [Elem T] in
theorem pending_wake (v : Cv) (p : Pc (RingOp T) Cv (Res T)) : pending (p.wake v) = pending p := by
  cases p with
  | asleep op c => by_cases h : c = v <;> simp [Pc.wake, pending, h]
  | _ => rfl

omit [Fintype P] [Fintype C] [Elem T] in
theorem pending_delivers {pc pc' : Party P C → Pc (RingOp T) Cv (Res T)} {n : Notify Cv} (h : Delivers pc n pc')
    (u : Party P C) : pending (pc' u) = pending (pc u) := by
  cases h with
  | @wakes v t op ht =>
    by_cases hut : u = t
    · subst hut; rw [Function.update_self, ht]; rfl
    · rw [Function.update_of_ne hut]
  | nobody _ => rfl
  | everybody => exact pending_wake ..

omit [Fintype P] [Fintype C] in
theorem pending_step {m m' : State (Party P C) (Ring T) (RingOp T) Cv (Res T)}
    (h : Steps (RingMutexMpmcQueueV3.monitor capacity) plays m a m') :
    (∀ u, pending (m'.pc u) ≤ pending (m.pc u) ∨ (∃ op, a = .call u op) ∧ pending (m'.pc u) = 1) ∧
    (m'.data.size ≤ m.data.size ∨ ∃ t op pick, a = .acquire t pick ∧ (m.pc t).op? = some op ∧
      (∃ b, op = .emplace b ∨ op = .tryEmplace b) ∧ m'.data.size = m.data.size + 1 ∧
      pending (m'.pc t) + 1 ≤ pending (m.pc t)) := by
  have keep : ∀ {pc : Party P C → Pc (RingOp T) Cv (Res T)} {t : Party P C} {p : Pc (RingOp T) Cv (Res T)},
      (∀ u, pending (pc u) = pending (m.pc u)) → pending p ≤ pending (m.pc t) →
      ∀ u, pending (Function.update pc t p u) ≤ pending (m.pc u) := by
    intro pc t p hpc hp u
    by_cases hut : u = t
    · subst hut; rwa [Function.update_self]
    · rw [Function.update_of_ne hut]; exact Nat.le_of_eq (hpc u)
  have ready : ∀ {t op w}, (m.pc t).ready = some (op, w) → pending (m.pc t) = 1 := by
    intro t op w hr
    cases hpc : m.pc t <;> rw [hpc] at hr <;> first | rfl | cases hr
  cases h with
  | @call t op hpc _ =>
    refine ⟨fun u => ?_, .inl (Nat.le_refl _)⟩
    by_cases hut : u = t
    · subst hut; exact .inr ⟨⟨op, rfl⟩, by simp [pending]⟩
    · exact .inl (by simp [Function.update_of_ne hut])
  | @sleep t pick op w d v hr hx =>
    have hsect := RingMutexMpmcQueueV3.sect_spec capacity op w m.data
    refine ⟨fun u => .inl (keep (fun _ => rfl) (by rw [ready hr]; exact Nat.le_refl _) u), .inl ?_⟩
    rw [hx] at hsect
    cases hsect with
    | waitFull _ _ hd | waitEmpty _ _ hd => exact Nat.le_of_eq hd.size
  | @leave t pick op w d held later r pc hr hx hdel =>
    have hsect := RingMutexMpmcQueueV3.sect_spec capacity op w m.data
    have hpc : ∀ u, pending (pc u) = pending (m.pc u) := fun u => by
      cases hdel with
      | none => rfl
      | some hd => exact pending_delivers hd u
    refine ⟨fun u => .inl (keep hpc (Nat.zero_le _) u), ?_⟩
    rw [hx] at hsect
    cases hsect with
    | refused _ hd | pushThrew _ _ _ hd | nothing _ _ hd | popThrew _ _ hd => exact .inl (Nat.le_of_eq hd.size)
    | @pushed _ v _ hop _ _ hd _ _ =>
      refine .inr ⟨t, op, pick, rfl, ready_op? hr, ⟨.value v, hop⟩, hd, ?_⟩
      rw [ready hr]
      simp [pending]
    | popped _ hd _ _ => exact .inl (by simp only; omega)
    | shut hd _ _ => exact .inl (Nat.le_of_eq hd)
  | @notify t pick op n todo r pc hpc hdel =>
    exact ⟨fun u => .inl (keep (pending_delivers hdel) (Nat.zero_le _) u), .inl (Nat.le_refl _)⟩
  | @spurious t op v hpc => exact ⟨fun u => .inl (keep (fun _ => rfl) (by rw [hpc]; exact Nat.le_refl _) u), .inl (Nat.le_refl _)⟩
  | @ret t op r hpc => exact ⟨fun u => .inl (keep (fun _ => rfl) (Nat.zero_le _) u), .inl (Nat.le_refl _)⟩

omit [Fintype P] [Fintype C] [Elem T] in
theorem note_left (s : Session P C T) (m : State (Party P C) (Ring T) (RingOp T) Cv (Res T))
    (a : Label (Party P C) (RingOp T)) (p : P) :
    (s.note m a).left p = s.left p ∨ ∃ op, a = .call (.inl p) op ∧ (s.note m a).left p = s.left p - 1 := by
  unfold note
  split
  · rename_i q op
    by_cases hpq : p = q
    · subst hpq; exact .inr ⟨op, rfl, by simp⟩
    · exact .inl (by simp [hpq])
  · exact .inl rfl
  · split <;> exact .inl rfl
  · exact .inl rfl

theorem pushesLeft_step (hr : (machine C T capacity pushes).Reachable s)
    (hs : (machine C T capacity pushes).step s a = some s') :
    (∀ p, s'.pushesLeft p ≤ s.pushesLeft p) ∧
    (s'.mon.data.size ≤ s.mon.data.size ∨
      s'.mon.data.size = s.mon.data.size + 1 ∧ ∃ p, s'.pushesLeft p < s.pushesLeft p) := by
  obtain ⟨ha, hm, he⟩ := step_iff.mp hs
  obtain ⟨h1, h2⟩ := pending_step (step_spec hm)
  have left : ∀ p, s'.left p = s.left p ∨ ∃ op, a = .call (.inl p) op ∧ s'.left p = s.left p - 1 := fun p => by
    rw [he]; exact note_left s s'.mon a p
  refine ⟨fun p => ?_, h2.imp_right ?_⟩
  · unfold pushesLeft
    rcases left p with hl | ⟨op, rfl, hl⟩
    · rcases h1 (.inl p) with h1 | ⟨⟨op, rfl⟩, h1⟩
      · omega
      · have hp : s'.left p = s.left p - 1 := by rw [he]; simp [note]
        simp only [allows, decide_eq_true_eq] at ha
        omega
    · simp only [allows, decide_eq_true_eq] at ha
      rcases h1 (.inl p) with h1 | ⟨-, h1⟩ <;> omega
  · rintro ⟨t, op, pick, rfl, hop, ⟨b, hb⟩, hsz, hp⟩
    refine ⟨hsz, ?_⟩
    have hcall := op_called (mon_reachable hr) hop
    obtain ⟨p, rfl⟩ : ∃ p, t = .inl p := by
      rcases t with p | c | u
      · exact ⟨p, rfl⟩
      · rcases hb with rfl | rfl <;> cases hcall
      · rcases hb with rfl | rfl <;> cases hcall
    refine ⟨p, ?_⟩
    unfold pushesLeft
    rcases left p with hl | ⟨op, h, -⟩
    · omega
    · cases h

theorem pushes_bound (hr : (machine C T capacity pushes).Reachable s) :
    (∀ p, s.pushesLeft p ≤ pushes p) ∧ ∑ p, s.pushesLeft p + s.mon.data.size ≤ ∑ p, pushes p ∧
    (0 < total (asleepOn .notFull) s.mon.pc → ∑ p, s.pushesLeft p + s.mon.data.capacity ≤ ∑ p, pushes p) := by
  refine hr.invariant (I := fun s => (∀ p, s.pushesLeft p ≤ pushes p) ∧
    ∑ p, s.pushesLeft p + s.mon.data.size ≤ ∑ p, pushes p ∧ (0 < total (asleepOn .notFull) s.mon.pc →
      ∑ p, s.pushesLeft p + s.mon.data.capacity ≤ ∑ p, pushes p)) ?_ ?_
  · refine ⟨fun p => Nat.le_refl _, Nat.le_refl _, fun h => ?_⟩
    obtain ⟨t, ht⟩ := total_pos.mp h
    cases ht
  · rintro s a s' hr ⟨h1, h2, h3⟩ hs
    obtain ⟨hle, hsz⟩ := pushesLeft_step hr hs
    have hsum : ∑ p, s'.pushesLeft p ≤ ∑ p, s.pushesLeft p := Finset.sum_le_sum fun p _ => hle p
    have hbound : ∑ p, s'.pushesLeft p + s'.mon.data.size ≤ ∑ p, pushes p := by
      rcases hsz with hsz | ⟨hsz, p, hp⟩
      · omega
      · have : ∑ p, s'.pushesLeft p < ∑ p, s.pushesLeft p :=
          Finset.sum_lt_sum (fun p _ => hle p) ⟨p, Finset.mem_univ p, hp⟩
        omega
    refine ⟨fun p => (hle p).trans (h1 p), hbound, fun hpos => ?_⟩
    have hm := (step_iff.mp hs).2.1
    have hcap : s'.mon.data.capacity = s.mon.data.capacity :=
      (ring_wf rfl (fun _ _ _ => RingMutexMpmcQueueV3.sect_ok _ _) (.step (mon_reachable hr) hm)).2.trans
        (ring_wf rfl (fun _ _ _ => RingMutexMpmcQueueV3.sect_ok _ _) (mon_reachable hr)).2.symm
    rcases (step_spec hm).asleep .notFull with h | ⟨t, op, w, hready, hx⟩
    · have := h3 (by omega)
      omega
    · have hsect := RingMutexMpmcQueueV3.sect_spec capacity op w s.mon.data
      rw [hx] at hsect
      cases hsect with
      | waitFull _ hfull hd =>
        have := hd.size
        omega

theorem inside_pending (hr : (machine C T capacity pushes).Reachable s) :
    total (insideOn .notFull) s.mon.pc ≤ ∑ p, pending (s.mon.pc (.inl p)) := by
  have hin : ∀ x : C ⊕ Unit, insideOn .notFull (s.mon.pc (.inr x)) = 0 := by
    intro x
    have key : ∀ op v, (s.mon.pc (.inr x) = .asleep op v ∨ s.mon.pc (.inr x) = .woken op v) → v ≠ .notFull := by
      intro op v hpc
      rcases ring_sleeps (RingMutexMpmcQueueV3.sect_spec capacity) (mon_reachable hr) hpc with ⟨b, rfl, -⟩ | ⟨a, -, rfl⟩
      · have hop : (s.mon.pc (.inr x)).op? = some (.emplace b) := by rcases hpc with h | h <;> rw [h] <;> rfl
        obtain ⟨p, hp⟩ := plays_producer (op_called (mon_reachable hr) hop)
        cases hp
      · intro h
        cases h
    cases hpc : s.mon.pc (.inr x) with
    | asleep op v => simp [insideOn, key op v (.inl hpc)]
    | woken op v => simp [insideOn, key op v (.inr hpc)]
    | _ => rfl
  unfold total
  rw [Fintype.sum_sum_type, Finset.sum_eq_zero fun x _ => hin x, Nat.add_zero]
  apply Finset.sum_le_sum
  intro p _
  cases s.mon.pc (.inl p) <;> simp [insideOn, pending] <;> split <;> omega

/-! ## When producers are always woken -/

/-- Two producers are never asleep at once, or every pop leaves the full state. -/
def Light (capacity : Nat) (pushes : P → Nat) : Prop :=
  capacity = 1 ∨ (∀ p q, 0 < pushes p → 0 < pushes q → p = q) ∨ ∑ p, pushes p ≤ capacity + 1

omit [DecidableEq P] [DecidableEq C] [Elem T] in
/-- With one thread inside the wait, a stranded producer sleeps at a full ring. -/
theorem not_tight (hopen : s.mon.data.closed = false) (hst : Stranded .notFull s.mon.pc)
    (hall : total (allsOn .notFull) s.mon.pc = 0)
    (h : Covered (fun _ => 0) .notFull s.mon.data.free s.mon.pc) (hin : total (insideOn .notFull) s.mon.pc ≤ 1) :
    s.mon.data.capacity ≤ s.mon.data.size := by
  have hin' := inside_total .notFull s.mon.pc
  have hfree : s.mon.data.free = s.mon.data.capacity - s.mon.data.size := free_open hopen
  rcases h hst with h | h
  · omega
  · unfold Stranded at hst
    unfold flight at h
    omega

theorem covered (hl : Light (Ring.new (T := T) capacity).capacity pushes)
    (hr : (machine C T capacity pushes).Reachable s) :
    Covered (fun _ => 0) .notFull s.mon.data.free s.mon.pc := by
  refine hr.invariant (I := fun s => Covered (fun _ => 0) .notFull s.mon.data.free s.mon.pc)
    (fun h => absurd h (start_not_stranded (RingMutexMpmcQueueV3.monitor (T := T) capacity) plays)) ?_
  intro s a s' hr ih hs
  have hmr := mon_reachable hr
  obtain ⟨hwf, hcap⟩ := ring_wf rfl (fun _ _ _ => RingMutexMpmcQueueV3.sect_ok _ _) hmr
  refine ring_covered_step (RingMutexMpmcQueueV3.sect_spec capacity) (fun r => decide (r.size = r.capacity)) ?_ ?_ hmr
    (step_iff.mp hs).2.1 ?_ ih
  · exact fun a hfull hst => RingMutexMpmcQueueV3.tells_full hmr (by simpa using hfull) hst a
  · exact fun r => List.mem_cons_of_mem _ (List.mem_singleton_self _)
  · -- a silent pop finds a ring that is neither full nor empty
    intro hst
    cases a with
    | acquire t pick =>
      obtain ⟨hsil, hopen, hstr, hall, -⟩ := hst
      have hsilent : 0 < s.mon.data.size ∧ s.mon.data.size < s.mon.data.capacity := by
        cases hready : (s.mon.pc t).ready with
        | none => rw [hready] at hsil; cases hsil
        | some x =>
          obtain ⟨op, w⟩ := x
          rw [hready] at hsil
          have hcall := op_called hmr (ready_op? hready)
          have := hwf.size_le
          cases op with
          | emplace b =>
            cases b with
            | value v => cases hsil
            | throws l => rcases t with p | c | u <;> cases hcall
          | tryEmplace b => cases hsil
          | waitPop b =>
            cases b with
            | true =>
              simp only [Option.any_some, Ring.silent, Bool.and_eq_true, decide_eq_true_eq, Bool.not_eq_true',
                decide_eq_false_iff_not] at hsil
              omega
            | false => cases hsil
          | tryPop b => rcases t with p | c | u <;> cases hcall
          | close => cases hsil
      have hasleep : 0 < total (asleepOn .notFull) s.mon.pc := Nat.lt_of_le_of_lt (Nat.zero_le _) hstr
      have hin := inside_pending hr
      have hin' := inside_total .notFull s.mon.pc
      obtain ⟨hb1, -, hb2⟩ := pushes_bound hr
      rcases hl with h1 | h2 | h3
      · omega
      · -- only one producer ever pushes
        have hone : ∑ p, pending (s.mon.pc (.inl p)) ≤ 1 := by
          have hle : ∀ p, pending (s.mon.pc (.inl p)) ≤ 1 := fun p => by cases s.mon.pc (.inl p) <;> simp [pending]
          have hpos : ∀ p, 0 < pending (s.mon.pc (.inl p)) → 0 < pushes p := fun p hp =>
            Nat.lt_of_lt_of_le (Nat.lt_of_lt_of_le hp (Nat.le_add_left ..)) (hb1 p)
          by_cases hex : ∃ p, 0 < pending (s.mon.pc (.inl p))
          · obtain ⟨p, hp⟩ := hex
            rw [Finset.sum_eq_single p]
            · exact hle p
            · intro q _ hq
              by_contra h0
              exact hq (h2 q p (hpos q (Nat.pos_of_ne_zero h0)) (hpos p hp))
            · exact fun h => absurd (Finset.mem_univ p) h
          · rw [Finset.sum_eq_zero fun p _ => Nat.eq_zero_of_not_pos fun hp => hex ⟨p, hp⟩]
            exact Nat.zero_le _
        exact absurd (not_tight hopen hstr hall ih (by omega)) (by omega)
      · have hle : ∑ p, pending (s.mon.pc (.inl p)) ≤ ∑ p, s.pushesLeft p :=
          Finset.sum_le_sum fun p _ => Nat.le_add_left ..
        have := hb2 hasleep
        exact absurd (not_tight hopen hstr hall ih (by omega)) (by omega)
    | _ => exact hst

/-! ## Consumers -/

/-- While the queue is open and holds items, a sleeping set of consumers has a `notify_one` coming. -/
def ConsumersCalled (m : State (Party P C) (Ring T) (RingOp T) Cv (Res T)) : Prop :=
  m.data.closed = false → 0 < m.data.size → (∀ c, (m.pc (.inr (.inl c))).sleepsOn .notEmpty = true) →
    0 < total (onesOn .notEmpty) m.pc

omit [Fintype P] [Fintype C] [Elem T] in
theorem sleepsOn_delivers {pc pc' : Party P C → Pc (RingOp T) Cv (Res T)} {n : Notify Cv} (h : Delivers pc n pc')
    {v : Cv} {u : Party P C} (hu : (pc' u).sleepsOn v = true) : (pc u).sleepsOn v = true ∧ n ≠ .all v := by
  obtain ⟨op, hop⟩ := sleepsOn_iff.mp hu
  obtain ⟨hpc, hne⟩ := h.sleeper hop
  exact ⟨sleepsOn_iff.mpr ⟨op, hpc⟩, hne⟩

theorem consumersCalled [Nonempty C] (hr : (machine C T capacity pushes).Reachable s) : ConsumersCalled s.mon := by
  have hmr := mon_reachable hr
  apply hmr.invariant (I := ConsumersCalled) (fun _ h => absurd h (Nat.lt_irrefl 0))
  intro m a m' hmr ih hs hc hsz hall
  have c₀ := Classical.arbitrary C
  -- a step of a thread that is no consumer, or leaves its consumer awake
  have other : ∀ {pc : Party P C → Pc (RingOp T) Cv (Res T)} {t : Party P C} {p : Pc (RingOp T) Cv (Res T)},
      m'.pc = Function.update pc t p → p.sleepsOn .notEmpty = false → ∀ c, Sum.inr (Sum.inl c) ≠ t ∧
        (pc (.inr (.inl c))).sleepsOn .notEmpty = true := by
    intro pc t p hm' hp c
    have h := hall c
    rw [hm'] at h
    by_cases hct : Sum.inr (Sum.inl c) = t
    · subst hct; rw [Function.update_self, hp] at h; cases h
    · rw [Function.update_of_ne hct] at h; exact ⟨hct, h⟩
  cases step_spec hs with
  | @call t op hpc _ =>
    have h1 := total_update (onesOn .notEmpty) m.pc t (.entry op)
    have h2 := ih hc hsz fun c => (other rfl rfl c).2
    rw [hpc] at h1
    simp only [onesOn] at h1 ⊢
    omega
  | @sleep t pick op w d v hready hx =>
    have hsect := RingMutexMpmcQueueV3.sect_spec capacity op w m.data
    obtain ⟨-, w2, -⟩ := ready_weights .notEmpty hready
    rw [hx] at hsect
    cases hsect with
    | @waitFull b _ _ _ hd =>
      have h1 := total_update (onesOn .notEmpty) m.pc t (.asleep (.emplace b) .notFull)
      have h2 := ih (hd.closed.symm.trans hc) (hd.size ▸ hsz) fun c => (other rfl rfl c).2
      rw [w2, show onesOn .notEmpty (.asleep _ _ : Pc (RingOp T) Cv (Res T)) = 0 from rfl] at h1
      simp only
      omega
    | waitEmpty _ h0 hd => exact absurd (hd.size.trans h0) (Nat.ne_of_gt hsz)
  | @leave t pick op w d held later r pc hready hx hdel =>
    have hsect := RingMutexMpmcQueueV3.sect_spec capacity op w m.data
    obtain ⟨-, w2, -⟩ := ready_weights .notEmpty hready
    have h1 := total_update (onesOn .notEmpty) pc t (.leaving op later r)
    have hasleep : ∀ c, (m.pc (.inr (.inl c))).sleepsOn .notEmpty = true := fun c => by
      have h := (other rfl rfl c).2
      cases hdel with
      | none => exact h
      | some hd => exact (sleepsOn_delivers hd h).1
    have hones : total (onesOn .notEmpty) pc = total (onesOn .notEmpty) m.pc := (hdel.totals (fun _ => 0) .notEmpty).1
    have hself : onesOn .notEmpty (pc t) = onesOn .notEmpty (m.pc t) := by rw [hdel.same (ready_not_asleep hready)]
    have keep : m.data.closed = false → 0 < m.data.size →
        0 < total (onesOn .notEmpty) (Function.update pc t (.leaving op later r)) := fun hc hsz => by
      have := ih hc hsz hasleep
      omega
    rw [hx] at hsect
    cases hsect with
    | refused _ hd | pushThrew _ _ _ hd | nothing _ _ hd | popThrew _ _ hd =>
      exact keep (hd.closed.symm.trans hc) (hd.size ▸ hsz)
    | pushed hop hopen _ _ _ _ =>
      by_cases h0 : m.data.size = 0
      · -- the first item of an empty ring: the consumers are counted, so one is told
        have hw := (RingMutexMpmcQueueV3.waiting hmr).1
        have hin : 0 < total (insideOn .notEmpty) m.pc := by
          obtain ⟨op, hop⟩ := sleepsOn_iff.mp (hasleep c₀)
          exact total_pos.mpr ⟨_, by rw [hop]; simp [insideOn]⟩
        have htells : (RingMutexMpmcQueueV3.tells op m.data).2 = [.one .notEmpty] := by
          have : m.data.size = 0 ∧ m.data.waitingConsumers > 0 := ⟨h0, hw ▸ hin⟩
          rcases hop with rfl | rfl <;> simp only [RingMutexMpmcQueueV3.tells, RingMutexMpmcQueueV3.notifyConsumer, if_pos this]
        refine total_pos.mpr ⟨t, ?_⟩
        rw [htells]
        simp [onesOn]
      · exact keep hopen (Nat.pos_of_ne_zero h0)
    | popped _ hd _ hcl => exact keep (hcl.symm.trans hc) (by simp only at hsz; omega)
    | shut _ _ hd => cases hd.symm.trans hc
  | @notify t pick op n todo r pc hpc hdel =>
    have hasleep : ∀ c, (m.pc (.inr (.inl c))).sleepsOn .notEmpty = true := fun c =>
      (sleepsOn_delivers hdel (other rfl rfl c).2).1
    have hb := ih hc hsz hasleep
    have h1 := total_update (onesOn .notEmpty) pc t (.leaving op todo r)
    have h2 := (hdel.totals (fun _ => 0) .notEmpty).1
    rw [hdel.same (t := t) fun v => by rw [hpc]; rfl, hpc] at h1
    by_cases hn : n = .one .notEmpty
    · -- it would have woken a consumer
      subst hn
      cases hdel with
      | @wakes _ u op' hu =>
        rcases ring_sleeps (RingMutexMpmcQueueV3.sect_spec capacity) hmr (.inl hu) with ⟨b, -, hv⟩ | ⟨b, rfl, -⟩
        · cases hv
        · obtain ⟨c, rfl⟩ := plays_consumer (op_called hmr (t := u) (by rw [hu]; rfl))
          have := (other rfl rfl c).2
          rw [Function.update_self] at this
          cases this
      | nobody hno => exact absurd (hasleep c₀) (by rw [hno]; decide)
    · simp only [onesOn, List.count_cons, beq_iff_eq, hn, ite_false] at h1 ⊢
      omega
  | @spurious t op v hpc =>
    have h1 := total_update (onesOn .notEmpty) m.pc t (.woken op v)
    have h2 := ih hc hsz fun c => (other rfl rfl c).2
    rw [hpc] at h1
    simp only [onesOn] at h1 ⊢
    omega
  | @ret t op r hpc =>
    have h1 := total_update (onesOn .notEmpty) m.pc t .idle
    have h2 := ih hc hsz fun c => (other rfl rfl c).2
    rw [hpc] at h1
    simp only [onesOn, List.count_nil] at h1 ⊢
    omega

theorem not_deadlock [Nonempty C] (hl : Light (Ring.new (T := T) capacity).capacity pushes)
    (hr : (machine C T capacity pushes).Reachable s) : ¬ Deadlock s := by
  rintro ⟨hshut, ⟨p, hp⟩, hprod, hcons, hnot, hwok⟩
  have hopen : s.mon.data.closed = false := by
    cases h : s.mon.data.closed with
    | true => rw [(closed_shut hr).1 h] at hshut; cases hshut
    | false => rfl
  obtain ⟨h1, h2⟩ := nothing_outstanding .notFull hnot
  have h3 : total (awakeOn (fun _ => 0) .notFull) s.mon.pc = 0 := by
    apply Finset.sum_eq_zero
    intro u _
    cases hpc : s.mon.pc u with
    | woken op v =>
      have := hwok u
      rw [hpc] at this
      cases this
    | _ => rfl
  have h4 : 0 < total (asleepOn .notFull) s.mon.pc := by
    obtain ⟨op, hop⟩ := sleepsOn_iff.mp (hprod p hp)
    exact total_pos.mpr ⟨_, by rw [hop]; simp [asleepOn]⟩
  have hfree : s.mon.data.free = s.mon.data.capacity - s.mon.data.size := free_open hopen
  have hwf := (ring_wf rfl (fun _ _ _ => RingMutexMpmcQueueV3.sect_ok _ _) (mon_reachable hr)).1
  -- the ring is full, so the consumers have been called
  have hfull : s.mon.data.capacity ≤ s.mon.data.size := by
    rcases covered hl hr (show Stranded .notFull s.mon.pc by unfold Stranded; omega) with h | h
    · omega
    · unfold flight at h; omega
  have hcalled := consumersCalled hr hopen (Nat.lt_of_lt_of_le hwf.pos hfull) hcons
  rw [(nothing_outstanding .notEmpty hnot).1] at hcalled
  exact absurd hcalled (Nat.lt_irrefl 0)

end Session

end Yutil
