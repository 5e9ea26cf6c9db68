import Yutil.RingProtocol

/-!
# A stuck session of every heavy protocol

When the ring has at least two slots, two producers push, and at least two
pushes more are made than the ring holds, the session can get stuck: both
producers sleep at the full ring, the pop that leaves the full state wakes one
of them, the next pop nobody, and the other one stays asleep while the rest of
the session runs dry.
-/

namespace Yutil

open Interleave Monitor

variable {P C T : Type} [Elem T]

/-! ## The sections used -/

namespace RingMutexMpmcQueueV3

variable {r : Ring T} (capacity : Nat)

theorem sect_push (w : Bool) (hc : r.closed = false) (hs : r.size < r.capacity)
    (hq : 0 < r.size ∨ r.waitingConsumers = 0) :
    ∃ d : Ring T, (monitor capacity).sect (.emplace (.value default)) w r = .leave d none [] (.pushed true) ∧
      d.size = r.size + 1 ∧ d.capacity = r.capacity ∧ d.closed = false ∧ d.waitingConsumers = r.waitingConsumers ∧
      d.waitingProducers = r.waitingProducers - if w then 1 else 0 := by
  have hn : ¬ (r.size = 0 ∧ r.waitingConsumers > 0) := by omega
  cases w <;>
  · simp only [monitor, emplace, hc, hs, Ring.put, notifyConsumer, hn, decide_true, Bool.or_true, ite_true, ite_false,
      Bool.false_eq_true]
    exact ⟨_, rfl, rfl, rfl, rfl, rfl, rfl⟩

theorem sect_block (hc : r.closed = false) (hs : r.size = r.capacity) (b : Built T) :
    (monitor capacity).sect (.emplace b) false r = .sleep { r with waitingProducers := r.waitingProducers + 1 } .notFull := by
  simp [monitor, emplace, hc, hs]

theorem sect_pop (hs : 0 < r.size) :
    ∃ (d : Ring T) (x : T), (monitor capacity).sect (.waitPop true) false r =
        .leave d none (notifyProducer r) (.popped (some x)) ∧
      d.size = r.size - 1 ∧ d.capacity = r.capacity ∧ d.closed = r.closed ∧ d.waitingConsumers = r.waitingConsumers ∧
      d.waitingProducers = r.waitingProducers := by
  have hz : r.size ≠ 0 := by omega
  simp only [monitor, waitPop, hs, gt_iff_lt, decide_true, Bool.or_true, ite_true, Ring.get, hz, ite_false,
    Bool.false_eq_true]
  exact ⟨_, _, rfl, rfl, rfl, rfl, rfl, rfl⟩

theorem sect_rest (hc : r.closed = false) (hs : r.size = 0) :
    (monitor capacity).sect (.waitPop true) false r =
      .sleep { r with waitingConsumers := r.waitingConsumers + 1 } .notEmpty := by
  simp [monitor, waitPop, hc, hs]

end RingMutexMpmcQueueV3

namespace Session

variable [DecidableEq P] [DecidableEq C] [Fintype P] [Fintype C] {capacity : Nat} {pushes : P → Nat}

/-! ## Single steps -/

section
variable {s : Session P C T} {t u : Party P C} {o : RingOp T} (op : RingOp T) {w : Bool} {d : Ring T} {v : Cv} {r : Res T}
  {later : List (Notify Cv)} (todo : List (Notify Cv))

theorem take {a : Label (Party P C) (RingOp T)} {m : State (Party P C) (Ring T) (RingOp T) Cv (Res T)}
    (hr : (machine C T capacity pushes).Reachable s) (ha : s.allows a = true)
    (hm : (RingMutexMpmcQueueV3.monitor capacity).step plays s.mon a = some m) :
    (machine C T capacity pushes).Reachable (s.note m a) :=
  .step hr (step_iff.mpr ⟨ha, by rw [note_mon]; exact hm, by rw [note_mon]⟩)

theorem take_call (hr : (machine C T capacity pushes).Reachable s) (ht : s.mon.pc t = .idle) (hp : plays t op = true)
    (ha : s.allows (.call t op) = true) : (machine C T capacity pushes).Reachable
      (s.note ⟨s.mon.data, Function.update s.mon.pc t (.entry op)⟩ (.call t op)) :=
  take hr ha (by simp [Monitor.step, ht, hp])

theorem take_leave (hr : (machine C T capacity pushes).Reachable s) (ht : (s.mon.pc t).ready = some (op, w))
    (hx : (RingMutexMpmcQueueV3.monitor capacity).sect op w s.mon.data = .leave d none later r) :
    (machine C T capacity pushes).Reachable { s with mon := ⟨d, Function.update s.mon.pc t (.leaving op later r)⟩ } :=
  take (a := .acquire t none) hr rfl (by simp [Monitor.step, ht, hx, deliverHeld])

theorem take_sleep (hr : (machine C T capacity pushes).Reachable s) (ht : (s.mon.pc t).ready = some (op, w))
    (hx : (RingMutexMpmcQueueV3.monitor capacity).sect op w s.mon.data = .sleep d v) :
    (machine C T capacity pushes).Reachable { s with mon := ⟨d, Function.update s.mon.pc t (.asleep op v)⟩ } :=
  take (a := .acquire t none) hr rfl (by simp [Monitor.step, ht, hx])

theorem take_notify (hr : (machine C T capacity pushes).Reachable s) (ht : s.mon.pc t = .leaving op (.one v :: todo) r)
    (hu : s.mon.pc u = .asleep o v) : (machine C T capacity pushes).Reachable { s with mon := ⟨s.mon.data,
      Function.update (Function.update s.mon.pc u (.woken o v)) t (.leaving op todo r)⟩ } :=
  take (a := .notify t (some u)) hr rfl (by simp [Monitor.step, deliver, ht, hu, Pc.sleepsOn, Pc.wake])

theorem take_ret (hr : (machine C T capacity pushes).Reachable s) (ht : s.mon.pc t = .leaving op [] r)
    (hn : r ≠ .popped none) :
    (machine C T capacity pushes).Reachable { s with mon := ⟨s.mon.data, Function.update s.mon.pc t .idle⟩ } := by
  have h := take (a := .ret t) (m := ⟨s.mon.data, Function.update s.mon.pc t .idle⟩) hr rfl (by simp only [Monitor.step, ht])
  rcases t with p | c | u
  · exact h
  · simp only [note, ht] at h
    split at h
    · rename_i heq; cases heq; exact absurd rfl hn
    · exact h
  · exact h

end

/-! ## Whole calls -/

/-- The session as the schedule sees it: the number of items, the two waiter
counters, where the producers and the consumers are, and the pushes not called yet. -/
structure View (capacity : Nat) (s : Session P C T) (size wc wp : Nat) (prod : P → Pc (RingOp T) Cv (Res T))
    (cons : C → Pc (RingOp T) Cv (Res T)) (left : P → Nat) : Prop where
  size : s.mon.data.size = size
  capacity : s.mon.data.capacity = (Ring.new (T := T) capacity).capacity
  waitingConsumers : s.mon.data.waitingConsumers = wc
  waitingProducers : s.mon.data.waitingProducers = wp
  unclosed : s.mon.data.closed = false
  pc : s.mon.pc = Sum.elim prod (Sum.elim cons fun _ => .idle)
  left : s.left = left
  exited : s.exited = fun _ => false
  shut : s.shut = false

def At (capacity : Nat) (pushes : P → Nat) (size wc wp : Nat) (prod : P → Pc (RingOp T) Cv (Res T))
    (cons : C → Pc (RingOp T) Cv (Res T)) (left : P → Nat) : Prop :=
  ∃ s, (machine C T capacity pushes).Reachable s ∧ View capacity s size wc wp prod cons left

section
variable {size wc wp : Nat} {prod : P → Pc (RingOp T) Cv (Res T)} {cons : C → Pc (RingOp T) Cv (Res T)}
  {left : P → Nat} {p : P} {c : C}

theorem at_start : At (C := C) (T := T) capacity pushes 0 0 0 (fun _ => .idle) (fun _ => .idle) pushes :=
  ⟨_, .start, rfl, rfl, rfl, rfl, rfl, by ext t; rcases t with p | c | u <;> rfl, rfl, rfl, rfl⟩

theorem At.push (h : At capacity pushes size wc wp prod cons left) (hp : prod p = .idle) (hl : 0 < left p)
    (hs : size < (Ring.new (T := T) capacity).capacity) (hq : 0 < size ∨ wc = 0) :
    At capacity pushes (size + 1) wc wp prod cons (Function.update left p (left p - 1)) := by
  obtain ⟨s, hr, rfl, hcap, rfl, rfl, hopen, hpc, rfl, hex, hsh⟩ := h
  have ht : s.mon.pc (.inl p) = .idle := by rw [hpc]; exact hp
  obtain ⟨d, hx, h1, h2, h3, h4, h5⟩ := RingMutexMpmcQueueV3.sect_push capacity false hopen (hcap ▸ hs) hq
  have hr := take_call (.emplace (.value default)) hr ht rfl (by simpa [allows] using hl)
  have hr := take_leave (.emplace (.value default)) (t := .inl p) (w := false) hr (by simp [Pc.ready]) hx
  have hr := take_ret (.emplace (.value default)) (t := .inl p) (r := .pushed true) hr (by simp) (by simp)
  refine ⟨_, hr, h1, h2.trans hcap, h4, h5, h3, ?_, rfl, hex, hsh⟩
  simp only [note_mon, Function.update_idem]
  exact (Function.update_eq_self_iff.mpr ht.symm).trans hpc

theorem At.block (h : At capacity pushes size wc wp prod cons left) (hp : prod p = .idle) (hl : 0 < left p)
    (hs : size = (Ring.new (T := T) capacity).capacity) :
    At capacity pushes size wc (wp + 1) (Function.update prod p (.asleep (.emplace (.value default)) .notFull)) cons
      (Function.update left p (left p - 1)) := by
  obtain ⟨s, hr, rfl, hcap, rfl, rfl, hopen, hpc, rfl, hex, hsh⟩ := h
  have ht : s.mon.pc (.inl p) = .idle := by rw [hpc]; exact hp
  have hr := take_call (.emplace (.value default)) hr ht rfl (by simpa [allows] using hl)
  have hr := take_sleep (.emplace (.value default)) (t := .inl p) (w := false) hr (by simp [Pc.ready])
    (RingMutexMpmcQueueV3.sect_block capacity hopen (hs.trans hcap.symm) _)
  refine ⟨_, hr, rfl, hcap, rfl, rfl, hopen, ?_, rfl, hex, hsh⟩
  simp only [note_mon, Function.update_idem, hpc, Sum.update_elim_inl]

theorem At.pop (h : At capacity pushes size wc wp prod cons left) (hc : cons c = .idle) (h0 : 0 < size)
    (hs : size < (Ring.new (T := T) capacity).capacity) :
    At capacity pushes (size - 1) wc wp prod cons left := by
  obtain ⟨s, hr, rfl, hcap, rfl, rfl, hopen, hpc, rfl, hex, hsh⟩ := h
  have ht : s.mon.pc (.inr (.inl c)) = .idle := by rw [hpc]; exact hc
  obtain ⟨d, x, hx, h1, h2, h3, h4, h5⟩ := RingMutexMpmcQueueV3.sect_pop capacity h0
  rw [show RingMutexMpmcQueueV3.notifyProducer s.mon.data = [] from if_neg (by omega)] at hx
  have hr := take_call (.waitPop true) hr ht rfl (by simp [allows, hex])
  have hr := take_leave (.waitPop true) (t := .inr (.inl c)) (w := false) hr (by simp [note, Pc.ready]) hx
  have hr := take_ret (.waitPop true) (t := .inr (.inl c)) (r := .popped (some x)) hr (by simp) (by simp)
  refine ⟨_, hr, h1, h2.trans hcap, h4, h5, h3.trans hopen, ?_, rfl, hex, hsh⟩
  simp only [note_mon, Function.update_idem]
  exact (Function.update_eq_self_iff.mpr ht.symm).trans hpc

theorem At.popFull (op : RingOp T) (h : At capacity pushes size wc wp prod cons left) (hc : cons c = .idle)
    (hs : size = (Ring.new (T := T) capacity).capacity) (hw : 0 < wp) (hp : prod p = .asleep op .notFull) :
    At capacity pushes (size - 1) wc wp (Function.update prod p (.woken op .notFull)) cons left := by
  obtain ⟨s, hr, rfl, hcap, rfl, rfl, hopen, hpc, rfl, hex, hsh⟩ := h
  have ht : s.mon.pc (.inr (.inl c)) = .idle := by rw [hpc]; exact hc
  have hpt : s.mon.pc (.inl p) = .asleep op .notFull := by rw [hpc]; exact hp
  have hpos : 0 < s.mon.data.size := by
    rw [hs]; exact (Ring.wf_new (T := T) capacity).pos
  obtain ⟨d, x, hx, h1, h2, h3, h4, h5⟩ := RingMutexMpmcQueueV3.sect_pop capacity hpos
  rw [show RingMutexMpmcQueueV3.notifyProducer s.mon.data = [.one .notFull] from if_pos ⟨hs.trans hcap.symm, hw⟩] at hx
  have hr := take_call (.waitPop true) hr ht rfl (by simp [allows, hex])
  have hr := take_leave (.waitPop true) (t := .inr (.inl c)) (w := false) hr (by simp [note, Pc.ready]) hx
  have hr := take_notify (.waitPop true) [] (t := .inr (.inl c)) (u := .inl p) (v := .notFull)
    (r := .popped (some x)) (o := op) hr (by simp) (by simp [note, hpt])
  have hr := take_ret (.waitPop true) (t := .inr (.inl c)) (r := .popped (some x)) hr (by simp) (by simp)
  refine ⟨_, hr, h1, h2.trans hcap, h4, h5, h3.trans hopen, ?_, rfl, hex, hsh⟩
  simp only [note_mon, Function.update_idem]
  have hback : Function.update s.mon.pc (.inr (.inl c)) .idle = s.mon.pc := Function.update_eq_self_iff.mpr ht.symm
  rw [Function.update_comm (by simp), Function.update_idem, hback, hpc, Sum.update_elim_inl]

theorem At.resume (h : At capacity pushes size wc wp prod cons left)
    (hp : prod p = .woken (.emplace (.value default)) .notFull) (hs : size < (Ring.new (T := T) capacity).capacity)
    (hq : 0 < size ∨ wc = 0) :
    At capacity pushes (size + 1) wc (wp - 1) (Function.update prod p .idle) cons left := by
  obtain ⟨s, hr, rfl, hcap, rfl, rfl, hopen, hpc, rfl, hex, hsh⟩ := h
  have ht : s.mon.pc (.inl p) = .woken (.emplace (.value default)) .notFull := by rw [hpc]; exact hp
  obtain ⟨d, hx, h1, h2, h3, h4, h5⟩ := RingMutexMpmcQueueV3.sect_push capacity true hopen (hcap ▸ hs) hq
  have hr := take_leave (.emplace (.value default)) hr (by rw [ht]; rfl) hx
  have hr := take_ret (.emplace (.value default)) (t := .inl p) (r := .pushed true) hr (by simp) (by simp)
  refine ⟨_, hr, h1, h2.trans hcap, h4, h5, h3, ?_, rfl, hex, hsh⟩
  simp only [Function.update_idem, hpc, Sum.update_elim_inl]

theorem At.rest (h : At capacity pushes 0 wc wp prod cons left) (hc : cons c = .idle) :
    At capacity pushes 0 (wc + 1) wp prod (Function.update cons c (.asleep (.waitPop true) .notEmpty)) left := by
  obtain ⟨s, hr, hz, hcap, rfl, rfl, hopen, hpc, rfl, hex, hsh⟩ := h
  have ht : s.mon.pc (.inr (.inl c)) = .idle := by rw [hpc]; exact hc
  have hr := take_call (.waitPop true) hr ht rfl (by simp [allows, hex])
  have hr := take_sleep (.waitPop true) (t := .inr (.inl c)) (w := false) hr (by simp [note, Pc.ready])
    (RingMutexMpmcQueueV3.sect_rest capacity hopen hz)
  refine ⟨_, hr, hz, hcap, rfl, rfl, hopen, ?_, rfl, hex, hsh⟩
  simp only [note_mon, Function.update_idem, hpc, Sum.update_elim_inr, Sum.update_elim_inl]

end

/-! ## The schedule -/

theorem fill {a b : P} (hab : a ≠ b) (ha : 0 < pushes a) (hb : 0 < pushes b) (n : Nat)
    (hn : n ≤ (Ring.new (T := T) capacity).capacity) (hN : (Ring.new (T := T) capacity).capacity + 2 ≤ ∑ p, pushes p) :
    ∃ left, At (C := C) (T := T) capacity pushes n 0 0 (fun _ => .idle) (fun _ => .idle) left ∧ 0 < left a ∧ 0 < left b ∧
      ∑ p, left p + n = ∑ p, pushes p := by
  induction n with
  | zero => exact ⟨pushes, at_start, ha, hb, rfl⟩
  | succ n ih =>
    obtain ⟨left, h, ha, hb, hsum⟩ := ih (by omega)
    -- somebody has a push to spare
    obtain ⟨p, hp⟩ : ∃ p, (if p = a then 1 else 0) + (if p = b then 1 else 0) < left p := by
      by_contra hno
      simp only [not_exists, Nat.not_lt] at hno
      have : ∑ p, left p ≤ ∑ p, ((if p = a then 1 else 0) + if p = b then 1 else 0) := Finset.sum_le_sum fun p _ => hno p
      rw [Finset.sum_add_distrib] at this
      simp only [Finset.sum_ite_eq', Finset.mem_univ, ite_true] at this
      omega
    refine ⟨_, h.push (p := p) rfl (by omega) (by omega) (.inr rfl), ?_, ?_, ?_⟩
    · by_cases hpa : a = p
      · subst hpa; simp only [ite_true, if_neg hab, Function.update_self] at hp ⊢; omega
      · rwa [Function.update_of_ne hpa]
    · by_cases hpb : b = p
      · subst hpb; simp only [ite_true, if_neg hab.symm, Function.update_self] at hp ⊢; omega
      · rwa [Function.update_of_ne hpb]
    · have h1 := Finset.sum_update_of_mem (Finset.mem_univ p) left (left p - 1)
      have h2 := Finset.add_sum_erase Finset.univ left (Finset.mem_univ p)
      rw [← Finset.erase_eq] at h1
      omega

theorem At.drain {size wc wp : Nat} {prod : P → Pc (RingOp T) Cv (Res T)} {cons : C → Pc (RingOp T) Cv (Res T)}
    {left : P → Nat} {c : C} (h : At capacity pushes size wc wp prod cons left) (hc : cons c = .idle)
    (hs : size < (Ring.new (T := T) capacity).capacity) : At capacity pushes 0 wc wp prod cons left := by
  induction size with
  | zero => exact h
  | succ n ih => exact ih (h.pop hc (by omega) hs) (by omega)

theorem At.finish {wp n : Nat} {prod : P → Pc (RingOp T) Cv (Res T)} {left : P → Nat} {b : P} (c : C)
    (h : At (C := C) capacity pushes 0 0 wp prod (fun _ => .idle) left) (hp : ∀ p, p ≠ b → prod p = .idle)
    (hs : 1 < (Ring.new (T := T) capacity).capacity) (hn : ∑ p ∈ Finset.univ.erase b, left p = n) :
    ∃ left', (∀ p, p ≠ b → left' p = 0) ∧
      At (C := C) capacity pushes 0 0 wp prod (fun _ => .idle) left' := by
  induction n generalizing left with
  | zero =>
    refine ⟨left, fun p hpb => ?_, h⟩
    exact (Finset.sum_eq_zero_iff.mp hn) p (Finset.mem_erase.mpr ⟨hpb, Finset.mem_univ p⟩)
  | succ n ih =>
    obtain ⟨p, hpb, hp0⟩ : ∃ p ∈ Finset.univ.erase b, 0 < left p := by
      by_contra hno
      simp only [not_exists, not_and, Nat.not_lt, Nat.le_zero] at hno
      rw [Finset.sum_eq_zero hno] at hn
      omega
    have h1 := h.push (hp p (Finset.ne_of_mem_erase hpb)) hp0 (by omega) (.inr rfl)
    apply ih (h1.pop (c := c) rfl (by omega) (by omega))
    have h2 := Finset.sum_update_of_mem hpb left (left p - 1)
    have h3 := Finset.add_sum_erase _ left hpb
    rw [← Finset.erase_eq] at h2
    omega

theorem At.restAll {wp : Nat} {prod : P → Pc (RingOp T) Cv (Res T)} {left : P → Nat}
    (h : At (C := C) capacity pushes 0 0 wp prod (fun _ => .idle) left) (S : Finset C) :
    At capacity pushes 0 S.card wp prod (fun c => if c ∈ S then .asleep (.waitPop true) .notEmpty else .idle) left := by
  induction S using Finset.induction_on with
  | empty => simpa using h
  | insert c S hc ih =>
    have h1 := ih.rest (c := c) (by simp [hc])
    rw [Finset.card_insert_of_notMem hc]
    convert h1 using 1
    ext1 d
    by_cases hd : d = c
    · subst hd; simp
    · simp [hd]

/-- Every session that is not light can get stuck. -/
theorem deadlock_reachable [Nonempty C] (hl : ¬ Light (Ring.new (T := T) capacity).capacity pushes) :
    ∃ s : Session P C T, (machine C T capacity pushes).Reachable s ∧ Deadlock s := by
  simp only [Light, not_or, not_forall, Nat.not_le] at hl
  obtain ⟨h1, ⟨a, b, ha, hb, hab⟩, hN⟩ := hl
  have hpos := (Ring.wf_new (T := T) capacity).pos
  have c : C := Classical.arbitrary C
  have hN : (Ring.new (T := T) capacity).capacity + 2 ≤ ∑ p, pushes p := by omega
  obtain ⟨left, h, ha, hb, -⟩ := fill (C := C) hab ha hb _ (Nat.le_refl _) hN
  have h := h.block (p := a) rfl ha rfl
  have h := h.block (p := b) (by simp [Ne.symm hab]) (by simpa [Ne.symm hab] using hb) rfl
  have h := h.popFull (.emplace (.value default)) (c := c) (p := a) rfl rfl (by omega) (by simp [hab])
  have h := h.drain (c := c) rfl (by omega)
  have h := h.resume (p := a) (by simp) (by omega) (.inr rfl)
  have h := h.drain (c := c) rfl (by omega)
  obtain ⟨left, hleft, h⟩ := h.finish c (b := b) (fun p hp => by by_cases hpa : p = a <;> simp [hpa, hp]) (by omega) rfl
  obtain ⟨s, hr, v⟩ := h.restAll Finset.univ
  have hprod : ∀ p, p ≠ b → s.mon.pc (.inl p) = .idle := fun p hp => by
    rw [v.pc]
    by_cases hpa : p = a <;> simp [hpa, hp]
  have hb : s.mon.pc (.inl b) = .asleep (.emplace (.value default)) .notFull := by
    rw [v.pc]
    simp [Ne.symm hab]
  have hcons : ∀ c, s.mon.pc (.inr (.inl c)) = .asleep (.waitPop true) .notEmpty := fun c => by
    rw [v.pc]
    simp
  have hmain : ∀ u, s.mon.pc (.inr (.inr u)) = .idle := fun u => by rw [v.pc]; rfl
  have hall : ∀ t, s.mon.pc t = .idle ∨ ∃ op w, s.mon.pc t = .asleep op w := by
    intro t
    rcases t with p | c | u
    · by_cases hp : p = b
      · exact .inr ⟨_, _, hp ▸ hb⟩
      · exact .inl (hprod p hp)
    · exact .inr ⟨_, _, hcons c⟩
    · exact .inl (hmain u)
  refine ⟨s, hr, v.shut, ⟨b, ?_⟩, fun p hp => ?_, fun c => ?_, fun t => ?_, fun t => ?_⟩
  · simp [unfinished, hb, Pc.op?]
  · by_cases hpb : p = b
    · subst hpb; rw [hb]; rfl
    · simp [unfinished, hprod p hpb, Pc.op?, v.left, hleft p hpb] at hp
  · rw [hcons]; rfl
  · rcases hall t with h | ⟨op, w, h⟩ <;> rw [h] <;> rfl
  · rcases hall t with h | ⟨op, w, h⟩ <;> rw [h] <;> rfl

def stuckSession : List (Label (Party Bool Unit) (RingOp Nat)) :=
  let p (i : Bool) : Party Bool Unit := .inl i
  let c : Party Bool Unit := .inr (.inl ())
  [.call (p false) (.emplace (.value 1)), .acquire (p false) none, .ret (p false),
    .call (p true) (.emplace (.value 2)), .acquire (p true) none, .ret (p true),
    .call (p false) (.emplace (.value 3)), .acquire (p false) none,
    .call (p true) (.emplace (.value 4)), .acquire (p true) none,
    .call c (.waitPop true), .acquire c none, .notify c (some (p false)), .ret c,
    .call c (.waitPop true), .acquire c none, .ret c, .acquire (p false) none, .ret (p false),
    .call c (.waitPop true), .acquire c none, .ret c, .call c (.waitPop true), .acquire c none]

end Session

end Yutil
