import Yutil.Fifo

/-!
# The mutex-and-ring queues

`RingMutexMpmcQueueV1` has one condition variable and notifies everybody,
`V2` has one for each direction and notifies one thread, `V3` also counts the
threads inside each wait and notifies only when the ring leaves its empty or
full state.
-/

namespace Yutil

open Interleave

variable {T : Type} [Elem T]

structure Ring (T : Type) where
  capacity : Nat
  buffer : List T
  head : Nat
  tail : Nat
  size : Nat
  /-- V3 only, like `waitingProducers`. -/
  waitingConsumers : Nat
  waitingProducers : Nat
  closed : Bool
  deriving DecidableEq

/-- The calls; `assigns` says whether `out = std::move(buffer_[head_])` completes. -/
inductive RingOp (T : Type)
  | emplace (b : Built T)
  | tryEmplace (b : Built T)
  | waitPop (assigns : Bool)
  | tryPop (assigns : Bool)
  | close

namespace RingOp

omit [Elem T]

def noThrow : RingOp T → Bool
  | .emplace b => !b.throwing
  | .tryEmplace b => !b.throwing
  | .waitPop assigns => assigns
  | .tryPop assigns => assigns
  | .close => true

def event : RingOp T → Res T → Event T
  | .emplace (.value v), .pushed true => .accept v
  | .tryEmplace (.value v), .pushed true => .accept v
  | .emplace _, .pushed false => .refuse
  | .tryEmplace _, .pushed false => .refuse
  | .waitPop _, .popped none => .finish
  | .tryPop _, .popped none => .miss
  | .waitPop _, .popped (some v) => .take v
  | .tryPop _, .popped (some v) => .take v
  | .close, .closed => .shut
  | _, _ => .fail

end RingOp

namespace Ring

def new (capacity : Nat) : Ring T :=
  let capacity := if capacity = 0 then 1 else capacity
  ⟨capacity, List.replicate capacity default, 0, 0, 0, 0, 0, false⟩

def next (r : Ring T) (index : Nat) : Nat := (index + 1) % r.capacity

/-- What a throwing `buffer_[tail_] = T(...)` leaves behind. -/
def spoil (r : Ring T) : Option T → Ring T
  | none => r
  | some v => { r with buffer := r.buffer.set r.tail v }

def pushBack (r : Ring T) (v : T) : Ring T :=
  { r with buffer := r.buffer.set r.tail v, tail := r.next r.tail, size := r.size + 1 }

def front (r : Ring T) : T := r.buffer.getD r.head default

def dropFront (r : Ring T) : Ring T :=
  { r with buffer := r.buffer.set r.head (Elem.moved r.front), head := r.next r.head, size := r.size - 1 }

def put (held : Option (Notify Cv)) (later : List (Notify Cv)) (b : Built T) (r : Ring T) :
    Exit (Ring T) Cv (Res T) :=
  match b with
  | .throws left => .leave (r.spoil left) none [] .threw
  | .value v => .leave (r.pushBack v) held later (.pushed true)

def get (later : List (Notify Cv)) (assigns : Bool) (r : Ring T) : Exit (Ring T) Cv (Res T) :=
  if r.size = 0 then .leave r none [] (.popped none)
  else if assigns then .leave r.dropFront none later (.popped (some r.front))
  else .leave r none [] .threw

def tryPop (assigns : Bool) (r : Ring T) : Exit (Ring T) Cv (Res T) := r.get [] assigns

def close (later : List (Notify Cv)) (r : Ring T) : Exit (Ring T) Cv (Res T) :=
  .leave { r with closed := true } none later .closed

end Ring

/-! ## The classes -/

namespace RingMutexMpmcQueueV1

def emplace (b : Built T) (_woken : Bool) (r : Ring T) : Exit (Ring T) Cv (Res T) :=
  if r.closed || decide (r.size < r.capacity) then
    if r.closed then .leave r none [] (.pushed false) else r.put none [.all .cv] b
  else .sleep r .cv

def tryEmplace (b : Built T) (r : Ring T) : Exit (Ring T) Cv (Res T) :=
  if r.closed || decide (r.size ≥ r.capacity) then .leave r none [] (.pushed false)
  else r.put (some (.all .cv)) [] b

def waitPop (assigns _woken : Bool) (r : Ring T) : Exit (Ring T) Cv (Res T) :=
  if r.closed || decide (r.size > 0) then r.get [.all .cv] assigns else .sleep r .cv

def monitor (capacity : Nat) : Monitor (Ring T) (RingOp T) Cv (Res T) where
  start := Ring.new capacity
  sect op woken r :=
    match op with
    | .emplace b => emplace b woken r
    | .tryEmplace b => tryEmplace b r
    | .waitPop assigns => waitPop assigns woken r
    | .tryPop assigns => r.tryPop assigns
    | .close => r.close [.all .cv]

end RingMutexMpmcQueueV1

namespace RingMutexMpmcQueueV2

def emplace (b : Built T) (_woken : Bool) (r : Ring T) : Exit (Ring T) Cv (Res T) :=
  if r.closed || decide (r.size < r.capacity) then
    if r.closed then .leave r none [] (.pushed false) else r.put none [.one .notEmpty] b
  else .sleep r .notFull

def tryEmplace (b : Built T) (r : Ring T) : Exit (Ring T) Cv (Res T) :=
  if r.closed || decide (r.size ≥ r.capacity) then .leave r none [] (.pushed false)
  else r.put (if r.size = 0 then some (.one .notEmpty) else none) [] b

def waitPop (assigns _woken : Bool) (r : Ring T) : Exit (Ring T) Cv (Res T) :=
  if r.closed || decide (r.size > 0) then r.get [.one .notFull] assigns else .sleep r .notEmpty

def monitor (capacity : Nat) : Monitor (Ring T) (RingOp T) Cv (Res T) where
  start := Ring.new capacity
  sect op woken r :=
    match op with
    | .emplace b => emplace b woken r
    | .tryEmplace b => tryEmplace b r
    | .waitPop assigns => waitPop assigns woken r
    | .tryPop assigns => r.tryPop assigns
    | .close => r.close [.all .notEmpty, .all .notFull]

end RingMutexMpmcQueueV2

namespace RingMutexMpmcQueueV3

/-- `was_empty && waiting_consumers_ > 0`. -/
def notifyConsumer (r : Ring T) : List (Notify Cv) :=
  if r.size = 0 ∧ r.waitingConsumers > 0 then [.one .notEmpty] else []

/-- `was_full && waiting_producers_ > 0`. -/
def notifyProducer (r : Ring T) : List (Notify Cv) :=
  if r.size = r.capacity ∧ r.waitingProducers > 0 then [.one .notFull] else []

def emplace (b : Built T) (woken : Bool) (r : Ring T) : Exit (Ring T) Cv (Res T) :=
  let r := if woken then r else { r with waitingProducers := r.waitingProducers + 1 }
  if r.closed || decide (r.size < r.capacity) then
    let r := { r with waitingProducers := r.waitingProducers - 1 }
    if r.closed then .leave r none [] (.pushed false) else r.put none (notifyConsumer r) b
  else .sleep r .notFull

def tryEmplace (b : Built T) (r : Ring T) : Exit (Ring T) Cv (Res T) :=
  if r.closed || decide (r.size ≥ r.capacity) then .leave r none [] (.pushed false)
  else r.put none (notifyConsumer r) b

def waitPop (assigns woken : Bool) (r : Ring T) : Exit (Ring T) Cv (Res T) :=
  let r := if woken then r else { r with waitingConsumers := r.waitingConsumers + 1 }
  if r.closed || decide (r.size > 0) then
    let r := { r with waitingConsumers := r.waitingConsumers - 1 }
    r.get (notifyProducer r) assigns
  else .sleep r .notEmpty

def monitor (capacity : Nat) : Monitor (Ring T) (RingOp T) Cv (Res T) where
  start := Ring.new capacity
  sect op woken r :=
    match op with
    | .emplace b => emplace b woken r
    | .tryEmplace b => tryEmplace b r
    | .waitPop assigns => waitPop assigns woken r
    | .tryPop assigns => r.tryPop assigns
    | .close => r.close [.all .notEmpty, .all .notFull]

end RingMutexMpmcQueueV3

/-! ## The ring is a bounded FIFO -/

namespace Ring

structure WF (r : Ring T) : Prop where
  pos : 0 < r.capacity
  length : r.buffer.length = r.capacity
  head_lt : r.head < r.capacity
  size_le : r.size ≤ r.capacity
  tail_eq : r.tail = (r.head + r.size) % r.capacity

def nth (r : Ring T) (i : Nat) : T := r.buffer.getD ((r.head + i) % r.capacity) default

def items (r : Ring T) : List T := (List.range r.size).map r.nth

def abs (r : Ring T) : Fifo T := ⟨r.items, r.closed⟩

theorem wrap {a b c : Nat} (ha : a < c) (hb : b ≤ c) : (a + b) % c = if a + b < c then a + b else a + b - c := by
  split
  · rename_i h; exact Nat.mod_eq_of_lt h
  · rw [Nat.mod_eq_sub_mod (by omega), Nat.mod_eq_of_lt (by omega)]

theorem wf_new (capacity : Nat) : (new capacity : Ring T).WF := by
  have hc : 0 < if capacity = 0 then 1 else capacity := by split <;> omega
  exact ⟨hc, List.length_replicate, hc, Nat.zero_le _, (Nat.mod_eq_of_lt hc).symm⟩

variable {r : Ring T}

omit [Elem T] in
theorem WF.tail_lt (h : r.WF) : r.tail < r.capacity := by
  rw [h.tail_eq]; exact Nat.mod_lt _ h.pos

omit [Elem T] in
theorem WF.live_ne_tail (h : r.WF) (hs : r.size < r.capacity) {i : Nat} (hi : i < r.size) :
    (r.head + i) % r.capacity ≠ r.tail := by
  have h1 := h.head_lt
  rw [h.tail_eq, wrap h1 (by omega), wrap h1 (by omega)]
  split <;> split <;> omega

omit [Elem T] in
theorem next_head (r : Ring T) (i : Nat) : (r.next r.head + i) % r.capacity = (r.head + (i + 1)) % r.capacity := by
  unfold next
  rw [Nat.mod_add_mod]
  congr 1
  omega

theorem getD_set (l : List T) (i j : Nat) (v : T) (hi : i < l.length) :
    (l.set i v).getD j default = if i = j then v else l.getD j default := by
  rw [List.getD_eq_getElem?_getD, List.getD_eq_getElem?_getD, List.getElem?_set]
  by_cases h : i = j
  · subst h; simp [hi]
  · simp [h]

omit [Elem T] in
theorem spoil_wf (h : r.WF) (left : Option T) : (r.spoil left).WF := by
  cases left with
  | none => exact h
  | some v => exact ⟨h.pos, by simpa [spoil] using h.length, h.head_lt, h.size_le, h.tail_eq⟩

theorem spoil_items (h : r.WF) (hs : r.size < r.capacity) (left : Option T) : (r.spoil left).items = r.items := by
  cases left with
  | none => rfl
  | some v =>
    apply List.map_congr_left
    intro i hi
    simp only [nth, spoil, getD_set _ _ _ _ (h.length.symm ▸ h.tail_lt)]
    rw [if_neg (h.live_ne_tail hs (List.mem_range.mp hi)).symm]

omit [Elem T] in
theorem pushBack_wf (h : r.WF) (hs : r.size < r.capacity) (v : T) : (r.pushBack v).WF := by
  refine ⟨h.pos, by simpa [pushBack] using h.length, h.head_lt, hs, ?_⟩
  show r.next r.tail = (r.head + (r.size + 1)) % r.capacity
  rw [next, h.tail_eq, Nat.mod_add_mod, Nat.add_assoc]

theorem pushBack_items (h : r.WF) (hs : r.size < r.capacity) (v : T) : (r.pushBack v).items = r.items ++ [v] := by
  have ht := h.length.symm ▸ h.tail_lt
  show (List.range (r.size + 1)).map (r.pushBack v).nth = _
  rw [List.range_succ, List.map_append, List.map_singleton]
  congr 1
  · apply List.map_congr_left
    intro i hi
    simp only [nth, pushBack, getD_set _ _ _ _ ht]
    rw [if_neg (h.live_ne_tail hs (List.mem_range.mp hi)).symm]
  · simp only [nth, pushBack, getD_set _ _ _ _ ht]
    rw [if_pos h.tail_eq]

theorem dropFront_wf (h : r.WF) (hs : 0 < r.size) : r.dropFront.WF := by
  refine ⟨h.pos, by simpa [dropFront] using h.length, Nat.mod_lt _ h.pos, ?_, ?_⟩
  · have := h.size_le; simp only [dropFront]; omega
  · show r.tail = (r.next r.head + (r.size - 1)) % r.capacity
    rw [next_head, h.tail_eq, Nat.sub_add_cancel hs]

theorem dropFront_items (h : r.WF) (hs : 0 < r.size) : r.items = r.front :: r.dropFront.items := by
  have hh := h.length.symm ▸ h.head_lt
  obtain ⟨n, hn⟩ : ∃ n, r.size = n + 1 := ⟨r.size - 1, by omega⟩
  have hz : r.dropFront.size = n := by simp [dropFront, hn]
  unfold items
  rw [hn, hz, List.range_succ_eq_map, List.map_cons, List.map_map]
  congr 1
  · simp only [nth, front, Nat.add_zero, Nat.mod_eq_of_lt h.head_lt]
  · apply List.map_congr_left
    intro i hi
    have hi := List.mem_range.mp hi
    have hne : r.head ≠ (r.head + (i + 1)) % r.capacity := by
      have := h.size_le
      rw [wrap h.head_lt (by omega)]
      split <;> omega
    show r.nth (i + 1) = (r.buffer.set r.head _).getD ((r.next r.head + i) % r.capacity) default
    rw [next_head, getD_set _ _ _ _ hh, if_neg hne]
    rfl

theorem items_length (r : Ring T) : r.items.length = r.size := by simp [items]

theorem items_of_size_zero (h : r.size = 0) : r.items = [] := List.eq_nil_of_length_eq_zero (by rw [items_length, h])

def Ok (op : RingOp T) (r : Ring T) : Exit (Ring T) Cv (Res T) → Prop
  | .sleep r' _ => r'.WF ∧ r'.abs = r.abs ∧ r'.capacity = r.capacity
  | .leave r' _ _ x => r'.WF ∧ r.abs.Does (· < r.capacity) (op.event x) r'.abs ∧ r'.capacity = r.capacity

theorem put_ok {op : RingOp T} {b : Built T} (h : r.WF) (hs : r.size < r.capacity) (hc : r.closed = false)
    (hop : op = .emplace b ∨ op = .tryEmplace b) (held : Option (Notify Cv)) (later : List (Notify Cv)) :
    r.Ok op (r.put held later b) := by
  cases b with
  | throws left =>
    have hop : op.event .threw = .fail := by rcases hop with rfl | rfl <;> rfl
    have habs : (r.spoil left).abs = r.abs := by
      simp only [abs, spoil_items h hs]
      cases left <;> rfl
    refine ⟨spoil_wf h left, ?_, by cases left <;> rfl⟩
    rw [hop, habs]
    exact .fail
  | value v =>
    have hop : op.event (.pushed true) = .accept v := by rcases hop with rfl | rfl <;> rfl
    refine ⟨pushBack_wf h hs v, ?_, rfl⟩
    rw [hop]
    have : r.abs.Does (· < r.capacity) (.accept v) ⟨r.items ++ [v], false⟩ := by
      rw [abs, hc]
      exact .accept (by rw [items_length]; exact hs)
    simpa only [abs, pushBack_items h hs, show (r.pushBack v).closed = r.closed from rfl, hc] using this

theorem refuse_ok {op : RingOp T} {b : Built T} (h : r.WF) (hop : op = .emplace b ∨ op = .tryEmplace b)
    (hr : r.closed = true ∨ r.capacity ≤ r.size) : r.Ok op (.leave r none [] (.pushed false)) := by
  have hop : op.event (.pushed false) = .refuse := by rcases hop with rfl | rfl <;> cases b <;> rfl
  refine ⟨h, ?_, rfl⟩
  rw [hop]
  refine .refuse ?_
  rcases hr with hr | hr
  · exact .inl hr
  · exact .inr (by simp only [abs, items_length]; omega)

theorem get_ok {op : RingOp T} {assigns : Bool} (h : r.WF) (later : List (Notify Cv))
    (hop : op = .tryPop assigns ∨ op = .waitPop assigns ∧ (r.size = 0 → r.closed = true)) :
    r.Ok op (r.get later assigns) := by
  unfold get
  split
  · rename_i hz
    refine ⟨h, ?_, rfl⟩
    rw [abs, items_of_size_zero hz]
    rcases hop with rfl | ⟨rfl, hc⟩
    · exact .miss
    · rw [hc hz]; exact .finish
  · rename_i hz
    have hz := Nat.pos_of_ne_zero hz
    split
    · have hev : op.event (.popped (some r.front)) = .take r.front := by rcases hop with rfl | ⟨rfl, -⟩ <;> rfl
      refine ⟨dropFront_wf h hz, ?_, rfl⟩
      rw [hev, abs, dropFront_items h hz]
      exact .take
    · have hev : op.event (.threw : Res T) = .fail := by rcases hop with rfl | ⟨rfl, -⟩ <;> rfl
      refine ⟨h, ?_, rfl⟩
      rw [hev]
      exact .fail

theorem close_ok (h : r.WF) (later : List (Notify Cv)) : r.Ok .close (r.close later) :=
  ⟨⟨h.pos, h.length, h.head_lt, h.size_le, h.tail_eq⟩, .shut, rfl⟩

def counting (r : Ring T) (c p : Nat) : Ring T := { r with waitingConsumers := c, waitingProducers := p }

omit [Elem T] in
theorem WF.counting (h : r.WF) (c p : Nat) : (r.counting c p).WF :=
  ⟨h.pos, h.length, h.head_lt, h.size_le, h.tail_eq⟩

theorem emplace_ok (h : r.WF) (b : Built T) (v : Cv) (later : List (Notify Cv)) (c p c' p' : Nat) :
    r.Ok (.emplace b) (if r.closed || decide (r.size < r.capacity) then
      if r.closed then .leave (r.counting c p) none [] (.pushed false) else (r.counting c p).put none later b
      else .sleep (r.counting c' p') v) := by
  split
  · rename_i hg
    split
    · rename_i hc; exact refuse_ok (h.counting c p) (.inl rfl) (.inl hc)
    · rename_i hc
      simp only [Bool.not_eq_true] at hc
      have hs : r.size < r.capacity := by simpa [hc] using hg
      exact put_ok (h.counting c p) hs hc (.inl rfl) _ _
  · exact ⟨h.counting c' p', rfl, rfl⟩

theorem tryEmplace_ok (h : r.WF) (b : Built T) (held : Option (Notify Cv)) (later : List (Notify Cv)) :
    r.Ok (.tryEmplace b) (if r.closed || decide (r.size ≥ r.capacity) then .leave r none [] (.pushed false)
      else r.put held later b) := by
  split
  · rename_i hg; exact refuse_ok h (.inr rfl) (by simpa using hg)
  · rename_i hg
    simp only [ge_iff_le, Bool.or_eq_true, decide_eq_true_eq, not_or, Bool.not_eq_true, Nat.not_le] at hg
    exact put_ok h hg.2 hg.1 (.inr rfl) _ _

theorem waitPop_ok (h : r.WF) (assigns : Bool) (v : Cv) (later : List (Notify Cv)) (c p c' p' : Nat) :
    r.Ok (.waitPop assigns) (if r.closed || decide (r.size > 0) then (r.counting c p).get later assigns
      else .sleep (r.counting c' p') v) := by
  split
  · rename_i hg
    have hc : r.size = 0 → r.closed = true := fun hz => by simpa [hz] using hg
    exact get_ok (h.counting c p) _ (.inr ⟨rfl, hc⟩)
  · exact ⟨h.counting c' p', rfl, rfl⟩

end Ring

namespace RingMutexMpmcQueueV1

theorem sect_ok {capacity : Nat} (op : RingOp T) (woken : Bool) {r : Ring T} (h : r.WF) :
    r.Ok op ((monitor capacity).sect op woken r) := by
  cases op with
  | emplace b => exact Ring.emplace_ok h b _ _ _ _ _ _
  | tryEmplace b => exact Ring.tryEmplace_ok h b _ _
  | waitPop assigns => exact Ring.waitPop_ok h assigns _ _ _ _ _ _
  | tryPop assigns => exact Ring.get_ok h _ (.inl rfl)
  | close => exact Ring.close_ok h _

end RingMutexMpmcQueueV1

namespace RingMutexMpmcQueueV2

theorem sect_ok {capacity : Nat} (op : RingOp T) (woken : Bool) {r : Ring T} (h : r.WF) :
    r.Ok op ((monitor capacity).sect op woken r) := by
  cases op with
  | emplace b => exact Ring.emplace_ok h b _ _ _ _ _ _
  | tryEmplace b => exact Ring.tryEmplace_ok h b _ _
  | waitPop assigns => exact Ring.waitPop_ok h assigns _ _ _ _ _ _
  | tryPop assigns => exact Ring.get_ok h _ (.inl rfl)
  | close => exact Ring.close_ok h _

end RingMutexMpmcQueueV2

namespace RingMutexMpmcQueueV3

theorem sect_ok {capacity : Nat} (op : RingOp T) (woken : Bool) {r : Ring T} (h : r.WF) :
    r.Ok op ((monitor capacity).sect op woken r) := by
  cases op with
  | emplace b => cases woken <;> exact Ring.emplace_ok h b _ _ _ _ _ _
  | tryEmplace b => exact Ring.tryEmplace_ok h b _ _
  | waitPop assigns => cases woken <;> exact Ring.waitPop_ok h assigns _ _ _ _ _ _
  | tryPop assigns => exact Ring.get_ok h _ (.inl rfl)
  | close => exact Ring.close_ok h _

end RingMutexMpmcQueueV3

/-! ## What a section does to the size and whom it notifies -/

/-- The same ring, but for the waiter counters and the slot at `tail_`. -/
structure Ring.Like (d r : Ring T) : Prop where
  size : d.size = r.size
  capacity : d.capacity = r.capacity
  closed : d.closed = r.closed

/-- The sections of the rings, for the condition variables producers and
consumers sleep on and the notifications of a section that pushes, pops or closes. -/
inductive Ring.Sect (full empty : Cv) (tells : RingOp T → Ring T → Option (Notify Cv) × List (Notify Cv))
    (r : Ring T) : RingOp T → Exit (Ring T) Cv (Res T) → Prop
  | waitFull {b : Built T} {d : Ring T} : r.closed = false → r.capacity ≤ r.size → d.Like r →
      Sect full empty tells r (.emplace b) (.sleep d full)
  | waitEmpty {a : Bool} {d : Ring T} : r.closed = false → r.size = 0 → d.Like r →
      Sect full empty tells r (.waitPop a) (.sleep d empty)
  | refused {op : RingOp T} {b : Built T} {d : Ring T} :
      op = .emplace b ∧ r.closed = true ∨ op = .tryEmplace b ∧ (r.closed = true ∨ r.capacity ≤ r.size) → d.Like r →
      Sect full empty tells r op (.leave d none [] (.pushed false))
  | pushed {op : RingOp T} {v : T} {d : Ring T} : op = .emplace (.value v) ∨ op = .tryEmplace (.value v) →
      r.closed = false → r.size < r.capacity → d.size = r.size + 1 → d.capacity = r.capacity → d.closed = r.closed →
      Sect full empty tells r op (.leave d (tells op r).1 (tells op r).2 (.pushed true))
  | pushThrew {op : RingOp T} {l : Option T} {d : Ring T} : op = .emplace (.throws l) ∨ op = .tryEmplace (.throws l) →
      r.closed = false → r.size < r.capacity → d.Like r → Sect full empty tells r op (.leave d none [] .threw)
  | nothing {op : RingOp T} {a : Bool} {d : Ring T} : op = .waitPop a ∧ r.closed = true ∨ op = .tryPop a →
      r.size = 0 → d.Like r → Sect full empty tells r op (.leave d none [] (.popped none))
  | popped {op : RingOp T} {d : Ring T} {x : T} : op = .waitPop true ∨ op = .tryPop true → d.size + 1 = r.size →
      d.capacity = r.capacity → d.closed = r.closed →
      Sect full empty tells r op (.leave d none (tells op r).2 (.popped (some x)))
  | popThrew {op : RingOp T} {d : Ring T} : op = .waitPop false ∨ op = .tryPop false → 0 < r.size → d.Like r →
      Sect full empty tells r op (.leave d none [] .threw)
  | shut {d : Ring T} : d.size = r.size → d.capacity = r.capacity → d.closed = true →
      Sect full empty tells r .close (.leave d none (tells .close r).2 .closed)

namespace Ring

variable {r d : Ring T} {full empty : Cv} {tells : RingOp T → Ring T → Option (Notify Cv) × List (Notify Cv)}

omit [Elem T] in
theorem Sect.sleep {op : RingOp T} {v : Cv} (h : r.Sect full empty tells op (.sleep d v)) :
    r.closed = false ∧ d.Like r ∧ (v = full ∨ v = empty) := by
  cases h with
  | waitFull hc _ hd => exact ⟨hc, hd, .inl rfl⟩
  | waitEmpty hc _ hd => exact ⟨hc, hd, .inr rfl⟩

omit [Elem T] in
/-- A section that leaves keeps the capacity and a closed ring closed, and only `close` closes it. -/
theorem Sect.leave {op : RingOp T} {held : Option (Notify Cv)} {later : List (Notify Cv)} {x : Res T}
    (h : r.Sect full empty tells op (.leave d held later x)) :
    d.capacity = r.capacity ∧ (d.closed = r.closed ∨ op = .close ∧ d.closed = true) := by
  cases h with
  | refused _ hd | pushThrew _ _ _ hd | nothing _ _ hd | popThrew _ _ hd => exact ⟨hd.capacity, .inl hd.closed⟩
  | pushed _ _ _ _ hcap hcl | popped _ _ hcap hcl => exact ⟨hcap, .inl hcl⟩
  | shut _ hcap hcl => exact ⟨hcap, .inr ⟨rfl, hcl⟩⟩

omit [Elem T] in
theorem Sect.stays_closed {op : RingOp T} {held : Option (Notify Cv)} {later : List (Notify Cv)} {x : Res T}
    (h : r.Sect full empty tells op (.leave d held later x)) (hc : r.closed = true) : d.closed = true := by
  rcases h.leave.2 with hd | ⟨-, hd⟩
  · exact hd.trans hc
  · exact hd

omit [Elem T] in
theorem Like.refl (r : Ring T) : r.Like r := ⟨rfl, rfl, rfl⟩

omit [Elem T] in
theorem Like.spoil (h : d.Like r) (left : Option T) : (d.spoil left).Like r := by
  cases left with
  | none => exact h
  | some _ => exact ⟨h.size, h.capacity, h.closed⟩

omit [Elem T] in
theorem put_sect {op : RingOp T} {b : Built T} (hop : op = .emplace b ∨ op = .tryEmplace b) (hc : r.closed = false)
    (hs : r.size < r.capacity) (hd : d.Like r) :
    r.Sect full empty tells op (d.put (tells op r).1 (tells op r).2 b) := by
  cases b with
  | throws left => exact .pushThrew hop hc hs (hd.spoil left)
  | value v => exact .pushed hop hc hs (congrArg (· + 1) hd.size) hd.capacity hd.closed

theorem get_sect {op : RingOp T} {a : Bool} (hop : op = .waitPop a ∧ (r.size = 0 → r.closed = true) ∨ op = .tryPop a)
    (hd : d.Like r) : r.Sect full empty tells op (d.get (tells op r).2 a) := by
  unfold get
  have hop' : op = .waitPop a ∨ op = .tryPop a := hop.imp_left And.left
  split
  · rename_i hz
    have hz := hd.size ▸ hz
    exact .nothing (hop.imp_left fun h => ⟨h.1, h.2 hz⟩) hz hd
  · rename_i hz
    have hz := hd.size ▸ Nat.pos_of_ne_zero hz
    cases a with
    | true =>
      refine .popped hop' ?_ hd.capacity hd.closed
      show d.size - 1 + 1 = r.size
      have := hd.size
      omega
    | false => exact .popThrew hop' hz hd

omit [Elem T] in
theorem emplace_sect {b : Built T} {d' : Ring T} (hd : d.Like r) (hd' : d'.Like r) :
    r.Sect full empty tells (.emplace b) (if r.closed || decide (r.size < r.capacity) then
      if r.closed then .leave d none [] (.pushed false)
      else d.put (tells (.emplace b) r).1 (tells (.emplace b) r).2 b
      else .sleep d' full) := by
  split
  · rename_i hg
    split
    · rename_i hc; exact .refused (.inl ⟨rfl, hc⟩) hd
    · rename_i hc
      simp only [Bool.not_eq_true] at hc
      exact put_sect (.inl rfl) hc (by simpa [hc] using hg) hd
  · rename_i hg
    simp only [Bool.or_eq_true, decide_eq_true_eq, not_or, Bool.not_eq_true, Nat.not_lt] at hg
    exact .waitFull hg.1 hg.2 hd'

omit [Elem T] in
theorem tryEmplace_sect {b : Built T} :
    r.Sect full empty tells (.tryEmplace b) (if r.closed || decide (r.size ≥ r.capacity) then
      .leave r none [] (.pushed false) else r.put (tells (.tryEmplace b) r).1 (tells (.tryEmplace b) r).2 b) := by
  split
  · rename_i hg; exact .refused (.inr ⟨rfl, by simpa using hg⟩) (.refl r)
  · rename_i hg
    simp only [ge_iff_le, Bool.or_eq_true, decide_eq_true_eq, not_or, Bool.not_eq_true, Nat.not_le] at hg
    exact put_sect (.inr rfl) hg.1 hg.2 (.refl r)

theorem waitPop_sect {a : Bool} {d' : Ring T} (hd : d.Like r) (hd' : d'.Like r) :
    r.Sect full empty tells (.waitPop a) (if r.closed || decide (r.size > 0) then
      d.get (tells (.waitPop a) r).2 a else .sleep d' empty) := by
  split
  · rename_i hg
    exact get_sect (.inl ⟨rfl, fun hz => by simpa [hz] using hg⟩) hd
  · rename_i hg
    simp only [gt_iff_lt, Bool.or_eq_true, decide_eq_true_eq, not_or, Bool.not_eq_true, Nat.not_lt,
      Nat.le_zero] at hg
    exact .waitEmpty hg.1 hg.2 hd'

end Ring

namespace RingMutexMpmcQueueV1

def tells (op : RingOp T) (_ : Ring T) : Option (Notify Cv) × List (Notify Cv) :=
  match op with
  | .emplace _ | .waitPop _ | .close => (none, [.all .cv])
  | .tryEmplace _ => (some (.all .cv), [])
  | .tryPop _ => (none, [])

theorem sect_spec (capacity : Nat) (op : RingOp T) (woken : Bool) (r : Ring T) :
    r.Sect .cv .cv tells op ((monitor capacity).sect op woken r) := by
  cases op with
  | emplace b => exact Ring.emplace_sect (.refl r) (.refl r)
  | tryEmplace b => exact Ring.tryEmplace_sect
  | waitPop a => exact Ring.waitPop_sect (.refl r) (.refl r)
  | tryPop a => exact Ring.get_sect (.inr rfl) (.refl r)
  | close => exact .shut rfl rfl rfl

end RingMutexMpmcQueueV1

namespace RingMutexMpmcQueueV2

def tells (op : RingOp T) (r : Ring T) : Option (Notify Cv) × List (Notify Cv) :=
  match op with
  | .emplace _ => (none, [.one .notEmpty])
  | .tryEmplace _ => (if r.size = 0 then some (.one .notEmpty) else none, [])
  | .waitPop _ => (none, [.one .notFull])
  | .tryPop _ => (none, [])
  | .close => (none, [.all .notEmpty, .all .notFull])

theorem sect_spec (capacity : Nat) (op : RingOp T) (woken : Bool) (r : Ring T) :
    r.Sect .notFull .notEmpty tells op ((monitor capacity).sect op woken r) := by
  cases op with
  | emplace b => exact Ring.emplace_sect (.refl r) (.refl r)
  | tryEmplace b => exact Ring.tryEmplace_sect
  | waitPop a => exact Ring.waitPop_sect (.refl r) (.refl r)
  | tryPop a => exact Ring.get_sect (.inr rfl) (.refl r)
  | close => exact .shut rfl rfl rfl

end RingMutexMpmcQueueV2

namespace RingMutexMpmcQueueV3

def tells (op : RingOp T) (r : Ring T) : Option (Notify Cv) × List (Notify Cv) :=
  match op with
  | .emplace _ | .tryEmplace _ => (none, notifyConsumer r)
  | .waitPop _ => (none, notifyProducer r)
  | .tryPop _ => (none, [])
  | .close => (none, [.all .notEmpty, .all .notFull])

theorem sect_spec (capacity : Nat) (op : RingOp T) (woken : Bool) (r : Ring T) :
    r.Sect .notFull .notEmpty tells op ((monitor capacity).sect op woken r) := by
  cases op with
  | emplace b => cases woken <;> exact Ring.emplace_sect ⟨rfl, rfl, rfl⟩ ⟨rfl, rfl, rfl⟩
  | tryEmplace b => exact Ring.tryEmplace_sect
  | waitPop a => cases woken <;> exact Ring.waitPop_sect ⟨rfl, rfl, rfl⟩ ⟨rfl, rfl, rfl⟩
  | tryPop a => exact Ring.get_sect (.inr rfl) (.refl r)
  | close => exact .shut rfl rfl rfl

end RingMutexMpmcQueueV3

/-! ## They implement the bounded FIFO -/

/-- A ring monitor whose sections are `Ok` implements the FIFO bounded by its capacity. -/
theorem ring_refines {M : Monitor (Ring T) (RingOp T) Cv (Res T)} {capacity : Nat} (h0 : M.start = Ring.new capacity)
    (hs : ∀ op w (r : Ring T), r.WF → r.Ok op (M.sect op w r)) :
    Refines M RingOp.event (· < (Ring.new (T := T) capacity).capacity)
      (fun r => r.WF ∧ r.capacity = (Ring.new (T := T) capacity).capacity) Ring.abs := by
  refine ⟨?_, ?_, fun {op w r r' _} hi hx => ?_, fun {op w r r' held later x} hi hx => ?_⟩
  · rw [h0]; exact ⟨Ring.wf_new capacity, rfl⟩
  · rw [h0]; rfl
  · have := hs op w r hi.1
    rw [hx] at this
    exact ⟨⟨this.1, this.2.2.trans hi.2⟩, this.2.1⟩
  · have := hs op w r hi.1
    rw [hx] at this
    exact ⟨⟨this.1, this.2.2.trans hi.2⟩, hi.2 ▸ this.2.1⟩

theorem ring_wf {M : Monitor (Ring T) (RingOp T) Cv (Res T)} {capacity : Nat} (h0 : M.start = Ring.new capacity)
    (hs : ∀ op w (r : Ring T), r.WF → r.Ok op (M.sect op w r)) {Tid : Type} [DecidableEq Tid] [Fintype Tid]
    {calls : Tid → RingOp T → Bool} {s : Monitor.State Tid (Ring T) (RingOp T) Cv (Res T)}
    (hr : (M.machine calls).Reachable s) : s.data.WF ∧ s.data.capacity = (Ring.new (T := T) capacity).capacity := by
  obtain ⟨log, hl⟩ := Machine.reachable_logged (emits M RingOp.event) hr
  exact (refines_path (ring_refines h0 hs) hl).1

end Yutil
