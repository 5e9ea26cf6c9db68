import Yutil.Spsc

/-!
# First in, first out

The four counters of `SpscBoundedQueue` are words of counts that never wrap,
and the counts form a chain: the producer's copy of the head, the head, the
consumer's copy of the tail, the tail, and the copy of the head a capacity on.
-/

namespace Yutil

open Interleave SpscBoundedQueue

namespace Spsc

section
variable {T : Type}

def trace (s : State T) : Label T → List (Event T)
  | .producer false =>
    match s.producer with
    | .storeTail value _ => [.accept value]
    | _ => []
  | .consumer false =>
    match s.consumer with
    | .storeHead _ out => [.take out]
    | _ => []
  | _ => []

def pushed (log : List (Event T)) : List T :=
  log.filterMap fun e => match e with | .accept value => some value | _ => none

def popped (log : List (Event T)) : List T :=
  log.filterMap fun e => match e with | .take value => some value | _ => none

def inHand : Consumer T → List T
  | .destroy _ out | .storeHead _ out => [out]
  | _ => []

def built : Producer T → List T
  | .storeTail value _ => [value]
  | _ => []

def slots (capacity : BitVec 64) (q : SpscBoundedQueue T) : List (Option T) :=
  (List.range (q.tail - q.head).toNat).map fun i => q.ptr capacity (q.head + BitVec.ofNat 64 i)

theorem pushed_append (l₁ l₂ : List (Event T)) : pushed (l₁ ++ l₂) = pushed l₁ ++ pushed l₂ := List.filterMap_append

theorem popped_append (l₁ l₂ : List (Event T)) : popped (l₁ ++ l₂) = popped l₁ ++ popped l₂ := List.filterMap_append

end

variable {T : Type} {c : Nat}

/-- What the producer has established: the slot of the tail is not taken, and then it holds the item. -/
def ProducerOk (c : Nat) (storage : Nat → Option T) (tail headCache : Nat) : Producer T → Prop
  | .loadHead _ t => t = BitVec.ofNat 64 tail
  | .construct _ t => t = BitVec.ofNat 64 tail ∧ tail < headCache + c
  | .storeTail value t => t = BitVec.ofNat 64 tail ∧ tail < headCache + c ∧ storage (tail % c) = some value
  | _ => True

/-- What the consumer has established: the slot of the head is taken, and at last empty again. -/
def ConsumerOk (c : Nat) (storage : Nat → Option T) (head tailCache : Nat) : Consumer T → Prop
  | .loadTail h => h = BitVec.ofNat 64 head
  | .moveOut h | .destroy h _ => h = BitVec.ofNat 64 head ∧ head < tailCache
  | .storeHead h _ => h = BitVec.ofNat 64 head ∧ head < tailCache ∧ storage (head % c) = none
  | _ => True

/-- The counters are words of the counts. -/
structure Counted (q : SpscBoundedQueue T) (head tail headCache tailCache : Nat) : Prop where
  head : q.head = BitVec.ofNat 64 head
  tail : q.tail = BitVec.ofNat 64 tail
  headCache : q.headCache = BitVec.ofNat 64 headCache
  tailCache : q.tailCache = BitVec.ofNat 64 tailCache

structure Inv (c : Nat) (s : State T) (accepted returned : List T) (headCache tailCache : Nat) : Prop where
  counts : Counted s.queue returned.length accepted.length headCache tailCache
  head_le : headCache ≤ returned.length
  cache_le : returned.length ≤ tailCache
  tail_le : tailCache ≤ accepted.length
  bound : accepted.length ≤ headCache + c
  order : returned ++ inHand s.consumer <+: accepted
  live : ∀ k, (returned ++ inHand s.consumer).length ≤ k → k < accepted.length → s.queue.storage (k % c) = accepted[k]?
  free : ∀ k, accepted.length + (built s.producer).length ≤ k → k < returned.length + c → s.queue.storage (k % c) = none
  producer : ProducerOk c s.queue.storage accepted.length headCache s.producer
  consumer : ConsumerOk c s.queue.storage returned.length tailCache s.consumer

theorem Inv.empty_handed {c : Nat} {s : State T} {accepted returned : List T} {headCache tailCache : Nat}
    (h : Inv c s accepted returned headCache tailCache) {f : Consumer T} (hhand : inHand s.consumer = []) (hf : inHand f = [])
    (hok : ConsumerOk c s.queue.storage returned.length tailCache f) :
    Inv c { s with consumer := f } accepted returned headCache tailCache := by
  have horder := h.order
  have hlive := h.live
  rw [hhand, ← hf] at horder hlive
  exact { h with order := horder, live := hlive, consumer := hok }

/-! ## Words -/

section
variable {capacity : BitVec 64} (hpow : ∃ j, 0 < j ∧ j < 64 ∧ capacity.toNat = 2 ^ j)

include hpow

theorem capacity_bounds : 2 ≤ capacity.toNat ∧ capacity.toNat ≤ 2 ^ 63 := by
  obtain ⟨j, h0, h1, h⟩ := hpow
  rw [h]
  exact ⟨Nat.pow_le_pow_right (n := 2) (by omega) h0, Nat.pow_le_pow_right (by omega) (by omega)⟩

theorem index_word (k : Nat) : index capacity (BitVec.ofNat 64 k) = k % capacity.toNat := by
  obtain ⟨j, -, hj, hc⟩ := hpow
  have hslot := Counter.slot_word (w := 64) ⟨j, hj, hc⟩ k
  rw [← hslot]
  show _ = (BitVec.ofNat 64 k &&& (BitVec.ofNat 64 capacity.toNat - 1)).toNat
  rw [BitVec.ofNat_toNat, BitVec.setWidth_eq]
  rfl

theorem ptr_word (q : SpscBoundedQueue T) (k : Nat) :
    q.ptr capacity (BitVec.ofNat 64 k) = q.storage (k % capacity.toNat) := by
  rw [ptr, index_word hpow]

theorem full_iff {tail head : Nat} (h1 : head ≤ tail) (h2 : tail ≤ head + capacity.toNat) :
    BitVec.ofNat 64 tail + 1 - BitVec.ofNat 64 head > capacity ↔ tail = head + capacity.toNat := by
  have hb := (capacity_bounds hpow).2
  have hnext : BitVec.ofNat 64 tail + 1 = BitVec.ofNat 64 (tail + 1) := Counter.plus_word tail 1
  rw [hnext, gt_iff_lt, BitVec.lt_def, Counter.word_sub (by omega) (by omega)]
  omega

theorem empty_iff {tail head : Nat} (h1 : head ≤ tail) (h2 : tail ≤ head + capacity.toNat) :
    BitVec.ofNat 64 tail = BitVec.ofNat 64 head ↔ tail = head := by
  have hb := (capacity_bounds hpow).2
  exact Counter.word_eq h1 (by omega)

end

/-! ## Steps -/

section
variable {capacity : BitVec 64} {q : SpscBoundedQueue T} {s s' : State T} {accepted returned : List T}
  {headCache tailCache : Nat}

theorem slot_ne {head j k : Nat} (h1 : head ≤ j) (h2 : j < head + c) (h3 : head ≤ k) (h4 : k < head + c) (hne : j ≠ k) :
    j % c ≠ k % c := fun h => hne (Counter.window_inj h1 h2 h3 h4 h)

variable (hpow : ∃ j, 0 < j ∧ j < 64 ∧ capacity.toNat = 2 ^ j)

include hpow

theorem put_at (q : SpscBoundedQueue T) (k : Nat) (x : Option T) :
    (q.put capacity (BitVec.ofNat 64 k) x).storage (k % capacity.toNat) = x := by
  rw [put, index_word hpow]
  exact Function.update_self ..

theorem put_other (q : SpscBoundedQueue T) {k i : Nat} (x : Option T) (h : i ≠ k % capacity.toNat) :
    (q.put capacity (BitVec.ofNat 64 k) x).storage i = q.storage i := by
  rw [put, index_word hpow]
  exact Function.update_of_ne h ..

omit hpow in
theorem Inv.loads_head (h : Inv capacity.toNat s accepted returned headCache tailCache) {f : Producer T}
    (hb : built s.producer = []) (hf : built f = [])
    (hok : ProducerOk capacity.toNat s.queue.storage accepted.length returned.length f) :
    Inv capacity.toNat ⟨{ s.queue with headCache := s.queue.head }, f, s.consumer⟩ accepted returned returned.length tailCache := by
  have h1 := h.head_le
  have h4 := h.bound
  refine ⟨{ h.counts with headCache := h.counts.head }, Nat.le_refl _, h.cache_le, h.tail_le, by omega, h.order, h.live, ?_,
    hok, h.consumer⟩
  rw [hf, ← hb]
  exact h.free

omit hpow in
theorem Inv.loads_tail (h : Inv capacity.toNat s accepted returned headCache tailCache) {f : Consumer T}
    (hb : inHand s.consumer = []) (hf : inHand f = [])
    (hok : ConsumerOk capacity.toNat s.queue.storage returned.length accepted.length f) :
    Inv capacity.toNat ⟨{ s.queue with tailCache := s.queue.tail }, s.producer, f⟩ accepted returned headCache accepted.length := by
  have h2 := h.cache_le
  have h3 := h.tail_le
  refine ⟨{ h.counts with tailCache := h.counts.tail }, h.head_le, by omega, Nat.le_refl _, h.bound, ?_, ?_, h.free,
    h.producer, hok⟩
  · rw [hf, ← hb]
    exact h.order
  · rw [hf, ← hb]
    exact h.live

theorem Inv.fills (h : Inv capacity.toNat s accepted returned headCache tailCache) (hb : built s.producer = [])
    (hlt : accepted.length < headCache + capacity.toNat) (arg : T) :
    Inv capacity.toNat ⟨s.queue.put capacity (BitVec.ofNat 64 accepted.length) (some arg),
      .storeTail arg (BitVec.ofNat 64 accepted.length), s.consumer⟩ accepted returned headCache tailCache := by
  obtain ⟨queue, producer, consumer⟩ := s
  have h1 := h.head_le
  have h2 := h.cache_le
  have h3 := h.tail_le
  have hother : ∀ k, returned.length ≤ k → k < returned.length + capacity.toNat → k ≠ accepted.length →
      (queue.put capacity (BitVec.ofNat 64 accepted.length) (some arg)).storage (k % capacity.toNat) =
        queue.storage (k % capacity.toNat) := fun k h5 h6 hne =>
    put_other hpow queue _ (slot_ne h5 h6 (by omega) (by omega) hne)
  have hlen : ∀ k, (returned ++ inHand consumer).length ≤ k → returned.length ≤ k := by
    intro k hk
    rw [List.length_append] at hk
    omega
  refine ⟨{ h.counts with }, h1, h2, h3, h.bound, h.order, fun k h5 h6 => ?_, fun k h5 h6 => ?_,
    ⟨rfl, hlt, put_at hpow ..⟩, ?_⟩
  · rw [hother k (hlen k h5) (by omega) (by omega)]
    exact h.live k h5 h6
  · have h5 : accepted.length + 1 ≤ k := h5
    rw [hother k (by omega) h6 (by omega)]
    apply h.free k _ h6
    rw [hb]
    exact Nat.le_of_succ_le h5
  · have hc := h.consumer
    cases consumer with
    | storeHead head out => exact ⟨hc.1, hc.2.1, (hother _ (Nat.le_refl _) (by omega) (by have := hc.2.1; omega)).trans hc.2.2⟩
    | _ => exact hc

theorem Inv.touches (h : Inv capacity.toNat s accepted returned headCache tailCache) (x : Option T) {f : Consumer T}
    (hlt : returned.length < tailCache) (horder : returned ++ inHand f <+: accepted)
    (hlen : (returned ++ inHand f).length = returned.length + 1)
    (hlive : ∀ k, returned.length + 1 ≤ k → k < accepted.length → s.queue.storage (k % capacity.toNat) = accepted[k]?)
    (hok : ConsumerOk capacity.toNat (s.queue.put capacity (BitVec.ofNat 64 returned.length) x).storage returned.length
      tailCache f) :
    Inv capacity.toNat ⟨s.queue.put capacity (BitVec.ofNat 64 returned.length) x, s.producer, f⟩ accepted returned headCache
      tailCache := by
  obtain ⟨queue, producer, consumer⟩ := s
  have h1 := h.head_le
  have h2 := h.cache_le
  have h3 := h.tail_le
  have h4 := h.bound
  have other : ∀ k, returned.length ≤ k → k < returned.length + capacity.toNat → k ≠ returned.length →
      (queue.put capacity (BitVec.ofNat 64 returned.length) x).storage (k % capacity.toNat) =
        queue.storage (k % capacity.toNat) := fun k h5 h6 hne =>
    put_other hpow queue _ (slot_ne h5 h6 (Nat.le_refl _) (by omega) hne)
  refine ⟨{ h.counts with }, h1, h2, h3, h4, horder, fun k h5 h6 => ?_, fun k h5 h6 => ?_, ?_, hok⟩
  · have h5 : returned.length + 1 ≤ k := hlen ▸ h5
    rw [other k (by omega) (by omega) (by omega)]
    exact hlive k h5 h6
  · have h5 : accepted.length + (built producer).length ≤ k := h5
    rw [other k (by omega) h6 (by omega)]
    exact h.free k h5 h6
  · have hp := h.producer
    cases producer with
    | storeTail value tail =>
      exact ⟨hp.1, hp.2.1, (other _ (by omega) (by have := hp.2.1; omega) (by omega)).trans hp.2.2⟩
    | _ => exact hp

variable [Elem T] {throws : Bool}

theorem Inv.emplaces (h : Inv capacity.toNat s accepted returned headCache tailCache) {f : Producer T}
    (ha : Emplaces capacity s.queue throws s.producer q f) : ∃ headCache',
      Inv capacity.toNat { s with queue := q, producer := f } (accepted ++ pushed (trace s (.producer throws))) returned
        headCache' tailCache := by
  obtain ⟨queue, producer, consumer⟩ := s
  have htail : queue.tail = BitVec.ofNat 64 accepted.length := h.counts.tail
  have hhead : queue.head = BitVec.ofNat 64 returned.length := h.counts.head
  have hcache : queue.headCache = BitVec.ofNat 64 headCache := h.counts.headCache
  have h1 := h.head_le
  have h2 := h.cache_le
  have h3 := h.tail_le
  have h4 := h.bound
  have quiet : ∀ {q : SpscBoundedQueue T} {f : Producer T} (headCache' : Nat),
      pushed (trace ⟨queue, producer, consumer⟩ (.producer throws)) = [] →
      Inv capacity.toNat ⟨q, f, consumer⟩ accepted returned headCache' tailCache → ∃ headCache',
        Inv capacity.toNat ⟨q, f, consumer⟩ (accepted ++ pushed (trace ⟨queue, producer, consumer⟩ (.producer throws)))
          returned headCache' tailCache := by
    intro q f headCache' hz h
    rw [hz, List.append_nil]
    exact ⟨headCache', h⟩
  have hok := h.producer
  cases ha with
  | stale => exact quiet headCache rfl { h with producer := htail }
  | cached hroom =>
    simp only [htail, hcache] at hroom
    rw [full_iff hpow (by omega) h4] at hroom
    exact quiet headCache rfl { h with producer := ⟨htail, by omega⟩ }
  | full => exact quiet returned.length rfl (h.loads_head rfl rfl trivial)
  | @room arg tail hroom =>
    obtain rfl : tail = BitVec.ofNat 64 accepted.length := hok
    simp only [hhead] at hroom
    rw [full_iff hpow (by omega) (by omega)] at hroom
    exact quiet returned.length rfl (h.loads_head rfl rfl ⟨rfl, by omega⟩)
  | @construct arg tail =>
    obtain ⟨rfl, hlt⟩ : tail = BitVec.ofNat 64 accepted.length ∧ accepted.length < headCache + capacity.toNat := hok
    exact quiet headCache rfl (h.fills hpow rfl hlt arg)
  | throws => exact quiet headCache rfl { h with producer := trivial }
  | @storeTail value tail =>
    refine ⟨headCache, ?_⟩
    rw [show pushed (trace _ _) = [value] from rfl]
    obtain ⟨rfl, hlt, hslot⟩ : tail = BitVec.ofNat 64 accepted.length ∧ accepted.length < headCache + capacity.toNat ∧
      queue.storage (accepted.length % capacity.toNat) = some value := hok
    have hlen : (accepted ++ [value]).length = accepted.length + 1 := List.length_append
    refine ⟨{ h.counts with tail := ?_ }, h1, h2, by omega, by omega, h.order.trans (List.prefix_append ..), ?_, ?_,
      trivial, h.consumer⟩
    · rw [hlen]
      exact Counter.plus_word accepted.length 1
    · intro k h5 h6
      by_cases hk : k < accepted.length
      · rw [List.getElem?_append_left hk]
        exact h.live k h5 hk
      · obtain rfl : k = accepted.length := by omega
        rw [List.getElem?_concat_length]
        exact hslot
    · intro k h5 h6
      exact h.free k (by rw [hlen] at h5; exact h5) h6

theorem Inv.pops (h : Inv capacity.toNat s accepted returned headCache tailCache) {f : Consumer T}
    (ha : Pops capacity s.queue throws s.consumer q f) : ∃ tailCache',
      Inv capacity.toNat { s with queue := q, consumer := f } accepted (returned ++ popped (trace s (.consumer throws)))
        headCache tailCache' := by
  obtain ⟨queue, producer, consumer⟩ := s
  have htail : queue.tail = BitVec.ofNat 64 accepted.length := h.counts.tail
  have hhead : queue.head = BitVec.ofNat 64 returned.length := h.counts.head
  have hcache : queue.tailCache = BitVec.ofNat 64 tailCache := h.counts.tailCache
  have h1 := h.head_le
  have h2 := h.cache_le
  have h3 := h.tail_le
  have h4 := h.bound
  have quiet : ∀ {q : SpscBoundedQueue T} {f : Consumer T} (tailCache' : Nat),
      popped (trace ⟨queue, producer, consumer⟩ (.consumer throws)) = [] →
      Inv capacity.toNat ⟨q, producer, f⟩ accepted returned headCache tailCache' → ∃ tailCache',
        Inv capacity.toNat ⟨q, producer, f⟩ accepted
          (returned ++ popped (trace ⟨queue, producer, consumer⟩ (.consumer throws))) headCache tailCache' := by
    intro q f tailCache' hz h
    rw [hz, List.append_nil]
    exact ⟨tailCache', h⟩
  have hok := h.consumer
  have hlen : ∀ out : T, (returned ++ [out]).length = returned.length + 1 := fun out => List.length_append
  cases ha with
  | stale => exact quiet tailCache rfl { h with consumer := hhead }
  | cached hitem =>
    simp only [hhead, hcache] at hitem
    rw [ne_eq, empty_iff hpow h2 (by omega)] at hitem
    exact quiet tailCache rfl { h with consumer := ⟨hhead, by omega⟩ }
  | empty => exact quiet accepted.length rfl (h.loads_tail rfl rfl trivial)
  | @item head hitem =>
    obtain rfl : head = BitVec.ofNat 64 returned.length := hok
    simp only [htail] at hitem
    rw [ne_eq, empty_iff hpow (by omega) (by omega)] at hitem
    exact quiet accepted.length rfl (h.loads_tail rfl rfl ⟨rfl, by omega⟩)
  | @moveOut head value hvalue =>
    obtain ⟨rfl, hlt⟩ : head = BitVec.ofNat 64 returned.length ∧ returned.length < tailCache := hok
    have hlive : ∀ k, returned.length ≤ k → k < accepted.length → queue.storage (k % capacity.toNat) = accepted[k]? := by
      intro k h5 h6
      exact h.live k (by show (returned ++ []).length ≤ k; rw [List.append_nil]; exact h5) h6
    have hnext : accepted[returned.length]? = some value := by
      have hs := hlive _ (Nat.le_refl _) (by omega)
      rw [List.getElem?_eq_getElem (by omega)] at hs ⊢
      rw [hvalue, ptr_word hpow, hs]
      rfl
    have htaken : returned ++ [value] <+: accepted := by
      have hpre : returned <+: accepted := (List.prefix_append ..).trans h.order
      obtain ⟨rest, rfl⟩ := hpre
      rw [List.getElem?_append_right (Nat.le_refl _), Nat.sub_self] at hnext
      obtain ⟨rest, rfl⟩ := List.head?_eq_some_iff.mp (List.head?_eq_getElem? ▸ hnext)
      exact ⟨rest, by rw [List.append_assoc]; rfl⟩
    exact quiet tailCache rfl
      (h.touches hpow _ hlt htaken (hlen value) (fun k h5 h6 => hlive k (by omega) h6) ⟨rfl, hlt⟩)
  | throws => exact quiet tailCache rfl { h with consumer := trivial }
  | @destroy head out =>
    obtain ⟨rfl, hlt⟩ : head = BitVec.ofNat 64 returned.length ∧ returned.length < tailCache := hok
    exact quiet tailCache rfl (h.touches hpow _ hlt h.order (hlen out)
      (fun k h5 h6 => h.live k ((hlen out).symm ▸ h5) h6) ⟨rfl, hlt, put_at hpow ..⟩)
  | @storeHead head out =>
    refine ⟨tailCache, ?_⟩
    rw [show popped (trace _ _) = [out] from rfl]
    obtain ⟨rfl, hlt, hslot⟩ : head = BitVec.ofNat 64 returned.length ∧ returned.length < tailCache ∧
      queue.storage (returned.length % capacity.toNat) = none := hok
    refine ⟨{ h.counts with head := ?_ }, ?_, ?_, h3, h4, ?_, ?_, fun k h5 h6 => ?_, h.producer, trivial⟩
    · rw [hlen]
      exact Counter.plus_word returned.length 1
    · rw [hlen]; omega
    · rw [hlen]; omega
    · exact (List.append_nil (returned ++ [out])).symm ▸ h.order
    · exact (List.append_nil (returned ++ [out])).symm ▸ h.live
    · rw [hlen] at h6
      have h5 : accepted.length + (built producer).length ≤ k := h5
      by_cases hk : k < returned.length + capacity.toNat
      · exact h.free k h5 hk
      · obtain rfl : k = returned.length + capacity.toNat := by omega
        rw [Nat.add_mod_right]
        exact hslot

end

/-! ## Runs -/

variable {capacity : BitVec 64} {throwing : Bool} {s s' : State T} {log : List (Event T)}

theorem popped_producer (s : State T) (throws : Bool) : popped (trace s (.producer throws)) = [] := by
  cases throws with
  | true => rfl
  | false => simp only [trace]; split <;> rfl

theorem pushed_consumer (s : State T) (throws : Bool) : pushed (trace s (.consumer throws)) = [] := by
  cases throws with
  | true => rfl
  | false => simp only [trace]; split <;> rfl

def Recorded (c : Nat) (s : State T) (log : List (Event T)) : Prop :=
  ∃ headCache tailCache, Inv c s (pushed log) (popped log) headCache tailCache

variable [Elem T] (hpow : ∃ j, 0 < j ∧ j < 64 ∧ capacity.toNat = 2 ^ j)

include hpow

theorem Recorded.step {a : Label T} (h : Recorded capacity.toNat s log) (hs : Spsc.step capacity throwing s a = some s') :
    Recorded capacity.toNat s' (log ++ trace s a) := by
  obtain ⟨headCache, tailCache, h⟩ := h
  cases step_spec hs with
  | @emplace arg hp =>
    refine ⟨headCache, tailCache, ?_⟩
    rw [show trace s (.emplace arg) = [] from rfl, List.append_nil]
    exact { h with free := fun k h1 h2 => h.free k (by rw [hp]; exact h1) h2, producer := trivial }
  | @producer throws q f _ ha =>
    obtain ⟨headCache', h'⟩ := h.emplaces hpow ha
    refine ⟨headCache', tailCache, ?_⟩
    rw [pushed_append, popped_append, popped_producer, List.append_nil]
    exact h'
  | pushed hp =>
    refine ⟨headCache, tailCache, ?_⟩
    rw [show trace s .pushed = [] from rfl, List.append_nil]
    refine { h with free := fun k h1 h2 => h.free k ?_ h2, producer := trivial }
    rcases hp with ⟨ok, arg, hp⟩ | hp <;> rw [hp] <;> exact h1
  | tryPop hc =>
    rw [show trace s .tryPop = [] from rfl, List.append_nil]
    exact ⟨headCache, tailCache, h.empty_handed (by rw [hc]; rfl) rfl trivial⟩
  | @consumer throws q f _ ha =>
    obtain ⟨tailCache', h'⟩ := h.pops hpow ha
    refine ⟨headCache, tailCache', ?_⟩
    rw [pushed_append, popped_append, pushed_consumer, List.append_nil]
    exact h'
  | popped hc =>
    rw [show trace s .popped = [] from rfl, List.append_nil]
    refine ⟨headCache, tailCache, h.empty_handed ?_ rfl trivial⟩
    rcases hc with ⟨out, hc⟩ | hc <;> rw [hc] <;> rfl

theorem recorded_reachable (h : ((machine T capacity throwing).logged trace).Reachable (s, log)) :
    Recorded capacity.toNat s log := by
  refine h.invariant (I := fun x => Recorded capacity.toNat x.1 x.2) ?_ ?_
  · exact ⟨0, 0, ⟨rfl, rfl, rfl, rfl⟩, Nat.le_refl 0, Nat.le_refl 0, Nat.le_refl 0, Nat.zero_le _, List.prefix_refl _,
      fun k _ hk => absurd hk (Nat.not_lt_zero k), fun _ _ _ => rfl, trivial, trivial⟩
  · intro x a x' _ hI hs
    obtain ⟨h1, h2⟩ := Machine.logged_step.mp hs
    rw [h2]
    exact hI.step hpow h1

section
variable {accepted returned : List T} {headCache tailCache : Nat}
  (h : Inv capacity.toNat s accepted returned headCache tailCache)

include h

omit [Elem T] in
/-- The difference of the counters is that of the counts, and at most the capacity. -/
theorem Inv.size_eq : (s.queue.tail - s.queue.head).toNat = accepted.length - returned.length ∧
    returned.length ≤ accepted.length ∧ accepted.length ≤ returned.length + capacity.toNat := by
  have h1 := h.head_le
  have h2 := h.cache_le
  have h3 := h.tail_le
  have h4 := h.bound
  have hb := (capacity_bounds hpow).2
  refine ⟨?_, by omega, by omega⟩
  rw [h.counts.tail, h.counts.head, Counter.word_sub (by omega) (by omega)]

omit [Elem T] in
/-- The slots from the head to the tail hold what is not popped, in order. -/
theorem Inv.slots_eq : (slots capacity s.queue).drop (inHand s.consumer).length =
    (accepted.drop (returned ++ inHand s.consumer).length).map some := by
  have hdif := (h.size_eq hpow).1
  have hptr : ∀ i, s.queue.ptr capacity (s.queue.head + BitVec.ofNat 64 i) =
      s.queue.storage ((returned.length + i) % capacity.toNat) := by
    intro i
    rw [h.counts.head, ← BitVec.ofNat_add, ptr_word hpow]
  apply List.ext_getElem?
  intro i
  rw [slots, hdif, List.getElem?_drop, List.getElem?_map, List.getElem?_map, List.getElem?_drop, List.length_append]
  by_cases hi : returned.length + (inHand s.consumer).length + i < accepted.length
  · have hlive := h.live (returned.length + ((inHand s.consumer).length + i)) (by rw [List.length_append]; omega) (by omega)
    rw [List.getElem?_range (by omega), Option.map_some, hptr, hlive, Nat.add_assoc, List.getElem?_eq_getElem (by omega)]
    rfl
  · rw [List.getElem?_eq_none (by rw [List.length_range]; omega), List.getElem?_eq_none (by omega)]
    rfl

end

end Spsc

open Spsc

variable {T : Type} [Elem T] {fuel : Nat} {requested capacity : BitVec 64}

/-- **FIFO across the wrap of the counters.** What is popped is what was
pushed, in order; the slots from `head_` to `tail_` hold the rest, but for an
item in the consumer's hand, and no other slot but the one being filled holds
anything; and each side only touches a slot that is its own. -/
theorem spsc_fifo (hcap : normalizeCapacity fuel requested = some capacity) (throwing : Bool) {s : Spsc.State T}
    {log : List (Event T)} (hr : ((Spsc.machine T capacity throwing).logged trace).Reachable (s, log)) :
    popped log <+: pushed log ∧
    ((pushed log).drop (popped log).length).map some =
      (inHand s.consumer).map some ++ (slots capacity s.queue).drop (inHand s.consumer).length ∧
    (∀ i, (s.queue.tail - s.queue.head).toNat + (built s.producer).length ≤ i → i < capacity.toNat →
      s.queue.ptr capacity (s.queue.head + BitVec.ofNat 64 i) = none) ∧
    (∀ arg tail, s.producer = .construct arg tail → s.queue.ptr capacity tail = none) ∧
    ∀ head, s.consumer = .moveOut head → ∃ value, s.queue.ptr capacity head = some value ∧
      (pushed log)[(popped log).length]? = some value := by
  have hpow := normalizeCapacity_spec (by decide) hcap
  obtain ⟨headCache, tailCache, h⟩ := recorded_reachable hpow hr
  have hle := h.head_le
  obtain ⟨hsize, hlen, hroom⟩ := h.size_eq hpow
  refine ⟨(List.prefix_append ..).trans h.order, ?_, fun i hi hi' => ?_, fun arg tail hp => ?_, fun head hc => ?_⟩
  · rw [h.slots_eq hpow, ← List.map_append]
    obtain ⟨rest, hrest⟩ := h.order
    rw [← hrest, List.drop_left, List.append_assoc, List.drop_left]
  · rw [hsize] at hi
    rw [h.counts.head, ← BitVec.ofNat_add, ptr_word hpow]
    exact h.free _ (by omega) (by omega)
  · have hok := h.producer
    have hfree := h.free (pushed log).length
    rw [hp] at hok hfree
    rw [hok.1, ptr_word hpow]
    exact hfree (Nat.le_refl _) (by have := hok.2; omega)
  · have hok := h.consumer
    have hlive := h.live (popped log).length
    rw [hc] at hok hlive
    have hlt : (popped log).length < (pushed log).length := Nat.lt_of_lt_of_le hok.2 h.tail_le
    have hlen : (popped log ++ []).length ≤ (popped log).length := by rw [List.append_nil]
    refine ⟨(pushed log)[(popped log).length], ?_, List.getElem?_eq_getElem hlt⟩
    rw [hok.1, ptr_word hpow, hlive hlen hlt, List.getElem?_eq_getElem hlt]

def pushPushPop : List (Spsc.Label Nat) :=
  [.emplace 7, .producer false, .producer false, .producer false, .pushed, .emplace 8, .producer false, .producer false,
    .tryPop, .consumer false, .consumer false, .consumer false]

theorem spsc_fifo_one : ∃ x, ((Spsc.machine Nat 2#64 false).logged trace).exec pushPushPop = some x ∧
    ((pushed x.2).drop (popped x.2).length).map some =
      (inHand x.1.consumer).map some ++ (slots 2#64 x.1.queue).drop (inHand x.1.consumer).length := by
  have hrun : (((Spsc.machine Nat 2#64 false).logged trace).exec pushPushPop).isSome := by decide
  obtain ⟨x, hx⟩ := Option.isSome_iff_exists.mp hrun
  have hcap : normalizeCapacity 3 2#64 = some 2#64 := by decide
  exact ⟨x, hx, (spsc_fifo hcap false (Machine.exec_reachable _ hx)).2.1⟩

end Yutil
