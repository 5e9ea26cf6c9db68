import Yutil.MonitorCalls
import Yutil.DequeQueues
import Yutil.Interchange

/-!
# Calls that throw

A call whose element operation throws can be cut out of a sequence of calls: the
calls that do not throw are answered as they were, and the queue ends up the
same but for what nobody can see, the slots outside the live ones and the
copies of the indices.
-/

namespace Yutil

open Interleave

variable {T : Type}

def Res.failed : Res T → Bool
  | .threw => true
  | _ => false

theorem Res.failed_iff {r : Res T} : r.failed = true ↔ r = .threw := by
  cases r <;> simp [Res.failed]

/-! ## The deques -/

section
variable {emplace : Built T → Deque T → Exit (Deque T) Cv (Res T)}
  {waitPop : Bool → Bool → Deque T → Exit (Deque T) Cv (Res T)} {shouldNotify : Deque T → Bool}
  {held : Option (Notify Cv)} {later : List (Notify Cv)} {d d' : Deque T}

theorem emplaceWith_threw {n : Bool} {b : Built T} (h : d.emplaceWith n b = .leave d' held later .threw) : d' = d := by
  unfold Deque.emplaceWith at h
  split at h
  · cases h
  · cases b with
    | throws left =>
      cases h
      rfl
    | value v => cases h

theorem popFront_threw {a : Bool} (h : d.popFront a = .leave d' held later .threw) : d' = d := by
  unfold Deque.popFront at h
  split at h
  · cases h
  · split at h
    · cases h
    · cases h
      rfl

def WaitsOnce (waitPop : Bool → Bool → Deque T → Exit (Deque T) Cv (Res T)) : Prop :=
  ∀ a d, (∃ d' : Deque T, waitPop a false d = .sleep d' .cv) ∨ waitPop a false d = d.popFront a

theorem waitPop_once : WaitsOnce (Deque.waitPop (T := T)) := by
  intro a d
  unfold Deque.waitPop
  split
  · exact .inr rfl
  · exact .inl ⟨d, rfl⟩

theorem waitPopCounting_once : WaitsOnce (Deque.waitPopCounting (T := T)) := by
  intro a d
  unfold Deque.waitPopCounting
  simp only [Bool.false_eq_true, if_false]
  split
  · exact .inl ⟨_, rfl⟩
  · exact .inr rfl

theorem deque_threw (he : ∀ b d, emplace b d = d.emplaceWith (shouldNotify d) b) (hw : WaitsOnce waitPop) {op : DequeOp T}
    (h : (Deque.monitor emplace waitPop).sect op false d = .leave d' held later .threw) : d' = d := by
  cases op with
  | emplace b => exact emplaceWith_threw ((he b d).symm.trans h)
  | waitPop a =>
    rcases hw a d with ⟨d₁, hs⟩ | hp
    · cases hs.symm.trans h
    · exact popFront_threw (hp.symm.trans h)
  | tryPop a => exact popFront_threw h
  | close => cases h

theorem deque_erased {Tid : Type} [DecidableEq Tid] [Fintype Tid] (he : ∀ b d, emplace b d = d.emplaceWith (shouldNotify d) b)
    (hw : WaitsOnce waitPop) : Service.Erased (Monitor.service Tid (Deque.monitor emplace waitPop))
      (Monitor.service Tid (Deque.monitor emplace waitPop)) Res.failed fun s t => s.data = t.data := by
  apply Service.Erases.erased
  · apply Monitor.erases Eq
    · rfl
    · rintro op d d' e held later r rfl hx hf
      rw [Res.failed_iff.mp hf] at hx
      exact deque_threw he hw hx
    · rintro op d d' e held later r rfl hx -
      exact ⟨d', held, later, hx, rfl⟩
  · rintro s t ⟨d, e, rfl, rfl, rfl⟩
    rfl

end

/-! ## The rings -/

namespace Ring

variable [Elem T]

/-- Rings that are the same but for the slots outside the live ones. -/
structure Alike (r t : Ring T) : Prop where
  capacity : r.capacity = t.capacity
  head : r.head = t.head
  tail : r.tail = t.tail
  size : r.size = t.size
  waitingConsumers : r.waitingConsumers = t.waitingConsumers
  waitingProducers : r.waitingProducers = t.waitingProducers
  closed : r.closed = t.closed
  items : r.items = t.items

variable {r t u d e : Ring T} {held held' : Option (Notify Cv)} {later later' : List (Notify Cv)} {b : Built T} {a : Bool}

theorem Alike.refl (r : Ring T) : r.Alike r := ⟨rfl, rfl, rfl, rfl, rfl, rfl, rfl, rfl⟩

theorem Alike.trans (h : r.Alike t) (h' : t.Alike u) : r.Alike u :=
  ⟨h.capacity.trans h'.capacity, h.head.trans h'.head, h.tail.trans h'.tail, h.size.trans h'.size,
    h.waitingConsumers.trans h'.waitingConsumers, h.waitingProducers.trans h'.waitingProducers, h.closed.trans h'.closed,
    h.items.trans h'.items⟩

theorem Alike.symm (h : r.Alike t) : t.Alike r :=
  ⟨h.capacity.symm, h.head.symm, h.tail.symm, h.size.symm, h.waitingConsumers.symm, h.waitingProducers.symm, h.closed.symm,
    h.items.symm⟩

theorem spoil_alike (h : r.WF) (hs : r.size < r.capacity) (left : Option T) : (r.spoil left).Alike r := by
  cases left with
  | none => exact .refl r
  | some v => exact ⟨rfl, rfl, rfl, rfl, rfl, rfl, rfl, spoil_items h hs (some v)⟩

theorem Alike.pushBack (h : r.Alike t) (hr : r.WF) (ht : t.WF) (hs : r.size < r.capacity) (v : T) :
    (r.pushBack v).Alike (t.pushBack v) := by
  have hs' : t.size < t.capacity := by
    rw [← h.size, ← h.capacity]
    exact hs
  refine ⟨h.capacity, h.head, ?_, congrArg (· + 1) h.size, h.waitingConsumers, h.waitingProducers, h.closed, ?_⟩
  · show (r.tail + 1) % r.capacity = (t.tail + 1) % t.capacity
    rw [h.tail, h.capacity]
  · rw [pushBack_items hr hs, pushBack_items ht hs', h.items]

theorem Alike.dropFront (h : r.Alike t) (hr : r.WF) (ht : t.WF) (hs : 0 < r.size) :
    r.front = t.front ∧ r.dropFront.Alike t.dropFront := by
  have hitems := h.items
  rw [dropFront_items hr hs, dropFront_items ht (h.size ▸ hs)] at hitems
  obtain ⟨hfront, hrest⟩ := List.cons.inj hitems
  refine ⟨hfront, h.capacity, ?_, h.tail, congrArg (· - 1) h.size, h.waitingConsumers, h.waitingProducers, h.closed, hrest⟩
  show (r.head + 1) % r.capacity = (t.head + 1) % t.capacity
  rw [h.head, h.capacity]

/-! ### A section that throws -/

/-- If the section throws, it leaves the ring as it was. -/
def Undone (r : Ring T) : Exit (Ring T) Cv (Res T) → Prop
  | .leave d _ _ .threw => d.Alike r
  | _ => True

theorem put_undone (hd : d.Alike r) (h : d.WF) (hs : d.size < d.capacity) : r.Undone (d.put held later b) := by
  cases b with
  | throws left => exact (spoil_alike h hs left).trans hd
  | value v => trivial

theorem get_undone (hd : d.Alike r) : r.Undone (d.get later a) := by
  unfold get
  split
  · trivial
  · split
    · trivial
    · exact hd

theorem emplace_undone {v : Cv} (hd : d.Alike r) (h : d.WF) : r.Undone (if r.closed || decide (r.size < r.capacity) then
    if r.closed then .leave d none [] (.pushed false) else d.put none later b else .sleep e v) := by
  split
  · rename_i hg
    split
    · trivial
    · rename_i hc
      apply put_undone hd h
      rw [hd.size, hd.capacity]
      simpa [hc] using hg
  · trivial

theorem tryEmplace_undone (h : r.WF) : r.Undone (if r.closed || decide (r.size ≥ r.capacity) then
    .leave r none [] (.pushed false) else r.put held later b) := by
  split
  · trivial
  · rename_i hg
    apply put_undone (.refl r) h
    simp only [ge_iff_le, Bool.or_eq_true, decide_eq_true_eq, not_or, Nat.not_le] at hg
    exact hg.2

theorem waitPop_undone {v : Cv} (hd : d.Alike r) : r.Undone (if r.closed || decide (r.size > 0) then d.get later a
    else .sleep e v) := by
  split
  · exact get_undone hd
  · trivial

/-! ### Sections of rings that are alike -/

def Agree : Exit (Ring T) Cv (Res T) → Exit (Ring T) Cv (Res T) → Prop
  | .sleep _ _, .sleep _ _ => True
  | .leave d _ _ x, .leave e _ _ y => x = y ∧ d.Alike e
  | _, _ => False

theorem put_agree (h : d.Alike e) (hd : d.WF) (he : e.WF) (hs : d.size < d.capacity) :
    Agree (d.put held later b) (e.put held' later' b) := by
  cases b with
  | throws left =>
    have hs' : e.size < e.capacity := by
      rw [← h.size, ← h.capacity]
      exact hs
    refine ⟨rfl, ?_⟩
    have hsame := ((spoil_alike hd hs left).trans h)
    cases left with
    | none => exact hsame
    | some v => exact ⟨h.capacity, h.head, h.tail, h.size, h.waitingConsumers, h.waitingProducers, h.closed,
        hsame.items.trans (spoil_items he hs' (some v)).symm⟩
  | value v => exact ⟨rfl, h.pushBack hd he hs v⟩

theorem get_agree (h : d.Alike e) (hd : d.WF) (he : e.WF) : Agree (d.get later a) (e.get later' a) := by
  unfold get
  rw [← h.size]
  split
  · exact ⟨rfl, h⟩
  · rename_i hz
    obtain ⟨hfront, hrest⟩ := h.dropFront hd he (Nat.pos_of_ne_zero hz)
    split
    · exact ⟨by rw [hfront], hrest⟩
    · exact ⟨rfl, h⟩

theorem emplace_agree {v v' : Cv} {d' e' : Ring T} (hrt : r.Alike t) (h : d.Alike e) (hdr : d.Alike r) (hd : d.WF) (he : e.WF) :
    Agree (if r.closed || decide (r.size < r.capacity) then
        if r.closed then .leave d none [] (.pushed false) else d.put none later b else .sleep d' v)
      (if t.closed || decide (t.size < t.capacity) then
        if t.closed then .leave e none [] (.pushed false) else e.put none later' b else .sleep e' v') := by
  rw [← hrt.closed, ← hrt.size, ← hrt.capacity]
  split
  · rename_i hg
    split
    · exact ⟨rfl, h⟩
    · rename_i hc
      apply put_agree h hd he
      rw [hdr.size, hdr.capacity]
      simpa [hc] using hg
  · trivial

theorem tryEmplace_agree (h : r.Alike t) (hr : r.WF) (ht : t.WF) :
    Agree (if r.closed || decide (r.size ≥ r.capacity) then .leave r none [] (.pushed false) else r.put held later b)
      (if t.closed || decide (t.size ≥ t.capacity) then .leave t none [] (.pushed false) else t.put held' later' b) := by
  rw [← h.closed, ← h.size, ← h.capacity]
  split
  · exact ⟨rfl, h⟩
  · rename_i hg
    apply put_agree h hr ht
    simp only [ge_iff_le, Bool.or_eq_true, decide_eq_true_eq, not_or, Nat.not_le] at hg
    exact hg.2

theorem waitPop_agree {v v' : Cv} {d' e' : Ring T} (hrt : r.Alike t) (h : d.Alike e) (hd : d.WF) (he : e.WF) :
    Agree (if r.closed || decide (r.size > 0) then d.get later a else .sleep d' v)
      (if t.closed || decide (t.size > 0) then e.get later' a else .sleep e' v') := by
  rw [← hrt.closed, ← hrt.size]
  split
  · exact get_agree h hd he
  · trivial

theorem close_agree (h : r.Alike t) : Agree (r.close later) (t.close later') :=
  ⟨rfl, h.capacity, h.head, h.tail, h.size, h.waitingConsumers, h.waitingProducers, rfl, h.items⟩

/-- The waiter counters of V3 are back when a call that did not sleep leaves. -/
theorem counting_alike (r : Ring T) {c p : Nat} (hc : c = r.waitingConsumers) (hp : p = r.waitingProducers) :
    (r.counting c p).Alike r := by
  subst hc hp
  exact .refl r

end Ring

namespace RingVersion

variable [Elem T] {r t : Ring T}

theorem sect_undone (version : RingVersion) (requested : Nat) (op : RingOp T) (h : r.WF) :
    r.Undone ((version.monitor T requested).sect op false r) := by
  have hemplace : (r.counting r.waitingConsumers (r.waitingProducers + 1 - 1)).Alike r :=
    Ring.counting_alike r rfl (Nat.add_sub_cancel ..)
  have hwait : (r.counting (r.waitingConsumers + 1 - 1) r.waitingProducers).Alike r :=
    Ring.counting_alike r (Nat.add_sub_cancel ..) rfl
  cases op with
  | emplace b =>
    cases version with
    | V1 | V2 => exact Ring.emplace_undone (.refl r) h
    | V3 => exact Ring.emplace_undone hemplace (h.counting ..)
  | tryEmplace b => cases version <;> exact Ring.tryEmplace_undone h
  | waitPop a =>
    cases version with
    | V1 | V2 => exact Ring.waitPop_undone (.refl r)
    | V3 => exact Ring.waitPop_undone hwait
  | tryPop a => cases version <;> exact Ring.get_undone (.refl r)
  | close => cases version <;> trivial

theorem sect_agree (version : RingVersion) (requested : Nat) (op : RingOp T) (h : r.Alike t) (hr : r.WF) (ht : t.WF) :
    Ring.Agree ((version.monitor T requested).sect op false r) ((version.monitor T requested).sect op false t) := by
  have hpush : ∀ r : Ring T, (r.counting r.waitingConsumers (r.waitingProducers + 1 - 1)).Alike r := fun r =>
    Ring.counting_alike r rfl (Nat.add_sub_cancel ..)
  have hpop : ∀ r : Ring T, (r.counting (r.waitingConsumers + 1 - 1) r.waitingProducers).Alike r := fun r =>
    Ring.counting_alike r (Nat.add_sub_cancel ..) rfl
  have hemplace := ((hpush r).trans h).trans (hpush t).symm
  have hwait := ((hpop r).trans h).trans (hpop t).symm
  cases op with
  | emplace b =>
    cases version with
    | V1 | V2 => exact Ring.emplace_agree h h (.refl r) hr ht
    | V3 => exact Ring.emplace_agree (r := r) (t := t) h hemplace (hpush r) (hr.counting ..) (ht.counting ..)
  | tryEmplace b => cases version <;> exact Ring.tryEmplace_agree h hr ht
  | waitPop a =>
    cases version with
    | V1 | V2 => exact Ring.waitPop_agree h h hr ht
    | V3 => exact Ring.waitPop_agree (r := r) (t := t) h hwait (hr.counting ..) (ht.counting ..)
  | tryPop a => cases version <;> exact Ring.get_agree h hr ht
  | close => cases version <;> exact Ring.close_agree h

theorem erased {Tid : Type} [DecidableEq Tid] [Fintype Tid] (version : RingVersion) (requested : Nat) :
    Service.Erased (Monitor.service Tid (version.monitor T requested)) (Monitor.service Tid (version.monitor T requested))
      Res.failed fun s t => s.data.Alike t.data := by
  have hwf : ∀ {op : RingOp T} {r d : Ring T} {held : Option (Notify Cv)} {later : List (Notify Cv)} {x : Res T}, r.WF →
      (version.monitor T requested).sect op false r = .leave d held later x → d.WF := by
    intro op r d held later x h hx
    have hok := sect_ok version requested op false h
    rw [hx] at hok
    exact hok.1
  apply Service.Erases.erased
  · apply Monitor.erases fun r t => r.WF ∧ t.WF ∧ r.Alike t
    · rw [start_eq]
      exact ⟨Ring.wf_new _, Ring.wf_new _, .refl _⟩
    · rintro op r r' t held later x ⟨hr, ht, h⟩ hx hf
      have hundone := sect_undone version requested op hr
      rw [Res.failed_iff.mp hf] at hx
      rw [hx] at hundone
      exact ⟨hwf hr hx, ht, hundone.trans h⟩
    · rintro op r r' t held later x ⟨hr, ht, h⟩ hx -
      have hagree := sect_agree version requested op h hr ht
      rw [hx] at hagree
      cases hy : (version.monitor T requested).sect op false t with
      | sleep t' v => rw [hy] at hagree; exact hagree.elim
      | leave t' held' later' y =>
        rw [hy] at hagree
        obtain ⟨rfl, hsame⟩ := hagree
        exact ⟨t', held', later', rfl, hwf hr hx, hwf ht hy, hsame⟩
  · rintro s t ⟨r, r', ⟨-, -, h⟩, rfl, rfl⟩
    exact h

end RingVersion

/-! ## The queue of one producer and one consumer -/

namespace Spsc

open SpscBoundedQueue

def own : TryOp T → Bool → Label T
  | .tryPush _, throws => .producer throws
  | .tryPop, throws => .consumer throws

def counts (log : List (Event T)) : List T × List T := (pushed log, popped log)

def effect (c : Nat) (h : List T × List T) : TryOp T → (List T × List T) × Res T
  | .tryPush value => if h.1.length < h.2.length + c then ((h.1 ++ [value], h.2), .pushed true) else (h, .pushed false)
  | .tryPop =>
    match h.1[h.2.length]? with
    | some value => ((h.1, h.2 ++ [value]), .popped (some value))
    | none => (h, .popped none)

theorem effect_failed (c : Nat) (h : List T × List T) (op : TryOp T) : (effect c h op).2.failed = false := by
  cases op with
  | tryPush value =>
    simp only [effect]
    split
    · rfl
    · rfl
  | tryPop =>
    simp only [effect]
    split
    · rfl
    · rfl

variable [Elem T]

def calls (M : Machine (State T) (Label T)) : Service (State T) (TryOp T) (Res T) where
  start := M.start
  answers s op r s' := ∃ (bs : List Bool) (s₁ : State T), M.execFrom s (enters op :: bs.map (own op)) = some s₁ ∧
    stage s₁ (caller op) = .owed r ∧ M.step s₁ (leaves op) = some s'

structure Alike (capacity : BitVec 64) (s t : State T) : Prop where
  head : s.queue.head = t.queue.head
  tail : s.queue.tail = t.queue.tail
  items : slots capacity s.queue = slots capacity t.queue

structure Between (c : Nat) (log : List (Event T)) (s : State T) : Prop where
  recorded : Recorded c s log
  idle : ∀ t, stage s t = .idle

/-- A call that began on the log `before` is not over, or has thrown, or has taken effect. -/
structure Lone (c : Nat) (throwing : Bool) (before : List (Event T)) (op : TryOp T) (log : List (Event T)) (s : State T) :
    Prop where
  recorded : Recorded c s log
  others : ∀ t, t ≠ caller op → stage s t = .idle
  stands : counts log = counts before ∧
      (stage s (caller op) = .called op ∨ stage s (caller op) = .owed .threw ∧ throwing = true) ∨
    ∃ r, stage s (caller op) = .owed r ∧ (counts log, r) = effect c (counts before) op

section
variable {capacity : BitVec 64} {throwing throws : Bool} {s s' t : State T} {log before : List (Event T)} {op : TryOp T}
  {r : Res T} {value : T} (hpow : ∃ j, 0 < j ∧ j < 64 ∧ capacity.toNat = 2 ^ j)

include hpow

theorem push_stands (hR : Recorded capacity.toNat s log) (hstage : stage s .producer = .called (.tryPush value))
    {q : SpscBoundedQueue T} {f : Producer T} (ha : Emplaces capacity s.queue throws s.producer q f) :
    counts (log ++ trace s (.producer throws)) = counts log ∧
        (pushStage f = .called (.tryPush value) ∨ pushStage f = .owed .threw ∧ throws = true) ∨
      ∃ r, pushStage f = .owed r ∧
        (counts (log ++ trace s (.producer throws)), r) = effect capacity.toNat (counts log) (.tryPush value) := by
  obtain ⟨headCache, tailCache, h⟩ := hR
  obtain ⟨queue, producer, consumer⟩ := s
  have h1 := h.head_le
  have h2 := h.cache_le
  have h3 := h.tail_le
  have h4 := h.bound
  have hhead : queue.head = BitVec.ofNat 64 (popped log).length := h.counts.head
  have hok := h.producer
  have same : ∀ {f : Producer T} {b : Bool}, trace ⟨queue, f, consumer⟩ (.producer b) = [] →
      counts (log ++ trace ⟨queue, f, consumer⟩ (.producer b)) = counts log := by
    intro f b hz
    rw [hz, List.append_nil]
  cases ha with
  | @full arg tail hf =>
    refine .inr ⟨_, rfl, ?_⟩
    obtain rfl : tail = BitVec.ofNat 64 (pushed log).length := hok
    simp only [hhead] at hf
    rw [full_iff hpow (by omega) (by omega)] at hf
    rw [same rfl]
    exact (if_neg (Nat.not_lt.mpr (Nat.le_of_eq hf.symm))).symm
  | throws => exact .inl ⟨same rfl, .inr ⟨rfl, rfl⟩⟩
  | @storeTail arg tail =>
    obtain ⟨-, hlt, -⟩ := hok
    cases hstage
    refine .inr ⟨_, rfl, ?_⟩
    have hroom : (pushed log).length < (popped log).length + capacity.toNat := by omega
    refine Eq.trans ?_ (if_pos hroom).symm
    simp only [counts, pushed_append, popped_append]
    rw [show pushed (trace _ _) = [value] from rfl, show popped (trace _ _) = ([] : List T) from rfl, List.append_nil]
  | stale _ | cached _ | room _ | construct =>
    cases hstage
    exact .inl ⟨same rfl, .inl rfl⟩

theorem pop_stands (hR : Recorded capacity.toNat s log) {q : SpscBoundedQueue T} {f : Consumer T}
    (ha : Pops capacity s.queue throws s.consumer q f) :
    counts (log ++ trace s (.consumer throws)) = counts log ∧
        (popStage f = .called .tryPop ∨ popStage f = .owed .threw ∧ throws = true) ∨
      ∃ r, popStage f = .owed r ∧
        (counts (log ++ trace s (.consumer throws)), r) = effect capacity.toNat (counts log) .tryPop := by
  obtain ⟨headCache, tailCache, h⟩ := hR
  obtain ⟨queue, producer, consumer⟩ := s
  obtain ⟨-, hle, hroom⟩ := h.size_eq hpow
  have htail : queue.tail = BitVec.ofNat 64 (pushed log).length := h.counts.tail
  have hok := h.consumer
  have same : ∀ {f : Consumer T} {b : Bool}, trace ⟨queue, producer, f⟩ (.consumer b) = [] →
      counts (log ++ trace ⟨queue, producer, f⟩ (.consumer b)) = counts log := by
    intro f b hz
    rw [hz, List.append_nil]
  cases ha with
  | @empty head he =>
    refine .inr ⟨_, rfl, ?_⟩
    obtain rfl : head = BitVec.ofNat 64 (popped log).length := hok
    simp only [htail] at he
    rw [empty_iff hpow hle hroom] at he
    have hnone : (pushed log)[(popped log).length]? = none := List.getElem?_eq_none (Nat.le_of_eq he)
    rw [same rfl]
    simp only [effect, counts, hnone]
  | throws => exact .inl ⟨same rfl, .inr ⟨rfl, rfl⟩⟩
  | @storeHead head out =>
    refine .inr ⟨_, rfl, ?_⟩
    have hsome : (pushed log)[(popped log).length]? = some out := by
      obtain ⟨rest, hrest⟩ : popped log ++ [out] <+: pushed log := h.order
      rw [← hrest, List.append_assoc, List.getElem?_append_right (Nat.le_refl _), Nat.sub_self]
      rfl
    simp only [effect, counts, hsome, pushed_append, popped_append]
    rw [show pushed (trace _ _) = ([] : List T) from rfl, show popped (trace _ _) = [out] from rfl, List.append_nil]
  | stale _ | cached _ | item _ | moveOut _ | destroy => exact .inl ⟨same rfl, .inl rfl⟩

theorem Lone.step (h : Lone capacity.toNat throwing before op log s)
    (hs : Spsc.step capacity throwing s (own op throws) = some s') :
    Lone capacity.toNat throwing before op (log ++ trace s (own op throws)) s' := by
  have hR := h.recorded.step hpow hs
  have hothers := h.others
  have hstands := h.stands
  have goesOn : ∀ {l : List (Event T)} {g : Stage (TryOp T) (Res T)}, counts log = counts before → (throws = true → throwing = true) →
      (counts l = counts log ∧ (g = .called op ∨ g = .owed .threw ∧ throws = true) ∨
        ∃ r, g = .owed r ∧ (counts l, r) = effect capacity.toNat (counts log) op) →
      counts l = counts before ∧ (g = .called op ∨ g = .owed .threw ∧ throwing = true) ∨
        ∃ r, g = .owed r ∧ (counts l, r) = effect capacity.toNat (counts before) op := by
    rintro l g hb ht (⟨h1, h2⟩ | h2)
    · exact .inl ⟨h1.trans hb, h2.imp_right (And.imp_right ht)⟩
    · rw [hb] at h2
      exact .inr h2
  cases op with
  | tryPush value =>
    cases step_spec hs with
    | @producer _ q f ht ha =>
      refine ⟨hR, fun t hne => ?_, ?_⟩
      · cases t with
        | producer => exact absurd rfl hne
        | consumer => exact hothers .consumer hne
      · -- a call that has its answer makes no more steps
        have hcalled : counts log = counts before ∧ stage s .producer = .called (.tryPush value) := by
          rcases hstands with ⟨h1, h2 | ⟨h2, -⟩⟩ | ⟨r, h2, -⟩
          · exact ⟨h1, h2⟩
          · have h2 : pushStage s.producer = .owed .threw := h2
            generalize s.producer = g at h2 ha
            cases ha <;> cases h2
          · have h2 : pushStage s.producer = .owed r := h2
            generalize s.producer = g at h2 ha
            cases ha <;> cases h2
        exact goesOn hcalled.1 ht (push_stands hpow h.recorded hcalled.2 ha)
  | tryPop =>
    cases step_spec hs with
    | @consumer _ q f ht ha =>
      refine ⟨hR, fun t hne => ?_, ?_⟩
      · cases t with
        | producer => exact hothers .producer hne
        | consumer => exact absurd rfl hne
      · have hcalled : counts log = counts before := by
          rcases hstands with ⟨h1, -⟩ | ⟨r, h2, -⟩
          · exact h1
          · have h2 : popStage s.consumer = .owed r := h2
            generalize s.consumer = g at h2 ha
            cases ha <;> cases h2
        exact goesOn hcalled ht (pop_stands hpow h.recorded ha)

theorem Between.enter (h : Between capacity.toNat log s) (hs : Spsc.step capacity throwing s (enters op) = some s') :
    Lone capacity.toNat throwing log op (log ++ trace s (enters op)) s' := by
  have hR := h.recorded.step hpow hs
  have hidle := h.idle
  cases op with
  | tryPush value =>
    cases step_spec hs with
    | emplace _ =>
      refine ⟨hR, fun t hne => ?_, .inl ⟨congrArg counts (List.append_nil log), .inl rfl⟩⟩
      cases t with
      | producer => exact absurd rfl hne
      | consumer => exact hidle .consumer
  | tryPop =>
    cases step_spec hs with
    | tryPop _ =>
      refine ⟨hR, fun t hne => ?_, .inl ⟨congrArg counts (List.append_nil log), .inl rfl⟩⟩
      cases t with
      | producer => exact hidle .producer
      | consumer => exact absurd rfl hne

theorem Lone.leave (h : Lone capacity.toNat throwing before op log s) (hr : stage s (caller op) = .owed r)
    (hs : Spsc.step capacity throwing s (leaves op) = some s') :
    Between capacity.toNat (log ++ trace s (leaves op)) s' ∧ counts (log ++ trace s (leaves op)) = counts log ∧
      (counts log = counts before ∧ r = .threw ∧ throwing = true ∨ (counts log, r) = effect capacity.toNat (counts before) op) := by
  have hR := h.recorded.step hpow hs
  have hothers := h.others
  have hstands : counts log = counts before ∧ r = .threw ∧ throwing = true ∨
      (counts log, r) = effect capacity.toNat (counts before) op := by
    rcases h.stands with ⟨h1, h2 | ⟨h2, h3⟩⟩ | ⟨r', h2, h3⟩
    · cases h2.symm.trans hr
    · cases h2.symm.trans hr
      exact .inl ⟨h1, rfl, h3⟩
    · cases h2.symm.trans hr
      exact .inr h3
  have htrace : trace s (leaves op) = [] := by cases op <;> rfl
  rw [htrace, List.append_nil] at hR ⊢
  refine ⟨⟨hR, fun t => ?_⟩, rfl, hstands⟩
  cases op with
  | tryPush value =>
    cases step_spec hs with
    | pushed _ =>
      cases t with
      | producer => rfl
      | consumer => exact hothers .consumer nofun
  | tryPop =>
    cases step_spec hs with
    | popped _ =>
      cases t with
      | producer => exact hothers .producer nofun
      | consumer => rfl

theorem Lone.exec {bs : List Bool} (h : Lone capacity.toNat throwing before op log s)
    (he : (machine T capacity throwing).execFrom s (bs.map (own op)) = some s') :
    ∃ log', Lone capacity.toNat throwing before op log' s' := by
  induction bs generalizing s log with
  | nil =>
    cases he
    exact ⟨log, h⟩
  | cons b bs ih =>
    obtain ⟨s₁, hs, hr⟩ := Machine.execFrom_cons_some he
    exact ih (h.step hpow hs) hr

theorem Between.answers (h : Between capacity.toNat log s) (ha : (calls (machine T capacity throwing)).answers s op r s') : ∃ log',
    Between capacity.toNat log' s' ∧ (counts log' = counts log ∧ r = .threw ∧ throwing = true ∨
      (counts log', r) = effect capacity.toNat (counts log) op) := by
  obtain ⟨bs, s₁, he, hr, hl⟩ := ha
  obtain ⟨s₀, hs, he⟩ := Machine.execFrom_cons_some he
  obtain ⟨log', hlone⟩ := (h.enter hpow hs).exec hpow he
  obtain ⟨h1, h2, h3⟩ := hlone.leave hpow hr hl
  rw [← h2] at h3
  exact ⟨_, h1, h3⟩

theorem Between.total (h : Between capacity.toNat log s) (op : TryOp T) :
    ∃ r s', (calls (machine T capacity false)).answers s op r s' := by
  obtain ⟨s₀, hs⟩ := enters_idle capacity h.idle op
  have hown : own op false = moves op := by cases op <;> rfl
  obtain ⟨n, s₁, r, he, hr⟩ := finish_of (I := fun s => ∃ log', Lone capacity.toNat false log op log' s)
    (fun s s' h hs => by
      obtain ⟨log', h⟩ := h
      rw [← hown] at hs
      exact ⟨_, h.step hpow hs⟩)
    (fun s h => by
      obtain ⟨log', h⟩ := h
      rcases h.stands with ⟨-, h2 | ⟨h2, -⟩⟩ | ⟨r, h2, -⟩
      · exact .inl ⟨op, h2⟩
      · exact .inr ⟨_, h2⟩
      · exact .inr ⟨r, h2⟩)
    ⟨_, h.enter hpow hs⟩
  obtain ⟨s', hl⟩ := leaves_owed capacity hr
  refine ⟨r, s', List.replicate n false, s₁, ?_, hr, hl⟩
  rw [List.map_replicate, hown, Machine.execFrom_cons hs]
  exact he

omit [Elem T] in
theorem Between.alike {log' : List (Event T)} (h : Between capacity.toNat log s) (h' : Between capacity.toNat log' t)
    (he : counts log = counts log') : Alike capacity s t := by
  obtain ⟨hpushed, hpopped⟩ := Prod.mk.inj he
  have still : ∀ {log : List (Event T)} {s : State T}, Between capacity.toNat log s →
      s.queue.head = BitVec.ofNat 64 (popped log).length ∧ s.queue.tail = BitVec.ofNat 64 (pushed log).length ∧
        slots capacity s.queue = ((pushed log).drop (popped log).length).map some := by
    intro log s h
    obtain ⟨headCache, tailCache, hI⟩ := h.recorded
    have hslots := hI.slots_eq hpow
    have hidle : inHand s.consumer = [] := by
      have hc : popStage s.consumer = .idle := h.idle .consumer
      generalize s.consumer = f at hc ⊢
      cases f with
      | idle => rfl
      | _ => cases hc
    rw [hidle, List.append_nil] at hslots
    exact ⟨hI.counts.head, hI.counts.tail, hslots⟩
  obtain ⟨h1, h2, h3⟩ := still h
  obtain ⟨g1, g2, g3⟩ := still h'
  rw [← hpopped] at g1
  rw [← hpushed] at g2
  rw [← hpushed, ← hpopped] at g3
  exact ⟨h1.trans g1.symm, h2.trans g2.symm, h3.trans g3.symm⟩

theorem erased : Service.Erased (calls (machine T capacity true)) (calls (machine T capacity false)) Res.failed
    (Alike capacity) := by
  have thrown : ∀ {log log' : List (Event T)} {op : TryOp T} {r : Res T}, r.failed = true →
      (counts log', r) = effect capacity.toNat (counts log) op → False := by
    intro log log' op r hf he
    have hr := congrArg (Res.failed ∘ Prod.snd) he
    rw [Function.comp_apply, Function.comp_apply, effect_failed, hf] at hr
    cases hr
  let Sim : State T → State T → Prop := fun s t => ∃ log log', counts log = counts log' ∧ Between capacity.toNat log s ∧
    Between capacity.toNat log' t
  have herases : Service.Erases (calls (machine T capacity true)) (calls (machine T capacity false)) Res.failed Sim := by
    constructor
    · have hr : ((machine T capacity true).logged trace).Reachable ((machine T capacity true).start, []) := .start
      have hstart : Between capacity.toNat [] (machine T capacity true).start :=
        ⟨recorded_reachable hpow hr, fun t => by cases t <;> rfl⟩
      exact ⟨[], [], rfl, hstart, hstart⟩
    · rintro s s' t op r ⟨log, log', he, hs, ht⟩ ha hf
      obtain ⟨log₁, hs', ⟨h1, -⟩ | h1⟩ := hs.answers hpow ha
      · exact ⟨log₁, log', h1.trans he, hs', ht⟩
      · exact (thrown hf h1).elim
    · rintro s s' t op r ⟨log, log', he, hs, ht⟩ ha hf
      exact ht.total hpow op
    · rintro s s' t t' op r r' ⟨log, log', he, hs, ht⟩ ha hf ha'
      obtain ⟨log₁, hs', ⟨-, rfl, -⟩ | h1⟩ := hs.answers hpow ha
      · cases hf
      · obtain ⟨log₂, ht', ⟨-, -, hno⟩ | h2⟩ := ht.answers hpow ha'
        · cases hno
        · rw [← he, ← h1] at h2
          obtain ⟨h3, h4⟩ := Prod.mk.inj h2
          exact ⟨h4, log₁, log₂, h3.symm, hs', ht'⟩
  apply herases.erased
  rintro s t ⟨log, log', he, hs, ht⟩
  exact hs.alike hpow ht he

end

end Spsc

/-! ## All of them -/

variable {Tid : Type} [DecidableEq Tid] [Fintype Tid]

/-- The throwing calls of any threads can be cut out of a sequence of calls to a monitor. -/
def ErasesThrows {D Op : Type} (Tid : Type) [DecidableEq Tid] [Fintype Tid] (M : Monitor D Op Cv (Res T))
    (Alike : D → D → Prop) : Prop :=
  Service.Erased (Monitor.service Tid M) (Monitor.service Tid M) Res.failed fun s t => Alike s.data t.data

/-- **Throwing calls can be erased.** In the deque queues, the rings and the
queue of one producer and one consumer the calls that do not throw are answered
as in the sequence without those that do, and the queues end up alike. -/
theorem throwing_calls_erased [Elem T] :
    (ErasesThrows Tid (MutexBlockingQueue.monitor (T := T)) Eq ∧
      ErasesThrows Tid (MutexDequeQueueV1.monitor (T := T)) Eq ∧
      ErasesThrows Tid (MutexDequeQueueV2.monitor (T := T)) Eq ∧
      ErasesThrows Tid (MutexDequeQueueV3.monitor (T := T)) Eq ∧
      ErasesThrows Tid (MutexDequeMpmcQueueV1.monitor (T := T)) Eq ∧
      ErasesThrows Tid (MutexDequeMpmcQueueV2.monitor (T := T)) Eq ∧
      ErasesThrows Tid (MutexDequeMpmcQueueV3.monitor (T := T)) Eq) ∧
    (∀ (version : RingVersion) (capacity : Nat), ErasesThrows Tid (version.monitor T capacity) Ring.Alike) ∧
    ∀ (fuel : Nat) (requested capacity : BitVec 64), normalizeCapacity fuel requested = some capacity →
      Service.Erased (Spsc.calls (Spsc.machine T capacity true)) (Spsc.calls (Spsc.machine T capacity false)) Res.failed
        (Spsc.Alike capacity) := by
  refine ⟨⟨?_, ?_, ?_, ?_, ?_, ?_, ?_⟩, fun version capacity => version.erased capacity, fun fuel requested capacity hcap => ?_⟩
  · exact deque_erased MutexBlockingQueue.emplace_eq waitPop_once
  · exact deque_erased MutexDequeQueueV1.emplace_eq waitPop_once
  · exact deque_erased MutexDequeQueueV2.emplace_eq waitPop_once
  · exact deque_erased MutexDequeQueueV3.emplace_eq waitPopCounting_once
  · exact deque_erased MutexDequeMpmcQueueV1.emplace_eq waitPop_once
  · exact deque_erased MutexDequeMpmcQueueV2.emplace_eq waitPop_once
  · exact deque_erased MutexDequeMpmcQueueV3.emplace_eq waitPopCounting_once
  · exact Spsc.erased (normalizeCapacity_spec (by decide) hcap)

theorem throwing_calls_erased_two :
    normalizeCapacity 3 2#64 = some 2#64 ∧
    Service.Erased (Spsc.calls (Spsc.machine Nat 2#64 true)) (Spsc.calls (Spsc.machine Nat 2#64 false)) Res.failed
      (Spsc.Alike 2#64) := by
  have hcap : normalizeCapacity 3 2#64 = some 2#64 := by decide
  exact ⟨hcap, (@throwing_calls_erased Nat Unit _ _ _).2.2 3 2#64 2#64 hcap⟩

end Yutil
