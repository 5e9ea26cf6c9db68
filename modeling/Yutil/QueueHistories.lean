import Yutil.Linearizable
import Yutil.Closing
import Yutil.RingSpec
import Yutil.SpscCaches

/-!
# The histories of the FIFO queues

The blocking queues and `SpscBoundedQueue` are linearizable: whatever their
threads do, what they call and get back is what a FIFO with the `closed` flag
gives to the same calls made one after the other.
-/

namespace Yutil

open Interleave Monitor

variable {T : Type}

def Fifo.Gives (capacity : Nat) (f : Fifo T) (op : RingOp T) (r : Res T) (g : Fifo T) : Prop :=
  f.call capacity op = some (g, r)

/-- The monitor is linearizable to an object with the operations `allows`. -/
def LinearizesTo {D Op : Type} (M : Monitor D Op Cv (Res T)) (allows : Fifo T → Op → Res T → Fifo T → Prop) : Prop :=
  ∀ (Tid : Type) [DecidableEq Tid] [Fintype Tid] (calls : Tid → Op → Bool) (s : State Tid D Op Cv (Res T))
    (log : List (Tid × Moment Op (Op × Res T) (Res T))), (M.observed calls).Reachable (s, log) →
    Linearizable allows Fifo.empty (visible log)

/-! ## The deque queues -/

def DequeOp.toRing : DequeOp T → RingOp T
  | .emplace b => .emplace b
  | .waitPop assigns => .waitPop assigns
  | .tryPop assigns => .tryPop assigns
  | .close => .close

def Fifo.GivesUnbounded (f : Fifo T) (op : DequeOp T) (r : Res T) (g : Fifo T) : Prop :=
  f.Gives (f.items.length + 1) op.toRing r g

section
variable {emplace : Built T → Deque T → Exit (Deque T) Cv (Res T)}
  {waitPop : Bool → Bool → Deque T → Exit (Deque T) Cv (Res T)} {shouldNotify : Deque T → Bool}

theorem popFront_gives {d d' : Deque T} {a : Bool} {held : Option (Notify Cv)} {later : List (Notify Cv)} {r : Res T}
    (h : d.popFront a = .leave d' held later r) : d.abs.pop a = (d'.abs, r) := by
  unfold Deque.popFront at h
  unfold Fifo.pop
  obtain ⟨q, c, n⟩ := d
  cases q with
  | nil =>
    cases h
    rfl
  | cons v rest => cases a <;> cases h <;> rfl

theorem emplaceWith_gives {d d' : Deque T} {n : Bool} {b : Built T} {held : Option (Notify Cv)} {later : List (Notify Cv)}
    {r : Res T} (h : d.emplaceWith n b = .leave d' held later r) : d.abs.GivesUnbounded (.emplace b) r d'.abs := by
  unfold Deque.emplaceWith at h
  obtain ⟨q, c, n⟩ := d
  cases c with
  | true =>
    cases h
    rfl
  | false =>
    cases b <;> cases h <;>
      simp [Fifo.GivesUnbounded, Fifo.Gives, Fifo.call, Fifo.push, DequeOp.toRing, Deque.abs]

/-- A `wait_pop` that leaves finds an item or a closed queue. -/
theorem waitPop_gives (hw : WaitsOpen waitPop) (hok : ∀ a w (d : Deque T), d.Ok (.waitPop a) (waitPop a w d)) {a w : Bool}
    {d d' : Deque T} {held : Option (Notify Cv)} {later : List (Notify Cv)} {r : Res T}
    (h : waitPop a w d = .leave d' held later r) : d.abs.GivesUnbounded (.waitPop a) r d'.abs := by
  have hdoes := hok a w d
  rw [h] at hdoes
  rcases hw a w d with ⟨d₁, h1, -⟩ | ⟨d₁, hq, hc, h1⟩
  · cases h1.symm.trans h
  · have habs : d₁.abs = d.abs := by rw [Deque.abs, Deque.abs, hq, hc]
    have hpop := popFront_gives (h1.symm.trans h)
    rw [habs] at hpop
    have hopen : (!d.abs.closed && d.abs.items.isEmpty) = false := by
      by_contra hwait
      simp only [Bool.not_eq_false, Bool.and_eq_true, Bool.not_eq_true', List.isEmpty_iff] at hwait
      rw [Fifo.pop, hwait.2] at hpop
      obtain rfl : Res.popped none = r := congrArg Prod.snd hpop
      have hdoes : d.abs.Does unbounded .finish d'.abs := hdoes
      generalize d.abs = f at hwait hdoes
      generalize d'.abs = g at hdoes
      cases hdoes
      cases hwait.1
    show (if !d.abs.closed && d.abs.items.isEmpty then none else some (d.abs.pop a)) = _
    rw [hopen, hpop]
    rfl

theorem deque_leave_gives (he : ∀ b d, emplace b d = d.emplaceWith (shouldNotify d) b) (hw : WaitsOpen waitPop)
    (hok : ∀ a w (d : Deque T), d.Ok (.waitPop a) (waitPop a w d)) {op : DequeOp T} {w : Bool} {d d' : Deque T}
    {held : Option (Notify Cv)} {later : List (Notify Cv)} {r : Res T}
    (hx : (Deque.monitor emplace waitPop).sect op w d = .leave d' held later r) : d.abs.GivesUnbounded op r d'.abs := by
  cases op with
  | emplace b => exact emplaceWith_gives ((he b d).symm.trans hx)
  | waitPop a => exact waitPop_gives hw hok hx
  | tryPop a => exact congrArg some (popFront_gives hx)
  | close =>
    cases hx
    rfl

theorem deque_sleep_keeps (he : ∀ b d, emplace b d = d.emplaceWith (shouldNotify d) b)
    (hok : ∀ a w (d : Deque T), d.Ok (.waitPop a) (waitPop a w d)) {op : DequeOp T} {w : Bool} {d d' : Deque T} {c : Cv}
    (hx : (Deque.monitor emplace waitPop).sect op w d = .sleep d' c) : d'.abs = d.abs := by
  have hemplace : ∀ b (d : Deque T), d.Ok (.emplace b) (emplace b d) := fun b d => by
    rw [he]
    exact emplaceWith_ok _ b d
  exact ((deque_refines hemplace hok).sleep trivial hx).2

theorem deque_linearizes (he : ∀ b d, emplace b d = d.emplaceWith (shouldNotify d) b) (hw : WaitsOpen waitPop)
    (hok : ∀ a w (d : Deque T), d.Ok (.waitPop a) (waitPop a w d)) :
    LinearizesTo (Deque.monitor emplace waitPop) Fifo.GivesUnbounded := by
  intro Tid _ _ calls s log hr
  refine Monitor.linearizable (I := fun _ => True) (f := Deque.abs) trivial ?_ ?_ hr
  · intro op w d d' c _ hx
    exact ⟨trivial, deque_sleep_keeps he hok hx⟩
  · intro op w d d' held later r _ hx
    exact ⟨trivial, deque_leave_gives he hw hok hx⟩

theorem deque_linearizes_waitPop (he : ∀ b d, emplace b d = d.emplaceWith (shouldNotify d) b) :
    LinearizesTo (Deque.monitor emplace Deque.waitPop) Fifo.GivesUnbounded :=
  deque_linearizes he waitPop_open waitPop_ok

theorem deque_linearizes_waitPopCounting (he : ∀ b d, emplace b d = d.emplaceWith (shouldNotify d) b) :
    LinearizesTo (Deque.monitor emplace Deque.waitPopCounting) Fifo.GivesUnbounded :=
  deque_linearizes he waitPopCounting_open waitPopCounting_ok

end

/-! ## The rings -/

section
variable [Elem T]

theorem ring_linearizes (version : RingVersion) (requested : Nat) :
    LinearizesTo (version.monitor T requested) (Fifo.Gives (Ring.new (T := T) requested).capacity) := by
  intro Tid _ _ calls s log hr
  have hstart : (version.monitor T requested).start.abs = Fifo.empty := by rw [RingVersion.start_eq, abs_new]
  rw [← hstart]
  refine Monitor.linearizable (I := fun r => r.WF ∧ r.capacity = (Ring.new (T := T) requested).capacity) (f := Ring.abs)
    ?_ ?_ ?_ hr
  · rw [RingVersion.start_eq]
    exact ⟨Ring.wf_new requested, rfl⟩
  · intro op w d d' v hI hx
    have hok := RingVersion.sect_ok version requested op w hI.1
    rw [hx] at hok
    exact ⟨⟨hok.1, hok.2.2.trans hI.2⟩, hok.2.1⟩
  · intro op w d d' held later r hI hx
    have hok := RingVersion.sect_ok version requested op w hI.1
    have hanswer := RingVersion.answers version requested op w hI.1
    rw [hx] at hok hanswer
    refine ⟨⟨hok.1, hok.2.2.trans hI.2⟩, ?_⟩
    rw [Fifo.Gives, ← hI.2, ← hanswer]
    rfl

/-- **The blocking queues are linearizable**, to a FIFO without bound or with the capacity of the ring. -/
theorem blocking_queues_linearizable (requested : Nat) :
    LinearizesTo (MutexBlockingQueue.monitor (T := T)) Fifo.GivesUnbounded ∧
    LinearizesTo (MutexDequeQueueV1.monitor (T := T)) Fifo.GivesUnbounded ∧
    LinearizesTo (MutexDequeQueueV2.monitor (T := T)) Fifo.GivesUnbounded ∧
    LinearizesTo (MutexDequeQueueV3.monitor (T := T)) Fifo.GivesUnbounded ∧
    LinearizesTo (MutexDequeMpmcQueueV1.monitor (T := T)) Fifo.GivesUnbounded ∧
    LinearizesTo (MutexDequeMpmcQueueV2.monitor (T := T)) Fifo.GivesUnbounded ∧
    LinearizesTo (MutexDequeMpmcQueueV3.monitor (T := T)) Fifo.GivesUnbounded ∧
    ∀ version : RingVersion, LinearizesTo (version.monitor T requested) (Fifo.Gives (Ring.new (T := T) requested).capacity) :=
  ⟨deque_linearizes_waitPop MutexBlockingQueue.emplace_eq, deque_linearizes_waitPop MutexDequeQueueV1.emplace_eq,
    deque_linearizes_waitPop MutexDequeQueueV2.emplace_eq, deque_linearizes_waitPopCounting MutexDequeQueueV3.emplace_eq,
    deque_linearizes_waitPop MutexDequeMpmcQueueV1.emplace_eq, deque_linearizes_waitPop MutexDequeMpmcQueueV2.emplace_eq,
    deque_linearizes_waitPopCounting MutexDequeMpmcQueueV3.emplace_eq, fun version => ring_linearizes version requested⟩

end

/-! ## The queue of one producer and one consumer -/

section

def TryOp.toRing : TryOp T → RingOp T
  | .tryPush value => .tryEmplace (.value value)
  | .tryPop => .tryPop true

def Fifo.GivesOrThrows (capacity : Nat) (f : Fifo T) (op : TryOp T) (r : Res T) (g : Fifo T) : Prop :=
  f.Gives capacity op.toRing r g ∨ r = .threw ∧ g = f

theorem answers_give {capacity : Nat} {f g : Fifo T} {op : TryOp T} {e : Event T} {r : Res T} (ha : Spsc.Answers op e r)
    (hd : f.Does (· < capacity) e g) : f.GivesOrThrows capacity op r g := by
  cases ha with
  | accept =>
    cases hd with
    | accept hroom =>
      refine .inl ?_
      have hfull : decide (capacity ≤ _) = false := decide_eq_false (Nat.not_le.mpr hroom)
      simp [Fifo.Gives, Fifo.call, Fifo.push, TryOp.toRing, hfull]
  | refuse =>
    cases hd with
    | refuse hrefuse =>
      refine .inl (if_pos ?_)
      rcases hrefuse with hc | hfull
      · rw [hc]
        rfl
      · rw [decide_eq_true (Nat.not_lt.mp hfull), Bool.or_true]
  | take => cases hd with | take => exact .inl rfl
  | miss => cases hd with | miss => exact .inl rfl
  | pushFails | popFails => cases hd with | fail => exact .inr ⟨rfl, rfl⟩

theorem serial_of_path {Tid : Type} {capacity : Nat} {f g : Fifo T} {es : List (Tid × Event T)} {s : List (Tid × TryOp T × Res T)}
    (h : f.Path (· < capacity) es g) (hs : List.Forall₂ (Effected Spsc.Answers) s es) :
    Serial (Fifo.GivesOrThrows capacity) f s g := by
  induction h generalizing s with
  | nil =>
    cases hs
    exact .nil
  | cons hd _ ih =>
    cases hs with
    | cons hx hs => exact .cons (answers_give hx.2 hd) (ih hs)

variable [Elem T] {fuel : Nat} {requested capacity : BitVec 64}

/-- **`SpscBoundedQueue` is linearizable**, its refusals and misses included. -/
theorem spsc_linearizable (hcap : normalizeCapacity fuel requested = some capacity) (throwing : Bool) {s : Spsc.State T}
    {log : List (Spsc.Party × Moment (TryOp T) (Event T) (Res T))}
    (hr : ((Spsc.machine T capacity throwing).logged (Spsc.moments capacity)).Reachable (s, log)) :
    Linearizable (Fifo.GivesOrThrows capacity.toNat) Fifo.empty (visible log) := by
  have hplayed := Spsc.played_reachable (normalizeCapacity_spec (by decide) hcap) hr
  have hl : Linearized Spsc.Answers (fun es => Fifo.empty.Path (· < capacity.toNat) es (Spsc.contents log)) log := by
    refine ⟨fun t => ⟨Spsc.stage s t, ?_⟩, hplayed.2⟩
    exact advances_reachable Spsc.stage (fun t => by cases t <;> rfl) (fun _ _ _ t hs => Spsc.stage_step hs t) hr t
  exact hl.linearizable fun es hpath hes => ⟨_, serial_of_path hpath hes⟩

theorem spsc_linearizable_three : ∃ x, ((Spsc.machine Nat 2#64 false).logged (Spsc.moments 2#64)).exec fillAndPop = some x ∧
    Linearizable (Fifo.GivesOrThrows (2#64).toNat) Fifo.empty (visible x.2) := by
  have hrun : (((Spsc.machine Nat 2#64 false).logged (Spsc.moments 2#64)).exec fillAndPop).isSome := by decide
  obtain ⟨x, hx⟩ := Option.isSome_iff_exists.mp hrun
  have hcap : normalizeCapacity 3 2#64 = some 2#64 := by decide
  exact ⟨x, hx, spsc_linearizable hcap false (Machine.exec_reachable _ hx)⟩

end

end Yutil
