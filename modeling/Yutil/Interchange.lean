import Yutil.SpscCaches
import Yutil.AtomicSequential
import Yutil.RingSpec

/-!
# The bounded queues are interchangeable

With one call at a time the queue of one producer and one consumer, the atomic
queues and the rings of the same capacity all answer as one bounded FIFO.
-/

namespace Yutil

open Interleave SpscBoundedQueue

variable {T : Type}

/-! ## The queue of one producer and one consumer -/

namespace Spsc

def caller : TryOp T → Party
  | .tryPush _ => .producer
  | .tryPop => .consumer

def enters : TryOp T → Label T
  | .tryPush value => .emplace value
  | .tryPop => .tryPop

def moves : TryOp T → Label T
  | .tryPush _ => .producer false
  | .tryPop => .consumer false

def leaves : TryOp T → Label T
  | .tryPush _ => .pushed
  | .tryPop => .popped

def remaining (s : State T) : TryOp T → Nat
  | .tryPush _ =>
    match s.producer with
    | .loadTail _ => 4
    | .loadHead _ _ => 3
    | .construct _ _ => 2
    | .storeTail _ _ => 1
    | _ => 0
  | .tryPop =>
    match s.consumer with
    | .loadHead => 5
    | .loadTail _ => 4
    | .moveOut _ => 3
    | .destroy _ _ => 2
    | .storeHead _ _ => 1
    | _ => 0

variable [Elem T]

def service (Tid : Type) (M : Machine (State T) (Label T)) : Service (State T) (Tid × TryOp T) (Res T) where
  start := M.start
  answers s call r s' := ∃ n s₁, M.execFrom s (enters call.2 :: List.replicate n (moves call.2)) = some s₁ ∧
    stage s₁ (caller call.2) = .owed r ∧ M.step s₁ (leaves call.2) = some s'

def AtRest (capacity : BitVec 64) (s : State T) (xs : List T) : Prop :=
  ∃ log, ((machine T capacity false).logged (moments capacity)).Reachable (s, log) ∧
    contents log = ⟨xs, false⟩ ∧ ∀ t, stage s t = .idle

/-- The call that began on the values `xs` has not taken effect, or has and will be answered. -/
def During (capacity : BitVec 64) (xs : List T) (op : TryOp T) (s : State T) : Prop :=
  ∃ log, ((machine T capacity false).logged (moments capacity)).Reachable (s, log) ∧
    (∀ t, t ≠ caller op → stage s t = .idle) ∧
    (stage s (caller op) = .called op ∧ contents log = ⟨xs, false⟩ ∨
      stage s (caller op) = .owed (op.run capacity.toNat xs).2 ∧ contents log = ⟨(op.run capacity.toNat xs).1, false⟩)

omit [Elem T] in
theorem run_of_does {c : Nat} {xs : List T} {f : Fifo T} {op : TryOp T} {e : Event T} {r : Res T}
    (hd : Fifo.Does (· < c) ⟨xs, false⟩ e f) (ha : Answers op e r) (hne : e ≠ .fail) :
    r = (op.run c xs).2 ∧ f = ⟨(op.run c xs).1, false⟩ := by
  cases ha with
  | accept =>
    cases hd with
    | accept hroom =>
      simp only [TryOp.run, if_pos hroom]
      exact ⟨trivial, trivial⟩
  | refuse =>
    cases hd with
    | refuse hfull =>
      rcases hfull with hcl | hfull
      · cases hcl
      · simp only [TryOp.run, if_neg hfull]
        exact ⟨trivial, trivial⟩
  | take => cases hd; exact ⟨rfl, rfl⟩
  | miss => cases hd; exact ⟨rfl, rfl⟩
  | pushFails => exact absurd rfl hne
  | popFails => exact absurd rfl hne

omit [Elem T] in
/-- A step of a call has at most one effect, and does not fail. -/
theorem moments_moves (capacity : BitVec 64) (s : State T) (op : TryOp T) : ∃ e : Option (Event T), e ≠ some .fail ∧
    moments capacity s (moves op) = (e.map fun e => (caller op, .effect e)).toList := by
  cases op with
  | tryPush value =>
    refine ⟨pushEffect capacity s.queue false s.producer, ?_, rfl⟩
    cases s.producer with
    | loadHead arg tail =>
      simp only [pushEffect]
      split <;> simp
    | _ => simp [pushEffect]
  | tryPop =>
    refine ⟨popEffect s.queue false s.consumer, ?_, rfl⟩
    cases s.consumer with
    | loadTail head =>
      simp only [popEffect]
      split <;> simp
    | _ => simp [popEffect]

section
variable {capacity : BitVec 64} {s s' : State T} {xs : List T} {op : TryOp T}
  (hpow : ∃ j, 0 < j ∧ j < 64 ∧ capacity.toNat = 2 ^ j)

include hpow

theorem During.step (h : During capacity xs op s) (hs : Spsc.step capacity false s (moves op) = some s') :
    During capacity xs op s' := by
  obtain ⟨log, hr, hothers, hcaller⟩ := h
  obtain ⟨e, hne, he⟩ := moments_moves capacity s op
  have hpath := (played_reachable hpow hr).1.path hpow hs
  have hstage := stage_step hs
  refine ⟨log ++ moments capacity s (moves op), hr.step (Machine.logged_step.mpr ⟨hs, rfl⟩), fun t ht => ?_, ?_⟩
  · have hadv := hstage t
    rw [he, momentsOf_tagged, if_neg (Ne.symm ht), hothers t ht] at hadv
    generalize stage s' t = g at hadv
    cases hadv
    rfl
  · have hadv := hstage (caller op)
    rw [he, momentsOf_tagged, if_pos rfl] at hadv
    generalize contents (log ++ moments capacity s (moves op)) = f at hpath ⊢
    rw [he, effects_tagged] at hpath
    rcases hadv.one with ⟨rfl, hk⟩ | ⟨x, op', r, rfl, hg, ha, hk⟩
    · cases hpath
      rw [hk]
      exact hcaller
    · rcases hcaller with ⟨h1, h2⟩ | ⟨h1, h2⟩
      · rw [h1] at hg
        cases hg
        rw [h2] at hpath
        cases hpath with
        | cons hd hnil =>
          cases hnil
          obtain ⟨h3, h4⟩ := run_of_does hd ha fun hx => hne (congrArg some hx)
          exact .inr ⟨by rw [hk, h3], h4⟩
      · rw [h1] at hg
        cases hg

theorem AtRest.enter (h : AtRest capacity s xs) (hs : Spsc.step capacity false s (enters op) = some s') :
    During capacity xs op s' := by
  obtain ⟨log, hr, hcontents, hidle⟩ := h
  have hstage := stage_step hs
  have hmoments : moments capacity s (enters op) = [(caller op, .call op)] := by cases op <;> rfl
  have hpath := (played_reachable hpow hr).1.path hpow hs
  refine ⟨log ++ moments capacity s (enters op), hr.step (Machine.logged_step.mpr ⟨hs, rfl⟩), fun t ht => ?_, .inl ⟨?_, ?_⟩⟩
  · have hadv := hstage t
    rw [hmoments, hidle t, momentsOf_ne ht] at hadv
    generalize stage s' t = g at hadv
    cases hadv
    rfl
  · have hadv := hstage (caller op)
    rw [hmoments, hidle (caller op), momentsOf_self] at hadv
    generalize stage s' (caller op) = g at hadv
    cases hadv with
    | call hadv => cases hadv; rfl
  · generalize contents (log ++ moments capacity s (enters op)) = f at hpath ⊢
    rw [hmoments, hcontents] at hpath
    cases hpath
    rfl

theorem During.leave {r : Res T} (h : During capacity xs op s) (hr : stage s (caller op) = .owed r)
    (hs : Spsc.step capacity false s (leaves op) = some s') :
    r = (op.run capacity.toNat xs).2 ∧ AtRest capacity s' (op.run capacity.toNat xs).1 := by
  obtain ⟨log, hreach, hothers, hcaller⟩ := h
  rcases hcaller with ⟨h1, -⟩ | ⟨h1, h2⟩
  · rw [h1] at hr
    cases hr
  · rw [h1] at hr
    cases hr
    have hstage := stage_step hs
    have hmoments : moments capacity s (leaves op) = [(caller op, .reply (op.run capacity.toNat xs).2)] := by
      cases op with
      | tryPush value =>
        obtain ⟨q, p, d⟩ := s
        cases p with
        | done ok arg => rw [← Stage.owed.inj h1]; rfl
        | threw => rw [← Stage.owed.inj h1]; rfl
        | _ => cases h1
      | tryPop =>
        obtain ⟨q, p, d⟩ := s
        cases d with
        | done out => rw [← Stage.owed.inj h1]; rfl
        | threw => rw [← Stage.owed.inj h1]; rfl
        | _ => cases h1
    have hpath := (played_reachable hpow hreach).1.path hpow hs
    refine ⟨rfl, log ++ moments capacity s (leaves op), hreach.step (Machine.logged_step.mpr ⟨hs, rfl⟩), ?_, fun t => ?_⟩
    · generalize contents (log ++ moments capacity s (leaves op)) = f at hpath ⊢
      rw [hmoments, h2] at hpath
      cases hpath
      rfl
    · have hadv := hstage t
      by_cases ht : t = caller op
      · subst ht
        rw [hmoments, h1, momentsOf_self] at hadv
        generalize stage s' (caller op) = g at hadv
        cases hadv with
        | reply hadv => cases hadv; rfl
      · rw [hmoments, hothers t ht, momentsOf_ne ht] at hadv
        generalize stage s' t = g at hadv
        cases hadv
        rfl

omit hpow in
theorem moves_once (capacity : BitVec 64) {op' : TryOp T} (h : stage s (caller op) = .called op') :
    ∃ s', Spsc.step capacity false s (moves op) = some s' ∧ remaining s' op < remaining s op := by
  obtain ⟨q, p, d⟩ := s
  cases op with
  | tryPush value =>
    simp only [Spsc.step, moves, Bool.false_eq_true, false_and, if_false]
    cases p with
    | loadTail arg =>
      simp only [emplace]
      split
      · exact ⟨_, rfl, by simp [remaining]⟩
      · exact ⟨_, rfl, by simp [remaining]⟩
    | loadHead arg tail =>
      simp only [emplace]
      split
      · exact ⟨_, rfl, by simp [remaining]⟩
      · exact ⟨_, rfl, by simp [remaining]⟩
    | construct arg tail => exact ⟨_, rfl, by simp [remaining]⟩
    | storeTail value tail => exact ⟨_, rfl, by simp [remaining]⟩
    | _ => cases h
  | tryPop =>
    simp only [Spsc.step, moves, Bool.false_eq_true, false_and, if_false]
    cases d with
    | loadHead =>
      simp only [tryPop]
      split
      · exact ⟨_, rfl, by simp [remaining]⟩
      · exact ⟨_, rfl, by simp [remaining]⟩
    | loadTail head =>
      simp only [tryPop]
      split
      · exact ⟨_, rfl, by simp [remaining]⟩
      · exact ⟨_, rfl, by simp [remaining]⟩
    | moveOut head => exact ⟨_, rfl, by simp [remaining]⟩
    | destroy head out => exact ⟨_, rfl, by simp [remaining]⟩
    | storeHead head out => exact ⟨_, rfl, by simp [remaining]⟩
    | _ => cases h

omit hpow in
/-- A call gets to its answer through states that an invariant of its steps allows. -/
theorem finish_of {I : State T → Prop} (hI : ∀ s s', I s → Spsc.step capacity false s (moves op) = some s' → I s')
    (hstage : ∀ s, I s → (∃ op', stage s (caller op) = .called op') ∨ ∃ r, stage s (caller op) = .owed r) (h : I s) : ∃ n s₁ r,
    (machine T capacity false).execFrom s (List.replicate n (moves op)) = some s₁ ∧ stage s₁ (caller op) = .owed r := by
  generalize hk : remaining s op = k
  induction k using Nat.strongRecOn generalizing s with
  | _ k ih =>
    rcases hstage s h with ⟨op', h1⟩ | ⟨r, h1⟩
    · obtain ⟨s', hs, hlt⟩ := moves_once capacity h1
      obtain ⟨n, s₁, r, he, hr⟩ := ih _ (hk ▸ hlt) (hI s s' h hs) rfl
      refine ⟨n + 1, s₁, r, ?_, hr⟩
      rw [List.replicate_succ, Machine.execFrom_cons hs]
      exact he
    · exact ⟨0, s, r, rfl, h1⟩

theorem During.finish (h : During capacity xs op s) : ∃ n s₁ r,
    (machine T capacity false).execFrom s (List.replicate n (moves op)) = some s₁ ∧ stage s₁ (caller op) = .owed r := by
  apply finish_of (I := During capacity xs op) (fun s s' h hs => h.step hpow hs) _ h
  rintro s ⟨log, -, -, ⟨h1, -⟩ | ⟨h1, -⟩⟩
  · exact .inl ⟨op, h1⟩
  · exact .inr ⟨_, h1⟩

theorem During.exec (h : During capacity xs op s) {n : Nat}
    (he : (machine T capacity false).execFrom s (List.replicate n (moves op)) = some s') : During capacity xs op s' := by
  induction n generalizing s with
  | zero => cases he; exact h
  | succ n ih =>
    rw [List.replicate_succ] at he
    obtain ⟨t, ht, hr⟩ := Machine.execFrom_cons_some he
    exact ih (h.step hpow ht) hr

omit hpow in
theorem enters_idle (capacity : BitVec 64) (h : ∀ t, stage s t = .idle) (op : TryOp T) : ∃ s', Spsc.step capacity false s (enters op) = some s' := by
  obtain ⟨q, p, d⟩ := s
  cases op with
  | tryPush value =>
    have hp := h .producer
    cases p with
    | idle => exact ⟨_, rfl⟩
    | _ => cases hp
  | tryPop =>
    have hp := h .consumer
    cases d with
    | idle => exact ⟨_, rfl⟩
    | _ => cases hp

omit hpow in
theorem leaves_owed (capacity : BitVec 64) {r : Res T} (h : stage s (caller op) = .owed r) :
    ∃ s', Spsc.step capacity false s (leaves op) = some s' := by
  obtain ⟨q, p, d⟩ := s
  cases op with
  | tryPush value =>
    cases p with
    | done ok arg => exact ⟨_, rfl⟩
    | threw => exact ⟨_, rfl⟩
    | _ => cases h
  | tryPop =>
    cases d with
    | done out => exact ⟨_, rfl⟩
    | threw => exact ⟨_, rfl⟩
    | _ => cases h

theorem service_implements (Tid : Type) : (service Tid (machine T capacity false)).Implements
    (fun xs call => call.2.run capacity.toNat xs) [] (AtRest capacity) := by
  constructor
  · exact ⟨[], .start, rfl, fun t => by cases t <;> rfl⟩
  · intro s xs call h
    obtain ⟨s₀, hs⟩ := enters_idle capacity h.choose_spec.2.2 call.2
    obtain ⟨n, s₁, r, he, hr⟩ := (h.enter hpow hs).finish hpow
    obtain ⟨s', hl⟩ := leaves_owed capacity hr
    exact ⟨r, s', n, s₁, (Machine.execFrom_cons hs).trans he, hr, hl⟩
  · intro s xs call r s' h hans
    obtain ⟨n, s₁, he, hr, hl⟩ := hans
    obtain ⟨s₀, hs, he⟩ := Machine.execFrom_cons_some he
    exact ((h.enter hpow hs).exec hpow he).leave hpow hr hl

end

end Spsc

/-! ## The rings -/

namespace RingVersion

variable [Elem T]

def call : TryOp T → RingOp T
  | .tryPush value => .tryEmplace (.value value)
  | .tryPop => .tryPop true

def service (Tid T : Type) [Elem T] (version : RingVersion) (capacity : Nat) : Service (Ring T) (Tid × TryOp T) (Res T) where
  start := (version.monitor T capacity).start
  answers r op x r' := ∃ held later, (version.monitor T capacity).sect (call op.2) false r = .leave r' held later x

def AtRest (capacity : Nat) (r : Ring T) (xs : List T) : Prop :=
  r.WF ∧ r.capacity = capacity ∧ r.abs = ⟨xs, false⟩

omit [Elem T] in
theorem call_run (capacity : Nat) (xs : List T) (op : TryOp T) :
    Fifo.call capacity ⟨xs, false⟩ (call op) = some (⟨(op.run capacity xs).1, false⟩, (op.run capacity xs).2) := by
  cases op with
  | tryPush value =>
    by_cases h : xs.length < capacity
    · simp [call, Fifo.call, Fifo.push, TryOp.run, h]
    · simp [call, Fifo.call, TryOp.run, h, Nat.not_lt.mp h]
  | tryPop => cases xs <;> rfl

theorem service_implements (Tid : Type) (version : RingVersion) {capacity : Nat} (hpos : capacity ≠ 0) :
    (service Tid T version capacity).Implements (fun xs op => op.2.run capacity xs) [] (AtRest capacity) := by
  constructor
  · show AtRest capacity (version.monitor T capacity).start []
    rw [start_eq]
    exact ⟨Ring.wf_new capacity, if_neg hpos, rfl⟩
  · intro r xs op h
    obtain ⟨hwf, hcap, habs⟩ := h
    have hans := answers version capacity (call op.2) false hwf
    rw [hcap, habs, call_run] at hans
    cases hx : (version.monitor T capacity).sect (call op.2) false r with
    | sleep d v => rw [hx] at hans; cases hans
    | leave d held later y => exact ⟨y, d, held, later, hx⟩
  · intro r xs op x r' h hx
    obtain ⟨hwf, hcap, habs⟩ := h
    obtain ⟨held, later, hx⟩ := hx
    have hok := sect_ok version capacity (call op.2) false hwf
    have hans := answers version capacity (call op.2) false hwf
    rw [hcap, habs, call_run, hx] at hans
    rw [hx] at hok
    simp only [Ring.answer, Option.some.injEq, Prod.mk.injEq] at hans
    exact ⟨hans.2, hok.1, hok.2.2.trans hcap, hans.1⟩

end RingVersion

/-! ## All of them -/

inductive BoundedQueue
  | spsc
  | atomic (version : AtomicVersion)
  | ring (version : RingVersion)

/-- The replies to calls made one after the other by any threads, of a queue that was asked for `requested` places. -/
def BoundedQueue.Replies [Elem T] {Tid : Type} [DecidableEq Tid] (capacity : BitVec 64) :
    BoundedQueue → List (Tid × TryOp T) → List (Res T) → Prop
  | .spsc, calls, rs => ∃ s, (Spsc.service Tid (Spsc.machine T capacity false)).Runs
      (Spsc.machine T capacity false).start calls rs s
  | .atomic version, calls, rs => ∃ s, (Atomic.service (version.machine Tid T capacity false)).Runs
      (version.machine Tid T capacity false).start calls rs s
  | .ring version, calls, rs => ∃ s, (version.service Tid T capacity.toNat).Runs
      (version.monitor T capacity.toNat).start calls rs s

/-- **The bounded queues are interchangeable** for calls one after the other:
each of them replies, and as the FIFO of the normalized capacity does. In such
runs of an atomic queue no call finds a mark ahead of it. -/
theorem queues_interchange {T Tid : Type} [Elem T] [DecidableEq Tid] (requested : BitVec 64) (h : requested.toNat ≤ 2 ^ 63) :
    ∃ capacity, normalizeCapacity 64 requested = some capacity ∧
    (∀ (queue : BoundedQueue) (calls : List (Tid × TryOp T)), (∃ rs, queue.Replies capacity calls rs) ∧
      ∀ rs, queue.Replies capacity calls rs → rs = Service.results (fun xs call => call.2.run capacity.toNat xs) [] calls) ∧
    ∀ (version : AtomicVersion) (calls : List (Tid × TryOp T)) rs s,
      (Atomic.service (version.machine Tid T capacity false)).Runs (version.machine Tid T capacity false).start calls rs s →
      ∀ t op (ms : List Move) s₁, (version.machine Tid T capacity false).execFrom s (.call t (TryOp.atomic op) :: ms.map (.move t)) = some s₁ →
        ¬ s₁.queue.Passed capacity.toNat (s₁.pc t) := by
  obtain ⟨capacity, hcap⟩ := normalizeCapacity_exists (by decide) h
  have hpow := normalizeCapacity_spec (by decide) hcap
  have hne : capacity.toNat ≠ 0 := by
    have := (Spsc.capacity_bounds hpow).1
    omega
  have correct : ∀ version : AtomicVersion, (Atomic.service (version.machine Tid T capacity false)).Implements
      (fun xs call => call.2.run capacity.toNat xs) [] (Atomic.AtRest capacity.toNat) := by
    intro version
    rw [AtomicVersion.machine_eq]
    exact Atomic.service_implements hpow version.backoff
  refine ⟨capacity, hcap, fun queue calls => ?_, fun version calls rs s hr t op ms s₁ he => ?_⟩
  · cases queue with
    | spsc =>
      have hc := (Spsc.service_implements hpow Tid (T := T)).correct calls
      exact ⟨hc.1, fun rs hr => (hc.2 rs _ hr.choose_spec).1⟩
    | atomic version =>
      have hc := (correct version).correct calls
      exact ⟨hc.1, fun rs hr => (hc.2 rs _ hr.choose_spec).1⟩
    | ring version =>
      have hc := (RingVersion.service_implements Tid version hne (T := T)).correct calls
      exact ⟨hc.1, fun rs hr => (hc.2 rs _ hr.choose_spec).1⟩
  · obtain ⟨xs, hrest⟩ := (((correct version).correct calls).2 rs s hr).2
    rw [AtomicVersion.machine_eq] at he
    exact Atomic.not_passed hpow hrest op he

theorem queues_interchange_one : ∃ capacity, normalizeCapacity 64 3#64 = some capacity ∧
    ∀ (queue : BoundedQueue) rs, queue.Replies capacity [(true, .tryPush 7), (false, .tryPop), (true, .tryPop)] rs →
      rs = [Res.pushed true, Res.popped (some 7), Res.popped none] := by
  obtain ⟨capacity, hcap, hreplies, -⟩ := @queues_interchange Nat Bool _ _ 3#64 (by decide)
  have h4 : normalizeCapacity 64 3#64 = some 4#64 := by decide
  obtain rfl : capacity = 4#64 := Option.some.inj (hcap.symm.trans h4)
  exact ⟨4#64, hcap, fun queue rs hr => (hreplies queue _).2 rs hr⟩

end Yutil
