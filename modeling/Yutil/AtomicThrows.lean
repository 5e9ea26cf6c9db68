import Yutil.AtomicSolo
import Mathlib.Order.Basic
import Mathlib.Data.Nat.Find

/-!
# A throwing element operation loses a cell

The ticket is taken before the element operation and the cell is marked after
it, so a call that throws leaves a ticket that nobody will finish. From then
on one call less succeeds in a row, whatever the queue holds.
-/

namespace Yutil

open Interleave

namespace Atomic

/-! ## Calls in a row -/

section
variable {Tid T : Type} [DecidableEq Tid] [Elem T] {w c : Nat} (hc : ∃ j, j < w ∧ c = 2 ^ j) {side : Side} {arg : T}
  {t : Tid} {backoff : Nat → Nat} {throwing : Bool} {s s' : State Tid (BitVec w) T}

include hc

omit [Elem T] in
theorem next_ready {q q' : AtomicQueue (BitVec w) T} (h : side.Took c q q') {i : Nat} (hi : i + 1 < c) :
    side.Ready c q' (Counter.plus (side.cursor q') i) ↔ side.Ready c q (Counter.plus (side.cursor q) (i + 1)) := by
  rw [h.cursor, Counter.plus_plus, Nat.add_comm 1 i]
  apply h.ready
  have := Counter.slot_plus_ne hc (side.cursor q) (show 0 < i + 1 by omega) (by omega)
  rwa [Counter.plus_zero] at this

theorem take_many (backoff : Nat → Nat) (throwing : Bool) (arg : T) (m : Nat) (hm : m ≤ c) (hidle : s.pc t = .idle) (ho : side.Open s.queue)
    (hr : ∀ i, i < m → side.Ready c s.queue (Counter.plus (side.cursor s.queue) i)) :
    ∃ rs, Results (machine Tid (BitVec w) T backoff c throwing) s (List.replicate m (t, side.op arg)) rs ∧
      ∀ r ∈ rs, side.Success r := by
  induction m generalizing s with
  | zero => exact ⟨[], .nil, by simp⟩
  | succ m ih =>
    have h0 := hr 0 (by omega)
    rw [Counter.plus_zero] at h0
    obtain ⟨q', k, r, ha, hs, -⟩ := AtomicQueue.acts_ready backoff side arg h0 ho
    have ht := ((AtomicQueue.acts_spec side ha).1 hs).2
    have hcall : Calls (machine Tid (BitVec w) T backoff c throwing) s t (side.op arg) r ⟨q', s.pc⟩ :=
      calls_of_acts (by simp) hidle ha
    obtain ⟨rs, hrs, hall⟩ := ih (s := ⟨q', s.pc⟩) (by omega) hidle (ht.open ho)
      (fun i hi => (next_ready hc ht (by omega)).mpr (hr (i + 1) (by omega)))
    refine ⟨r :: rs, .cons hcall hrs, ?_⟩
    intro r' hr'
    rcases List.mem_cons.mp hr' with rfl | hr'
    · exact hs
    · exact hall r' hr'

theorem need_many {m : Nat} (hm : m ≤ c) {rs : List (Reply T)}
    (h : Results (machine Tid (BitVec w) T backoff c throwing) s (List.replicate m (t, side.op arg)) rs)
    (hs : ∀ r ∈ rs, side.Success r) : ∀ i, i < m → side.Ready c s.queue (Counter.plus (side.cursor s.queue) i) := by
  induction m generalizing s rs with
  | zero => intro i hi; omega
  | succ m ih =>
    cases h with
    | cons hcall hrest =>
      obtain ⟨-, ms, k, ha, -⟩ := hcall.acts
      obtain ⟨hready, ht⟩ := (AtomicQueue.acts_spec side ha).1 (hs _ (List.mem_cons_self ..))
      have hnext := ih (by omega) hrest fun r hr => hs r (List.mem_cons_of_mem _ hr)
      intro i hi
      cases i with
      | zero => rw [Counter.plus_zero]; exact hready
      | succ i => exact (next_ready hc ht (by omega)).mp (hnext i (by omega))

omit [Elem T] in
theorem lap_not_ready {q : AtomicQueue (BitVec w) T} (hr : side.Ready c q (side.cursor q)) :
    ¬ side.Ready c q (Counter.plus (side.cursor q) c) := by
  intro h
  have hslot := Counter.slot_lap hc (side.cursor q) 0
  rw [Nat.zero_add, Counter.plus_zero] at hslot
  have hcell : q.cell c (Counter.plus (side.cursor q) c) = q.cell c (side.cursor q) := congrArg q.cells hslot
  rw [Side.Ready, hcell, Counter.dif_eq_zero] at h
  have hmark := h.symm.trans (Counter.dif_eq_zero.mp hr)
  cases side with
  | push =>
    have := Counter.plus_lap_ne hc (Side.push.cursor q) 0
    rw [Nat.zero_add, Counter.plus_zero] at this
    exact this hmark
  | pop =>
    have hmark : Counter.plus (Counter.plus (Side.pop.cursor q) c) 1 = Counter.plus (Side.pop.cursor q) 1 := hmark
    rw [Counter.plus_plus, Nat.add_comm c 1] at hmark
    exact Counter.plus_lap_ne hc _ 1 hmark

/-- After a call threw, one call less succeeds in a row. -/
theorem throw_differs (hcalls : Calls (machine Tid (BitVec w) T backoff c true) s t (side.op arg) .threw s') :
    ∃ ops rs, Results (machine Tid (BitVec w) T backoff c false) s ops rs ∧
      ¬ Results (machine Tid (BitVec w) T backoff c false) s' ops rs := by
  obtain ⟨hidle, ms, k, ha, hpc, -⟩ := hcalls.acts
  obtain ⟨ho, hready, ht, hcells⟩ := (AtomicQueue.acts_spec side ha).2 rfl
  have hlap := lap_not_ready hc hready
  -- the first cell after the lost one that is not ready
  have hex : ∃ i, ¬ side.Ready c s.queue (Counter.plus (side.cursor s.queue) (i + 1)) := by
    have hpos : 0 < c := by obtain ⟨j, -, rfl⟩ := hc; exact Nat.two_pow_pos j
    exact ⟨c - 1, by rwa [Nat.sub_add_cancel hpos]⟩
  classical
  let n := Nat.find hex
  have hn : n + 1 ≤ c := by
    have hpos : 0 < c := by obtain ⟨j, -, rfl⟩ := hc; exact Nat.two_pow_pos j
    have := Nat.find_min' hex (m := c - 1) (by rwa [Nat.sub_add_cancel hpos])
    omega
  have hrun : ∀ i, i < n + 1 → side.Ready c s.queue (Counter.plus (side.cursor s.queue) i) := by
    intro i hi
    cases i with
    | zero => rw [Counter.plus_zero]; exact hready
    | succ i => exact not_not.mp (Nat.find_min hex (show i < Nat.find hex by omega))
  obtain ⟨rs, hrs, hall⟩ := take_many hc backoff false arg (n + 1) hn hidle ho hrun
  refine ⟨_, rs, hrs, fun h => ?_⟩
  have hlost := need_many hc hn h hall n (by omega)
  rw [ht.cursor, Counter.plus_plus, Nat.add_comm 1 n] at hlost
  apply Nat.find_spec hex
  have hcell : s'.queue.cell c (Counter.plus (side.cursor s.queue) (n + 1)) =
      s.queue.cell c (Counter.plus (side.cursor s.queue) (n + 1)) := congrFun hcells _
  rwa [Side.Ready, hcell] at hlost

omit hc in
theorem throw_possible (backoff : Nat → Nat) (side : Side) (arg : T) (hidle : s.pc t = .idle) (ho : side.Open s.queue)
    (hr : side.Ready c s.queue (side.cursor s.queue)) :
    ∃ s', Calls (machine Tid (BitVec w) T backoff c true) s t (side.op arg) .threw s' := by
  have ha : ∃ ms q' k, s.queue.acts backoff c (AtomicQueue.enter (side.op arg)) ms = some (q', .done k .threw) := by
    cases side with
    | push =>
      have hr : Counter.dif (s.queue.cell c s.queue.enqueuePos).sequence s.queue.enqueuePos = 0 := hr
      have ho : s.queue.closed = false := ho
      refine ⟨[.go, .go, .go, .go, .throws], { s.queue with enqueuePos := Counter.plus s.queue.enqueuePos 1 },
        some s.queue.enqueuePos, ?_⟩
      simp only [AtomicQueue.acts, AtomicQueue.enter, Side.op, AtomicQueue.act, ho, hr, Bool.false_eq_true, if_true,
        if_false, Option.bind_some]
    | pop =>
      have hr : Counter.dif (s.queue.cell c s.queue.dequeuePos).sequence (Counter.plus s.queue.dequeuePos 1) = 0 := hr
      refine ⟨[.go, .go, .go, .throws], { s.queue with dequeuePos := Counter.plus s.queue.dequeuePos 1 },
        some s.queue.dequeuePos, ?_⟩
      simp only [AtomicQueue.acts, AtomicQueue.enter, Side.op, AtomicQueue.act, hr, if_true, Option.bind_some]
  obtain ⟨ms, q', k, ha⟩ := ha
  exact ⟨_, calls_of_acts (fun _ _ _ => rfl) hidle ha⟩

end

end Atomic

/-! ## The three versions -/

open Atomic

variable {Tid T : Type} [DecidableEq Tid] [Elem T] {fuel : Nat} {requested capacity : BitVec 64}

def SameResults (version : AtomicVersion) (capacity : BitVec 64) (s' s : State Tid (BitVec 64) T) : Prop :=
  ∀ ops rs, Results (version.machine Tid T capacity false) s' ops rs ↔ Results (version.machine Tid T capacity false) s ops rs

theorem throw_changes (version : AtomicVersion) (hcap : normalizeCapacity fuel requested = some capacity) (side : Side)
    (arg : T) {s s' : State Tid (BitVec 64) T} {t : Tid}
    (h : Calls (version.machine Tid T capacity true) s t (side.op arg) .threw s') :
    ¬ SameResults version capacity s' s := by
  obtain ⟨j, -, hj, hpow⟩ := normalizeCapacity_spec (by decide) hcap
  intro hsame
  rw [AtomicVersion.machine_eq] at h
  obtain ⟨ops, rs, h1, h2⟩ := throw_differs ⟨j, hj, hpow⟩ h
  rw [← AtomicVersion.machine_eq] at h1 h2
  exact h2 ((hsame ops rs).mpr h1)

/-- **A throw always shows later**, in every state in which the call throws. -/
theorem throw_never_harmless (version : AtomicVersion) (hcap : normalizeCapacity fuel requested = some capacity)
    (s s' : State Tid (BitVec 64) T) (t : Tid) :
    (∀ arg, Calls (version.machine Tid T capacity true) s t (.emplace arg) .threw s' →
      ¬ SameResults version capacity s' s) ∧
    (Calls (version.machine Tid T capacity true) s t .tryPop .threw s' → ¬ SameResults version capacity s' s) :=
  ⟨fun arg h => throw_changes version hcap .push arg h, fun h => throw_changes version hcap .pop default h⟩

def onePush : List (Label Bool Nat) :=
  [.call true (.emplace 7), .move true .go, .move true .go, .move true .go, .move true .go, .move true .go, .move true .go,
    .ret true]

theorem onePush_spec : ∃ s, (AtomicVersion.V1.machine Bool Nat 2#64 true).exec onePush = some s ∧
    (∀ u, s.pc u = .idle) ∧ Side.pop.Ready (2#64).toNat s.queue s.queue.dequeuePos := by
  have hrun : ((AtomicVersion.V1.machine Bool Nat 2#64 true).exec onePush).map (fun s => (s.pc true, s.pc false,
      Counter.dif (s.queue.cell 2 s.queue.dequeuePos).sequence (Counter.plus s.queue.dequeuePos 1))) =
      some (.idle, .idle, 0) := by decide
  obtain ⟨s, hs, he⟩ := Option.map_eq_some_iff.mp hrun
  obtain ⟨h1, h2⟩ := Prod.ext_iff.mp he
  obtain ⟨h2, h3⟩ := Prod.ext_iff.mp h2
  exact ⟨s, hs, fun u => by cases u <;> assumption, h3⟩

theorem throw_harms :
    (∃ s', Calls (AtomicVersion.V1.machine Bool Nat 2#64 true) (AtomicVersion.V1.machine Bool Nat 2#64 true).start true
        (.emplace 7) .threw s' ∧
      ¬ SameResults .V1 2#64 s' (AtomicVersion.V1.machine Bool Nat 2#64 true).start) ∧
    ∃ s s', (AtomicVersion.V1.machine Bool Nat 2#64 true).Reachable s ∧ (∀ u, s.pc u = .idle) ∧
      Calls (AtomicVersion.V1.machine Bool Nat 2#64 true) s true .tryPop .threw s' ∧ ¬ SameResults .V1 2#64 s' s := by
  have hcap : normalizeCapacity 3 2#64 = some 2#64 := by decide
  constructor
  · obtain ⟨s', hs⟩ := throw_possible BoundedAtomicMpmcQueueV1.backoff .push 7 (c := 2) (t := true)
      (s := (AtomicVersion.V1.machine Bool Nat 2#64 true).start) rfl rfl rfl
    exact ⟨s', hs, throw_changes .V1 hcap .push 7 hs⟩
  · obtain ⟨s, hs, hidle, hr⟩ := onePush_spec
    obtain ⟨s', hs'⟩ := throw_possible BoundedAtomicMpmcQueueV1.backoff .pop 7 (c := 2) (hidle true) trivial hr
    exact ⟨s, s', Machine.exec_reachable _ hs, hidle, hs', throw_changes .V1 hcap .pop 7 hs'⟩

theorem throw_never_harmless_start : ∃ s', ¬ SameResults .V1 2#64 s' (AtomicVersion.V1.machine Bool Nat 2#64 true).start := by
  obtain ⟨s', hs⟩ := throw_possible BoundedAtomicMpmcQueueV1.backoff .push 7 (c := 2) (t := true)
    (s := (AtomicVersion.V1.machine Bool Nat 2#64 true).start) rfl rfl rfl
  exact ⟨s', (throw_never_harmless .V1 (show normalizeCapacity 3 2#64 = some 2#64 by decide) _ s' true).1 7 hs⟩

end Yutil
