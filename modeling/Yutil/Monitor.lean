import Yutil.Machine
import Mathlib.Algebra.BigOperators.Fin
import Mathlib.Data.Fintype.BigOperators
import Mathlib.Algebra.Order.BigOperators.Group.Finset

/-!
# Monitors: a mutex, its data and condition variables

A critical section runs in one step while its thread holds the mutex: it
either goes to sleep on a condition variable, which releases the mutex, or
leaves with a result. Notifications made before the unlock belong to the
section; those made after it are separate steps of the thread, so other
threads move in between. A notified or spuriously woken thread runs the
section of its operation again when it gets the mutex back.
-/

namespace Interleave

inductive Notify (Cv : Type)
  | one (cv : Cv)
  | all (cv : Cv)
  deriving DecidableEq, Repr

/-- How a critical section ends: `held` is notified under the mutex, `later` after the unlock. -/
inductive Exit (D Cv R : Type)
  | sleep (d : D) (cv : Cv)
  | leave (d : D) (held : Option (Notify Cv)) (later : List (Notify Cv)) (r : R)

/-- The sections of a monitor's operations. The flag says whether the thread
enters the section anew (`false`) or comes back from a sleep (`true`). -/
structure Monitor (D Op Cv R : Type) where
  start : D
  sect : Op → Bool → D → Exit D Cv R

inductive Pc (Op Cv R : Type)
  | idle
  | entry (op : Op)
  | asleep (op : Op) (cv : Cv)
  | woken (op : Op) (cv : Cv)
  | leaving (op : Op) (todo : List (Notify Cv)) (r : R)
  deriving DecidableEq, Repr

namespace Pc

variable {Op Cv R : Type}

def ready : Pc Op Cv R → Option (Op × Bool)
  | .entry op => some (op, false)
  | .woken op _ => some (op, true)
  | _ => none

def op? : Pc Op Cv R → Option Op
  | .idle => none
  | .entry op | .asleep op _ | .woken op _ | .leaving op _ _ => some op

def notifies : Pc Op Cv R → Bool
  | .leaving _ todo _ => !todo.isEmpty
  | _ => false

def rechecks : Pc Op Cv R → Bool
  | .woken _ _ => true
  | _ => false

variable [DecidableEq Cv]

def sleepsOn (cv : Cv) : Pc Op Cv R → Bool
  | .asleep _ c => c = cv
  | _ => false

def wake (cv : Cv) : Pc Op Cv R → Pc Op Cv R
  | .asleep op c => if c = cv then .woken op c else .asleep op c
  | p => p

end Pc

namespace Monitor

variable {Tid D Op Cv R : Type}

structure State (Tid D Op Cv R : Type) where
  data : D
  pc : Tid → Pc Op Cv R

inductive Label (Tid Op : Type)
  | call (t : Tid) (op : Op)
  | acquire (t : Tid) (pick : Option Tid)
  | notify (t : Tid) (pick : Option Tid)
  | spurious (t : Tid)
  | ret (t : Tid)
  deriving DecidableEq, Repr

variable [DecidableEq Tid] [Fintype Tid] [DecidableEq Cv]

/-- `notify_one` wakes the picked sleeper, and none only when nobody sleeps. -/
def deliver (pc : Tid → Pc Op Cv R) (pick : Option Tid) : Notify Cv → Option (Tid → Pc Op Cv R)
  | .all cv => some fun u => (pc u).wake cv
  | .one cv =>
    match pick with
    | some u => if (pc u).sleepsOn cv then some (Function.update pc u ((pc u).wake cv)) else none
    | none => if ∀ u, (pc u).sleepsOn cv = false then some pc else none

def deliverHeld (pc : Tid → Pc Op Cv R) (pick : Option Tid) : Option (Notify Cv) → Option (Tid → Pc Op Cv R)
  | none => some pc
  | some n => deliver pc pick n

def step (M : Monitor D Op Cv R) (calls : Tid → Op → Bool) (s : State Tid D Op Cv R) :
    Label Tid Op → Option (State Tid D Op Cv R)
  | .call t op =>
    match s.pc t with
    | .idle => if calls t op then some { s with pc := Function.update s.pc t (.entry op) } else none
    | _ => none
  | .acquire t pick =>
    match (s.pc t).ready with
    | none => none
    | some (op, w) =>
      match M.sect op w s.data with
      | .sleep d cv => some ⟨d, Function.update s.pc t (.asleep op cv)⟩
      | .leave d held later r =>
        (deliverHeld s.pc pick held).map fun pc => ⟨d, Function.update pc t (.leaving op later r)⟩
  | .notify t pick =>
    match s.pc t with
    | .leaving op (n :: todo) r =>
      (deliver s.pc pick n).map fun pc => { s with pc := Function.update pc t (.leaving op todo r) }
    | _ => none
  | .spurious t =>
    match s.pc t with
    | .asleep op cv => some { s with pc := Function.update s.pc t (.woken op cv) }
    | _ => none
  | .ret t =>
    match s.pc t with
    | .leaving _ [] _ => some { s with pc := Function.update s.pc t .idle }
    | _ => none

def machine (M : Monitor D Op Cv R) (calls : Tid → Op → Bool) : Machine (State Tid D Op Cv R) (Label Tid Op) where
  start := ⟨M.start, fun _ => .idle⟩
  step := M.step calls

def completes (M : Monitor D Op Cv R) (s : State Tid D Op Cv R) : Label Tid Op → List (Tid × Op × R)
  | .acquire t _ =>
    match (s.pc t).ready with
    | none => []
    | some (op, w) =>
      match M.sect op w s.data with
      | .sleep _ _ => []
      | .leave _ _ _ r => [(t, op, r)]
  | _ => []

/-! ## What a step can do -/

inductive Delivers (pc : Tid → Pc Op Cv R) : Notify Cv → (Tid → Pc Op Cv R) → Prop
  | wakes {cv : Cv} {u : Tid} {op : Op} : pc u = .asleep op cv →
      Delivers pc (.one cv) (Function.update pc u (.woken op cv))
  | nobody {cv : Cv} : (∀ u, (pc u).sleepsOn cv = false) → Delivers pc (.one cv) pc
  | everybody {cv : Cv} : Delivers pc (.all cv) fun u => (pc u).wake cv

inductive DeliversHeld (pc : Tid → Pc Op Cv R) : Option (Notify Cv) → (Tid → Pc Op Cv R) → Prop
  | none : DeliversHeld pc none pc
  | some {n : Notify Cv} {pc' : Tid → Pc Op Cv R} : Delivers pc n pc' → DeliversHeld pc (some n) pc'

theorem sleepsOn_iff {p : Pc Op Cv R} {cv : Cv} : p.sleepsOn cv = true ↔ ∃ op, p = .asleep op cv := by
  cases p with
  | asleep op c => simp [Pc.sleepsOn]
  | _ => simp [Pc.sleepsOn]

theorem deliver_spec {pc pc' : Tid → Pc Op Cv R} {pick : Option Tid} {n : Notify Cv}
    (h : deliver pc pick n = some pc') : Delivers pc n pc' := by
  cases n with
  | all cv => cases h; exact .everybody
  | one cv =>
    cases pick with
    | none =>
      simp only [deliver] at h
      split at h
      · rename_i hn; cases h; exact .nobody hn
      · cases h
    | some u =>
      simp only [deliver] at h
      split at h
      · rename_i hu
        obtain ⟨op, hop⟩ := sleepsOn_iff.mp hu
        cases h
        rw [hop, Pc.wake, if_pos rfl]
        exact .wakes hop
      · cases h

theorem wake_of_not_asleep {p : Pc Op Cv R} {cv : Cv} (h : p.sleepsOn cv = false) : p.wake cv = p := by
  cases p with
  | asleep op c =>
    simp only [Pc.sleepsOn, decide_eq_false_iff_not] at h
    simp only [Pc.wake, h, ite_false]
  | _ => rfl

omit [Fintype Tid] in
theorem Delivers.same {pc pc' : Tid → Pc Op Cv R} {n : Notify Cv} (h : Delivers pc n pc') {t : Tid}
    (ht : ∀ cv, (pc t).sleepsOn cv = false) : pc' t = pc t := by
  cases h with
  | @wakes cv u op hu =>
    have : t ≠ u := by
      rintro rfl
      have := ht cv
      rw [hu] at this
      simp [Pc.sleepsOn] at this
    rw [Function.update_of_ne this]
  | nobody _ => rfl
  | @everybody cv => exact wake_of_not_asleep (ht cv)

theorem ready_not_asleep {p : Pc Op Cv R} {x : Op × Bool} (h : p.ready = some x) (cv : Cv) :
    p.sleepsOn cv = false := by
  cases p <;> simp_all [Pc.ready, Pc.sleepsOn]

omit [Fintype Tid] in
theorem DeliversHeld.same {pc pc' : Tid → Pc Op Cv R} {n : Option (Notify Cv)} (h : DeliversHeld pc n pc')
    {t : Tid} (ht : ∀ cv, (pc t).sleepsOn cv = false) : pc' t = pc t := by
  cases h with
  | none => rfl
  | some hd => exact hd.same ht

inductive Steps (M : Monitor D Op Cv R) (calls : Tid → Op → Bool) (s : State Tid D Op Cv R) :
    Label Tid Op → State Tid D Op Cv R → Prop
  | call {t : Tid} {op : Op} : s.pc t = .idle → calls t op = true →
      Steps M calls s (.call t op) ⟨s.data, Function.update s.pc t (.entry op)⟩
  | sleep {t : Tid} {pick : Option Tid} {op : Op} {w : Bool} {d : D} {cv : Cv} :
      (s.pc t).ready = some (op, w) → M.sect op w s.data = .sleep d cv →
      Steps M calls s (.acquire t pick) ⟨d, Function.update s.pc t (.asleep op cv)⟩
  | leave {t : Tid} {pick : Option Tid} {op : Op} {w : Bool} {d : D} {held : Option (Notify Cv)}
      {later : List (Notify Cv)} {r : R} {pc : Tid → Pc Op Cv R} :
      (s.pc t).ready = some (op, w) → M.sect op w s.data = .leave d held later r →
      DeliversHeld s.pc held pc →
      Steps M calls s (.acquire t pick) ⟨d, Function.update pc t (.leaving op later r)⟩
  | notify {t : Tid} {pick : Option Tid} {op : Op} {n : Notify Cv} {todo : List (Notify Cv)} {r : R}
      {pc : Tid → Pc Op Cv R} : s.pc t = .leaving op (n :: todo) r → Delivers s.pc n pc →
      Steps M calls s (.notify t pick) ⟨s.data, Function.update pc t (.leaving op todo r)⟩
  | spurious {t : Tid} {op : Op} {cv : Cv} : s.pc t = .asleep op cv →
      Steps M calls s (.spurious t) ⟨s.data, Function.update s.pc t (.woken op cv)⟩
  | ret {t : Tid} {op : Op} {r : R} : s.pc t = .leaving op [] r →
      Steps M calls s (.ret t) ⟨s.data, Function.update s.pc t .idle⟩

theorem step_spec {M : Monitor D Op Cv R} {calls : Tid → Op → Bool} {s s' : State Tid D Op Cv R}
    {a : Label Tid Op} (h : M.step calls s a = some s') : Steps M calls s a s' := by
  cases a with
  | call t op =>
    simp only [step] at h
    split at h
    · rename_i hpc
      split at h
      · rename_i hc; cases h; exact .call hpc hc
      · cases h
    · cases h
  | acquire t pick =>
    simp only [step] at h
    split at h
    · cases h
    · rename_i op w hr
      split at h
      · rename_i d cv hx; cases h; exact .sleep hr hx
      · rename_i d held later r hx
        obtain ⟨pc, hd, he⟩ := Option.map_eq_some_iff.mp h
        cases he
        refine .leave hr hx ?_
        cases held with
        | none => cases hd; exact .none
        | some n => exact .some (deliver_spec hd)
  | notify t pick =>
    simp only [step] at h
    split at h
    · rename_i op n todo r hpc
      obtain ⟨pc, hd, he⟩ := Option.map_eq_some_iff.mp h
      cases he
      exact .notify hpc (deliver_spec hd)
    · cases h
  | spurious t =>
    simp only [step] at h
    split at h
    · rename_i op cv hpc; cases h; exact .spurious hpc
    · cases h
  | ret t =>
    simp only [step] at h
    split at h
    · rename_i op r hpc; cases h; exact .ret hpc
    · cases h

omit [DecidableEq Tid] [Fintype Tid] in
theorem op?_wake (cv : Cv) (p : Pc Op Cv R) : (p.wake cv).op? = p.op? := by
  cases p with
  | asleep op c => by_cases h : c = cv <;> simp [Pc.wake, Pc.op?, h]
  | _ => rfl

omit [Fintype Tid] in
theorem Delivers.op? {pc pc' : Tid → Pc Op Cv R} {n : Notify Cv} (h : Delivers pc n pc') (t : Tid) :
    (pc' t).op? = (pc t).op? := by
  cases h with
  | @wakes cv u op hu =>
    by_cases ht : t = u
    · subst ht; rw [Function.update_self, hu]; rfl
    · rw [Function.update_of_ne ht]
  | nobody _ => rfl
  | everybody => exact op?_wake ..

omit [Fintype Tid] in
theorem DeliversHeld.op? {pc pc' : Tid → Pc Op Cv R} {n : Option (Notify Cv)} (h : DeliversHeld pc n pc') (t : Tid) :
    (pc' t).op? = (pc t).op? := by
  cases h with
  | none => rfl
  | some hd => exact hd.op? t

omit [DecidableEq Cv] in
theorem ready_op? {p : Pc Op Cv R} {op : Op} {w : Bool} (h : p.ready = some (op, w)) : p.op? = some op := by
  cases p <;> simp_all [Pc.ready, Pc.op?]

omit [Fintype Tid] in
theorem Steps.op? {M : Monitor D Op Cv R} {calls : Tid → Op → Bool} {s s' : State Tid D Op Cv R} {a : Label Tid Op}
    (h : Steps M calls s a s') (u : Tid) :
    (s'.pc u).op? = (s.pc u).op? ∨
    (∃ op, a = .call u op ∧ calls u op = true ∧ s.pc u = .idle ∧ s'.pc u = .entry op) ∨
    a = .ret u ∧ s'.pc u = .idle := by
  have keep : ∀ {pc : Tid → Pc Op Cv R} {t : Tid} {p : Pc Op Cv R}, (∀ u, (pc u).op? = (s.pc u).op?) →
      p.op? = (s.pc t).op? → (Function.update pc t p u).op? = (s.pc u).op? := by
    intro pc t p hpc hp
    by_cases hut : u = t
    · subst hut; rw [Function.update_self, hp]
    · rw [Function.update_of_ne hut, hpc]
  cases h with
  | @call t op hpc hc =>
    by_cases hut : u = t
    · subst hut; exact .inr (.inl ⟨op, rfl, hc, hpc, Function.update_self ..⟩)
    · exact .inl (by simp only [Function.update_of_ne hut])
  | sleep hr _ => exact .inl (keep (fun _ => rfl) (ready_op? hr).symm)
  | leave hr _ hd => exact .inl (keep hd.op? (ready_op? hr).symm)
  | notify hpc hd => exact .inl (keep hd.op? (by rw [hpc]; rfl))
  | spurious hpc => exact .inl (keep (fun _ => rfl) (by rw [hpc]; rfl))
  | @ret t op r hpc =>
    by_cases hut : u = t
    · subst hut; exact .inr (.inr ⟨rfl, Function.update_self ..⟩)
    · exact .inl (by simp only [Function.update_of_ne hut])

theorem op_called {M : Monitor D Op Cv R} {calls : Tid → Op → Bool} {s : State Tid D Op Cv R}
    (h : (M.machine calls).Reachable s) {t : Tid} {op : Op} (hop : (s.pc t).op? = some op) : calls t op = true := by
  have key : ∀ t op, (s.pc t).op? = some op → calls t op = true := by
    refine h.invariant (I := fun s => ∀ t op, (s.pc t).op? = some op → calls t op = true)
      (fun _ _ h => by cases h) ?_
    intro s a s' _ ih hs t op hop
    rcases (step_spec hs).op? t with h | ⟨op', -, hc, -, h⟩ | ⟨-, h⟩
    · exact ih t op (h ▸ hop)
    · rw [h] at hop; cases hop; exact hc
    · rw [h] at hop; cases hop
  exact key t op hop

theorem op_sleeps {M : Monitor D Op Cv R} {calls : Tid → Op → Bool} {s : State Tid D Op Cv R}
    (h : (M.machine calls).Reachable s) {t : Tid} {op : Op} {cv : Cv}
    (hpc : s.pc t = .asleep op cv ∨ s.pc t = .woken op cv) : ∃ w d d', M.sect op w d = .sleep d' cv := by
  let Sent : Pc Op Cv R → Prop := fun p => ∀ op cv, p = .asleep op cv ∨ p = .woken op cv →
    ∃ w d d', M.sect op w d = .sleep d' cv
  have sent_wake : ∀ cv {p : Pc Op Cv R}, Sent p → Sent (p.wake cv) := by
    intro cv p hp op c hc
    cases p with
    | asleep op' c' =>
      by_cases hcc : c' = cv
      · simp only [Pc.wake, hcc, ite_true, reduceCtorEq, false_or, Pc.woken.injEq] at hc
        exact hp op c (.inl (by rw [hcc, hc.1, hc.2]))
      · simp only [Pc.wake, hcc, ite_false] at hc
        exact hp op c hc
    | _ => exact hp op c hc
  have put : ∀ {pc : Tid → Pc Op Cv R} {t : Tid} {p : Pc Op Cv R}, (∀ u, Sent (pc u)) → Sent p →
      ∀ u, Sent (Function.update pc t p u) := fun hpc hp =>
    (Function.forall_update_iff _ fun _ => Sent).mpr ⟨hp, fun u _ => hpc u⟩
  have sent_delivers : ∀ {pc pc' : Tid → Pc Op Cv R} {n : Notify Cv}, (∀ u, Sent (pc u)) → Delivers pc n pc' →
      ∀ u, Sent (pc' u) := by
    intro pc pc' n hp hd
    cases hd with
    | @wakes cv v op hv =>
      apply put hp
      have := sent_wake cv (hp v)
      rwa [hv, Pc.wake, if_pos rfl] at this
    | nobody _ => exact hp
    | everybody => exact fun u => sent_wake _ (hp u)
  have key : ∀ u, Sent (s.pc u) := by
    refine h.invariant (I := fun s => ∀ u, Sent (s.pc u)) (fun _ _ _ h => by rcases h with h | h <;> cases h) ?_
    intro s a s' _ ih hs
    have awake : ∀ {p : Pc Op Cv R}, (∀ op cv, p ≠ .asleep op cv ∧ p ≠ .woken op cv) → Sent p := fun hp op cv h =>
      absurd h (not_or.mpr (hp op cv))
    cases step_spec hs with
    | call _ _ => exact put ih (awake fun _ _ => ⟨nofun, nofun⟩)
    | @sleep t _ op w d cv _ hx =>
      apply put ih
      intro op' cv' h
      simp only [Pc.asleep.injEq, reduceCtorEq, or_false] at h
      rw [← h.1, ← h.2]
      exact ⟨w, _, d, hx⟩
    | leave _ _ hd =>
      refine put ?_ (awake fun _ _ => ⟨nofun, nofun⟩)
      cases hd with
      | none => exact ih
      | some hd => exact sent_delivers ih hd
    | notify _ hd => exact put (sent_delivers ih hd) (awake fun _ _ => ⟨nofun, nofun⟩)
    | @spurious t op c hpc =>
      apply put ih
      have := sent_wake c (ih t)
      rwa [hpc, Pc.wake, if_pos rfl] at this
    | ret _ => exact put ih (awake fun _ _ => ⟨nofun, nofun⟩)
  exact key t op cv hpc

/-! ## Counting threads -/

def total {Tid : Type} [Fintype Tid] (f : Pc Op Cv R → Nat) (pc : Tid → Pc Op Cv R) : Nat := ∑ t, f (pc t)

omit [DecidableEq Cv] in
theorem total_update (f : Pc Op Cv R → Nat) (pc : Tid → Pc Op Cv R) (t : Tid) (p : Pc Op Cv R) :
    total f (Function.update pc t p) + f (pc t) = total f pc + f p := by
  unfold total
  rw [← Finset.add_sum_erase _ _ (Finset.mem_univ t),
    ← Finset.add_sum_erase (a := t) _ (fun u => f (pc u)) (Finset.mem_univ t)]
  have : ∑ u ∈ Finset.univ.erase t, f (Function.update pc t p u) = ∑ u ∈ Finset.univ.erase t, f (pc u) := by
    apply Finset.sum_congr rfl
    intro u hu
    rw [Function.update_of_ne (Finset.ne_of_mem_erase hu)]
  rw [this, Function.update_self]
  omega

omit [DecidableEq Tid] [DecidableEq Cv] in
theorem total_pos {f : Pc Op Cv R → Nat} {pc : Tid → Pc Op Cv R} : 0 < total f pc ↔ ∃ t, 0 < f (pc t) := by
  unfold total
  rw [Nat.pos_iff_ne_zero, Ne, Finset.sum_eq_zero_iff]
  simp [Nat.pos_iff_ne_zero]

omit [DecidableEq Tid] [DecidableEq Cv] in
theorem weight_le_total (f : Pc Op Cv R → Nat) (pc : Tid → Pc Op Cv R) (t : Tid) : f (pc t) ≤ total f pc :=
  Finset.single_le_sum (f := fun u => f (pc u)) (fun _ _ => Nat.zero_le _) (Finset.mem_univ t)

omit [DecidableEq Tid] [DecidableEq Cv] in
theorem total_congr {f : Pc Op Cv R → Nat} {pc pc' : Tid → Pc Op Cv R} (h : ∀ t, f (pc t) = f (pc' t)) :
    total f pc = total f pc' := Finset.sum_congr rfl fun t _ => h t

def asleepOn (cv : Cv) : Pc Op Cv R → Nat
  | .asleep _ c => if c = cv then 1 else 0
  | _ => 0

def onesOn (cv : Cv) : Pc Op Cv R → Nat
  | .leaving _ todo _ => todo.count (.one cv)
  | _ => 0

def allsOn (cv : Cv) : Pc Op Cv R → Nat
  | .leaving _ todo _ => todo.count (.all cv)
  | _ => 0

/-- Threads on the way to their check: woken from `cv`, or entering an operation that `e` counts. -/
def awakeOn (e : Op → Nat) (cv : Cv) : Pc Op Cv R → Nat
  | .woken _ c => if c = cv then 1 else 0
  | .entry op => e op
  | _ => 0

def flight (e : Op → Nat) (cv : Cv) (pc : Tid → Pc Op Cv R) : Nat :=
  total (onesOn cv) pc + total (awakeOn e cv) pc

/-- More threads sleep on `cv` than `notify_one` calls are outstanding. -/
def Stranded (cv : Cv) (pc : Tid → Pc Op Cv R) : Prop := total (onesOn cv) pc < total (asleepOn cv) pc

/-- While threads are stranded on `cv`, a `notify_all` is outstanding or
`need` wakeups are in flight. -/
def Covered (e : Op → Nat) (cv : Cv) (need : Nat) (pc : Tid → Pc Op Cv R) : Prop :=
  Stranded cv pc → 0 < total (allsOn cv) pc ∨ need ≤ flight e cv pc

section
variable {e : Op → Nat} {cv : Cv}

@[simp] theorem asleepOn_wake (p : Pc Op Cv R) : asleepOn cv (p.wake cv) = 0 := by
  cases p with
  | asleep op c => by_cases h : c = cv <;> simp [Pc.wake, asleepOn, h]
  | _ => rfl

@[simp] theorem asleepOn_wake_ne {cv' : Cv} (h : cv' ≠ cv) (p : Pc Op Cv R) :
    asleepOn cv (p.wake cv') = asleepOn cv p := by
  cases p with
  | asleep op c => by_cases hc : c = cv' <;> simp [Pc.wake, asleepOn, hc, h]
  | _ => rfl

@[simp] theorem onesOn_wake (cv' : Cv) (p : Pc Op Cv R) : onesOn cv (p.wake cv') = onesOn cv p := by
  cases p with
  | asleep op c => by_cases hc : c = cv' <;> simp [Pc.wake, onesOn, hc]
  | _ => rfl

@[simp] theorem allsOn_wake (cv' : Cv) (p : Pc Op Cv R) : allsOn cv (p.wake cv') = allsOn cv p := by
  cases p with
  | asleep op c => by_cases hc : c = cv' <;> simp [Pc.wake, allsOn, hc]
  | _ => rfl

@[simp] theorem awakeOn_wake_ne {cv' : Cv} (h : cv' ≠ cv) (p : Pc Op Cv R) :
    awakeOn e cv (p.wake cv') = awakeOn e cv p := by
  cases p with
  | asleep op c => by_cases hc : c = cv' <;> simp [Pc.wake, awakeOn, hc, h]
  | _ => rfl

theorem ready_weights (cv : Cv) {p : Pc Op Cv R} {op : Op} {w : Bool} (h : p.ready = some (op, w)) :
    asleepOn cv p = 0 ∧ onesOn cv p = 0 ∧ allsOn cv p = 0 := by
  cases p <;> simp_all [Pc.ready, asleepOn, onesOn, allsOn]

omit [DecidableEq Tid] in
theorem nobody_asleep {pc : Tid → Pc Op Cv R} (h : ∀ u, (pc u).sleepsOn cv = false) :
    total (asleepOn cv) pc = 0 := by
  apply Nat.eq_zero_of_not_pos
  intro hp
  obtain ⟨u, hu⟩ := total_pos.mp hp
  have := h u
  cases hpc : pc u <;> simp_all [Pc.sleepsOn, asleepOn]

theorem start_not_stranded (M : Monitor D Op Cv R) (calls : Tid → Op → Bool) :
    ¬ Stranded cv (M.machine calls).start.pc := by
  have : total (asleepOn cv) (M.machine calls).start.pc = 0 := Finset.sum_eq_zero fun _ _ => rfl
  unfold Stranded
  omega

omit [DecidableEq Tid] in
theorem nothing_outstanding (cv : Cv) {pc : Tid → Pc Op Cv R} (h : ∀ u, (pc u).notifies = false) :
    total (onesOn cv) pc = 0 ∧ total (allsOn cv) pc = 0 := by
  have todo : ∀ u op l r, pc u = .leaving op l r → l = [] := by
    intro u op l r hpc
    have := h u
    rw [hpc] at this
    simpa [Pc.notifies] using this
  constructor
  all_goals
    apply Finset.sum_eq_zero
    intro u _
    cases hpc : pc u with
    | leaving op l r => rw [todo u op l r hpc]; rfl
    | _ => rfl

/-- A delivered notification only moves sleepers of its own variable to the
woken threads; after a `notify_one` that wakes nobody, nobody sleeps. -/
theorem Delivers.totals {pc pc' : Tid → Pc Op Cv R} {n : Notify Cv} (h : Delivers pc n pc') (e : Op → Nat) (cv : Cv) :
    total (onesOn cv) pc' = total (onesOn cv) pc ∧ total (allsOn cv) pc' = total (allsOn cv) pc ∧
    (n = .one cv → total (asleepOn cv) pc' = 0 ∨ total (asleepOn cv) pc' + 1 = total (asleepOn cv) pc ∧
      total (awakeOn e cv) pc' = total (awakeOn e cv) pc + 1) ∧
    (n = .all cv → total (asleepOn cv) pc' = 0) ∧
    (n ≠ .one cv → n ≠ .all cv → total (asleepOn cv) pc' = total (asleepOn cv) pc ∧
      total (awakeOn e cv) pc' = total (awakeOn e cv) pc) := by
  cases h with
  | @wakes c u op hu =>
    have h1 := total_update (onesOn cv) pc u (.woken op c)
    have h2 := total_update (allsOn cv) pc u (.woken op c)
    have h3 := total_update (asleepOn cv) pc u (.woken op c)
    have h4 := total_update (awakeOn e cv) pc u (.woken op c)
    rw [hu] at h1 h2 h3 h4
    by_cases hc : c = cv
    · subst hc
      simp only [onesOn, allsOn, asleepOn, awakeOn, ite_true] at h1 h2 h3 h4
      exact ⟨by omega, by omega, fun _ => .inr ⟨by omega, by omega⟩, nofun, fun h => absurd rfl h⟩
    · simp only [onesOn, allsOn, asleepOn, awakeOn, hc, ite_false] at h1 h2 h3 h4
      exact ⟨by omega, by omega, fun h => absurd (Notify.one.inj h) hc, nofun,
        fun _ _ => ⟨by omega, by omega⟩⟩
  | nobody hn =>
    refine ⟨rfl, rfl, fun h => ?_, nofun, fun _ _ => ⟨rfl, rfl⟩⟩
    cases h
    exact .inl (nobody_asleep hn)
  | @everybody c =>
    refine ⟨total_congr fun u => onesOn_wake .., total_congr fun u => allsOn_wake .., nofun, fun h => ?_,
      fun _ h => ?_⟩
    · cases h
      unfold total
      simp
    · have hc : c ≠ cv := fun hc => h (congrArg _ hc)
      exact ⟨total_congr fun u => asleepOn_wake_ne hc _, total_congr fun u => awakeOn_wake_ne hc _⟩

end

end Monitor

end Interleave
