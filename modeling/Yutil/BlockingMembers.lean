import Yutil.QueueObjects
import Yutil.Wider

/-!
# The members of `MutexBlockingQueue`

Beside the calls that the other blocking queues have it has `closed()`,
`size()` and a `wait_pop()` that returns an optional. They look at one instant
of the FIFO, and no wakeup is lost to them.
-/

namespace Yutil

open Interleave Monitor

variable {T : Type}

/-- The calls; `returns` says whether the value popped gets into the optional. -/
inductive BlockingOp (T : Type)
  | call (op : DequeOp T)
  | waitPopOptional (assigns returns : Bool)
  | closed
  | size

/-- What a call hands back. A value that does not get into the optional is lost with the exception. -/
inductive BlockingRes (T : Type)
  | result (r : Res T)
  | lost (v : T)
  | flag (closed : Bool)
  | count (size : Nat)

namespace MutexBlockingQueue

def optional (returns : Bool) : Res T → BlockingRes T
  | .popped (some v) => if returns then .result (.popped (some v)) else .lost v
  | r => .result r

def members : Monitor (Deque T) (BlockingOp T) Cv (BlockingRes T) where
  start := monitor.start
  sect op woken d :=
    match op with
    | .call op => (monitor.sect op woken d).map .result
    | .waitPopOptional assigns returns => (monitor.sect (.waitPop assigns) woken d).map (optional returns)
    | .closed => .leave d none [] (.flag d.closed)
    | .size => .leave d none [] (.count d.queue.length)

end MutexBlockingQueue

def Fifo.withMembers (T : Type) : Immediate (Fifo T) (BlockingOp T) (BlockingRes T) where
  start := Fifo.empty
  answer op f :=
    match op with
    | .call op => ((Fifo.unbounded T).answer op f).map fun x => (x.1, .result x.2)
    | .waitPopOptional assigns returns =>
      match f.items with
      | [] => if f.closed then some (f, .result (.popped none)) else none
      | v :: rest =>
        if assigns then some (⟨rest, f.closed⟩, if returns then .result (.popped (some v)) else .lost v)
        else some (f, .result .threw)
    | .closed => some (f, .flag f.closed)
    | .size => some (f, .count f.items.length)

/-! ## The histories -/

theorem optional_answer (assigns returns : Bool) (f : Fifo T) : (Fifo.withMembers T).answer (.waitPopOptional assigns returns) f =
    ((Fifo.unbounded T).answer (.waitPop assigns) f).map fun x => (x.1, MutexBlockingQueue.optional returns x.2) := by
  obtain ⟨items, closed⟩ := f
  cases items with
  | nil => cases closed <;> rfl
  | cons v rest => cases closed <;> cases assigns <;> cases returns <;> rfl

theorem blocking_base : (MutexBlockingQueue.monitor (T := T)).Realizes (Fifo.unbounded T) (fun _ => True) Deque.abs :=
  deque_realizes MutexBlockingQueue.emplace_eq waits_waitPop waitPop_open waitPop_ok

theorem base_realizes {op : DequeOp T} (res : Res T → BlockingRes T) {x : BlockingOp T}
    (hsect : ∀ w d, MutexBlockingQueue.members.sect x w d = (MutexBlockingQueue.monitor.sect op w d).map res)
    (hanswer : ∀ f, (Fifo.withMembers T).answer x f = ((Fifo.unbounded T).answer op f).map fun y => (y.1, res y.2)) :
    (∀ w d d' c, MutexBlockingQueue.members.sect x w d = .sleep d' c → d'.abs = d.abs ∧ (Fifo.withMembers T).answer x d.abs = none) ∧
    ∀ w d d' held later r, MutexBlockingQueue.members.sect x w d = .leave d' held later r →
      (Fifo.withMembers T).answer x d.abs = some (d'.abs, r) := by
  constructor
  · intro w d d' c hx
    rw [hsect] at hx
    cases hb : MutexBlockingQueue.monitor.sect op w d with
    | sleep d₁ c₁ =>
      rw [hb] at hx
      cases hx
      obtain ⟨-, habs, hnone⟩ := blocking_base.sleep trivial hb
      exact ⟨habs, by rw [hanswer, hnone]; rfl⟩
    | leave d₁ held later r =>
      rw [hb] at hx
      cases hx
  · intro w d d' held later r hx
    rw [hsect] at hx
    cases hb : MutexBlockingQueue.monitor.sect op w d with
    | sleep d₁ c₁ =>
      rw [hb] at hx
      cases hx
    | leave d₁ held₁ later₁ r₁ =>
      rw [hb] at hx
      cases hx
      obtain ⟨-, hsome⟩ := blocking_base.leave trivial hb
      rw [hanswer, hsome]
      rfl

theorem members_realize : (MutexBlockingQueue.members (T := T)).Realizes (Fifo.withMembers T) (fun _ => True) Deque.abs where
  start := trivial
  value := rfl
  sleep := by
    intro op w d d' c _ hx
    cases op with
    | call op => exact ⟨trivial, (base_realizes .result (fun _ _ => rfl) fun _ => rfl).1 w d d' c hx⟩
    | waitPopOptional assigns returns =>
      exact ⟨trivial, (base_realizes _ (fun _ _ => rfl) (optional_answer assigns returns)).1 w d d' c hx⟩
    | closed | size => cases hx
  leave := by
    intro op w d d' held later r _ hx
    cases op with
    | call op => exact ⟨trivial, (base_realizes .result (fun _ _ => rfl) fun _ => rfl).2 w d d' held later r hx⟩
    | waitPopOptional assigns returns =>
      exact ⟨trivial, (base_realizes _ (fun _ _ => rfl) (optional_answer assigns returns)).2 w d d' held later r hx⟩
    | closed | size =>
      cases hx
      exact ⟨trivial, rfl⟩

/-! ## Wakeups -/

def BlockingOp.base : BlockingOp T → Option (DequeOp T)
  | .call op => some op
  | .waitPopOptional assigns _ => some (.waitPop assigns)
  | .closed | .size => none

def BlockingRes.base : BlockingRes T → Res T
  | .result r => r
  | .lost v => .popped (some v)
  | .flag _ | .count _ => .closed

def BlockingOp.takes : BlockingOp T → Bool
  | .call op => op.takes
  | .waitPopOptional assigns _ => assigns
  | .closed | .size => true

theorem base_optional (returns : Bool) (r : Res T) : (MutexBlockingQueue.optional returns r).base = r := by
  cases r with
  | popped out => cases out <;> cases returns <;> rfl
  | _ => rfl

theorem members_widen :
    (MutexBlockingQueue.members (T := T)).Widens MutexBlockingQueue.monitor BlockingOp.base BlockingRes.base where
  start := rfl
  same := by
    intro o p hb w d
    cases o with
    | call op =>
      cases hb
      exact Exit.map_back (fun _ => rfl) _
    | waitPopOptional assigns returns =>
      cases hb
      exact Exit.map_back (base_optional returns) _
    | closed | size => cases hb
  reads := by
    intro o hb w d
    cases o with
    | closed | size => exact ⟨_, rfl⟩
    | _ => cases hb

section
variable {Tid : Type} [Fintype Tid]

/-- What counts the sleepers and the wakeups on their way does not see the readers. -/
theorem total_narrow {f : Pc (BlockingOp T) Cv (BlockingRes T) → Nat} {g : Pc (DequeOp T) Cv (Res T) → Nat}
    {s : State Tid (Deque T) (BlockingOp T) Cv (BlockingRes T)} (hlight : ∀ u, (s.pc u).Light BlockingOp.base)
    (hfg : ∀ p : Pc (BlockingOp T) Cv (BlockingRes T), p.Light BlockingOp.base → g (p.narrow BlockingOp.base BlockingRes.base) = f p) :
    total g (s.narrow BlockingOp.base BlockingRes.base).pc = total f s.pc :=
  Finset.sum_congr rfl fun u _ => hfg _ (hlight u)

variable {p : Pc (BlockingOp T) Cv (BlockingRes T)} {base : BlockingOp T → Option (DequeOp T)} {res : BlockingRes T → Res T}

theorem asleepOn_narrow (hp : p.Light base) : asleepOn .cv (p.narrow base res) = asleepOn .cv p := by
  cases p with
  | idle => rfl
  | asleep o c =>
    cases hb : base o with
    | none => exact absurd hb hp
    | some q => simp [Pc.narrow, asleepOn, hb]
  | entry o | woken o c | leaving o todo r => cases hb : base o <;> simp [Pc.narrow, asleepOn, hb]

theorem awakeOn_narrow (hp : p.Light base) : awakeOn (fun _ => 0) .cv (p.narrow base res) = awakeOn (fun _ => 0) .cv p := by
  cases p with
  | idle => rfl
  | woken o c =>
    cases hb : base o with
    | none => exact absurd hb hp
    | some q => simp [Pc.narrow, awakeOn, hb]
  | entry o | asleep o c | leaving o todo r => cases hb : base o <;> simp [Pc.narrow, awakeOn, hb]

theorem onesOn_narrow (hp : p.Light base) : onesOn .cv (p.narrow base res) = onesOn .cv p := by
  cases p with
  | idle => rfl
  | leaving o todo r =>
    cases hb : base o with
    | none =>
      cases hp hb
      simp [Pc.narrow, onesOn, hb]
    | some q => simp [Pc.narrow, onesOn, hb]
  | entry o | asleep o c | woken o c => cases hb : base o <;> simp [Pc.narrow, onesOn, hb]

theorem allsOn_narrow (hp : p.Light base) : allsOn .cv (p.narrow base res) = allsOn .cv p := by
  cases p with
  | idle => rfl
  | leaving o todo r =>
    cases hb : base o with
    | none =>
      cases hp hb
      simp [Pc.narrow, allsOn, hb]
    | some q => simp [Pc.narrow, allsOn, hb]
  | entry o | asleep o c | woken o c => cases hb : base o <;> simp [Pc.narrow, allsOn, hb]

end

/-- **`MutexBlockingQueue` with all its members** is a FIFO that answers at once. With them, too, a sleeping consumer has a
wakeup on its way for each item, and none sleeps on a closed queue that nobody is about to notify. -/
theorem blocking_members :
    LooksLike (MutexBlockingQueue.members (T := T)) (Fifo.withMembers T) ∧
    (∀ (Tid : Type) [DecidableEq Tid] [Fintype Tid] (s : State Tid (Deque T) (BlockingOp T) Cv (BlockingRes T)),
      (MutexBlockingQueue.members.machine fun _ op => op.takes).Reachable s → 0 < total (asleepOn .cv) s.pc →
        0 < total (allsOn .cv) s.pc ∨
        s.data.queue.length ≤ total (onesOn .cv) s.pc + total (awakeOn (fun _ => 0) .cv) s.pc) ∧
    ∀ (Tid : Type) [DecidableEq Tid] [Fintype Tid] (calls : Tid → BlockingOp T → Bool)
      (s : State Tid (Deque T) (BlockingOp T) Cv (BlockingRes T)), (MutexBlockingQueue.members.machine calls).Reachable s →
      s.data.closed = true → ∀ u op v, s.pc u = .asleep op v →
        ∃ t todo r, s.pc t = .leaving (.call .close) todo r ∧ .all v ∈ todo := by
  refine ⟨fun _ _ _ _ _ => members_realize.shows, ?_, ?_⟩
  · intro Tid _ _ s hr hasleep
    have hcalls : ∀ (_ : Tid) (o : BlockingOp T) p, o.takes = true → o.base = some p → p.takes = true := by
      intro _ o p hc hb
      cases o with
      | call op | waitPopOptional assigns returns =>
        cases hb
        exact hc
      | closed | size => cases hb
    obtain ⟨hbase, hlight⟩ := members_widen.reachable hcalls hr
    have hnotifies : NeverUnderNotifies (MutexBlockingQueue.monitor (T := T)) :=
      deque_never_under_notifies (fun _ => true) MutexBlockingQueue.emplace_eq waits_waitPop fun _ _ _ _ _ _ => rfl
    have h := hnotifies Tid _ hbase
    unfold Notified at h
    rw [total_narrow hlight fun _ => asleepOn_narrow, total_narrow hlight fun _ => allsOn_narrow,
      total_narrow hlight fun _ => onesOn_narrow, total_narrow hlight fun _ => awakeOn_narrow] at h
    exact h hasleep
  · intro Tid _ _ calls s hr hclosed u op v hpc
    have hcalls : ∀ (t : Tid) (o : BlockingOp T) p, calls t o = true → o.base = some p → (fun _ _ => true) t p = true :=
      fun _ _ _ _ _ => rfl
    obtain ⟨hbase, hlight⟩ := members_widen.reachable hcalls hr
    have hreleases := (deque_releases (T := T) MutexBlockingQueue.emplace_eq waits_waitPop waitPop_open).1 Tid _ hbase hclosed
    have hu := hlight u
    rw [hpc] at hu
    obtain ⟨p, hp⟩ := Option.ne_none_iff_exists'.mp hu
    obtain ⟨t, todo, r, ht, hall⟩ := hreleases.1 u p v (by simp [State.narrow, hpc, Pc.narrow, hp])
    obtain ⟨o, r', hto, ho⟩ := Pc.leaving_of_narrow ht
    cases o with
    | call op =>
      cases ho
      exact ⟨t, todo, r', hto, hall⟩
    | _ => cases ho

end Yutil
