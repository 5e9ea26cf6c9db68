import Yutil.AtomicQueue
import Yutil.Views

/-!
# The memory orders of the atomic queues

The accesses of a thread one by one, as a program for a memory of views: the
positions are loaded and exchanged relaxed, a sequence number is loaded with
acquire and stored with release, and `closed_` is exchanged with release and
loaded with acquire. With one memory for all threads the program is the
machine of the queue.
-/

namespace Yutil

open Interleave

namespace Atomic

inductive Place
  | enqueue
  | dequeue
  | closed
  | sequence (i : Nat)
  deriving DecidableEq, Repr

abbrev Word (N : Type) : Place → Type
  | .enqueue => N
  | .dequeue => N
  | .closed => Bool
  | .sequence _ => N

inductive Env (T : Type)
  | enter (op : AtomicOp T)
  | leave
  deriving DecidableEq, Repr

section
variable {Tid N T : Type}

def callOrReturn : Env T → Frame N T → Option (Frame N T)
  | .enter op, .idle => some (AtomicQueue.enter op)
  | .leave, .done _ _ => some .idle
  | _, _ => none

variable [Counter N] [DecidableEq N] [Elem T]

/-- `compare_exchange_weak(pos, pos + 1)`, unless it fails spuriously. -/
def exchange (pos x : N) : Option N := if x = pos then some (Counter.plus pos 1) else none

def access (backoff : Nat → Nat) (capacity : Nat) : Move → Frame N T → Option (Action (Word N) Nat (Option T) (Frame N T))
  | .go, .checkClosed arg =>
    some (.load true .closed fun closed => if closed then .done none (.pushed false arg) else .loadEnqueue arg 0)
  | .go, .loadEnqueue arg spins => some (.load false .enqueue fun pos => .loadSequence arg pos spins)
  | .go, .loadSequence arg pos spins =>
    some (.load true (.sequence (Counter.slot capacity pos)) fun seq =>
      if Counter.dif seq pos = 0 then .claim arg pos spins
      else if Counter.dif seq pos < 0 then .done none (.pushed false arg)
      else .loadEnqueue arg (backoff spins))
  | .go, .claim arg pos spins =>
    some (.update false .enqueue (exchange pos) (fun _ => .construct arg pos) fun x => .loadSequence arg x (backoff spins))
  | .spurious, .claim arg _ spins => some (.load false .enqueue fun x => .loadSequence arg x (backoff spins))
  | .go, .construct arg pos =>
    some (.access (Counter.slot capacity pos) (fun _ => some arg) fun _ => .publish (Elem.moved arg) pos)
  | .throws, .construct _ pos => some (.access (Counter.slot capacity pos) id fun _ => .done (some pos) .threw)
  | .go, .publish arg pos =>
    some (.store true (.sequence (Counter.slot capacity pos)) (Counter.plus pos 1) (.done (some pos) (.pushed true arg)))
  | .go, .loadDequeue spins => some (.load false .dequeue fun pos => .loadSequencePop pos spins)
  | .go, .loadSequencePop pos spins =>
    some (.load true (.sequence (Counter.slot capacity pos)) fun seq =>
      if Counter.dif seq (Counter.plus pos 1) = 0 then .claimPop pos spins
      else if Counter.dif seq (Counter.plus pos 1) < 0 then .done none (.popped none)
      else .loadDequeue (backoff spins))
  | .go, .claimPop pos spins =>
    some (.update false .dequeue (exchange pos) (fun _ => .moveOut pos) fun x => .loadSequencePop x (backoff spins))
  | .spurious, .claimPop _ spins => some (.load false .dequeue fun x => .loadSequencePop x (backoff spins))
  | .go, .moveOut pos =>
    some (.access (Counter.slot capacity pos) (fun x => some (Elem.moved (x.getD default))) fun x =>
      .destroy pos (x.getD default))
  | .throws, .moveOut pos => some (.access (Counter.slot capacity pos) id fun _ => .done (some pos) .threw)
  | .go, .destroy pos out => some (.access (Counter.slot capacity pos) (fun _ => none) fun _ => .release pos out)
  | .go, .release pos out =>
    some (.store true (.sequence (Counter.slot capacity pos)) (Counter.plus pos capacity) (.done (some pos) (.popped (some out))))
  | .go, .exchangeClosed =>
    some (.update true .closed (fun _ => some true) (fun closed => .done none (.closed (!closed)))
      fun closed => .done none (.closed (!closed)))
  | .go, .loadClosed => some (.load true .closed fun closed => .done none (.isClosed closed))
  | _, _ => none

variable (Tid T) in
def program (backoff : Nat → Nat) (capacity : Nat) (throwing : Bool) :
    Program Tid (Word N) Nat (Option T) (Frame N T) (Env T) Move where
  initial
    | .enqueue => Counter.ofNat 0
    | .dequeue => Counter.ofNat 0
    | .closed => false
    | .sequence i => Counter.ofNat i
  blank := none
  start _ := .idle
  env _ := callOrReturn
  act _ m f := if m = .throws ∧ throwing = false then none else access backoff capacity m f

/-! ## With one memory for all threads -/

end

section
variable {Tid N T : Type}

def memory (q : AtomicQueue N T) : Shared (Word N) Nat (Option T) where
  value
    | .enqueue => q.enqueuePos
    | .dequeue => q.dequeuePos
    | .closed => q.closed
    | .sequence i => (q.cells i).sequence
  plain i := (q.cells i).storage

def spread (y : State Tid N T) : Program.Interleaved Tid (Word N) Nat (Option T) (Frame N T) := ⟨memory y.queue, y.pc⟩

def gather (y : Program.Interleaved Tid (Word N) Nat (Option T) (Frame N T)) : State Tid N T :=
  ⟨⟨fun i => ⟨y.mem.value (.sequence i), y.mem.plain i⟩, y.mem.value .enqueue, y.mem.value .dequeue, y.mem.value .closed⟩, y.pc⟩

def label : Program.Label Tid (Env T) Move → Label Tid T
  | .env t (.enter op) => .call t op
  | .env t .leave => .ret t
  | .move t m => .move t m

theorem gather_spread (y : State Tid N T) : gather (spread y) = y := rfl

theorem label_surjective (b : Label Tid T) : ∃ a, label a = b := by
  cases b with
  | call t op => exact ⟨.env t (.enter op), rfl⟩
  | move t m => exact ⟨.move t m, rfl⟩
  | ret t => exact ⟨.env t .leave, rfl⟩

variable [Counter N] {q : AtomicQueue N T} {capacity : Nat}

omit [Counter N] in
theorem memory_enqueue (q : AtomicQueue N T) (x : N) :
    Function.update (memory q).value .enqueue x = (memory { q with enqueuePos := x }).value := by
  funext a
  cases a <;> rfl

omit [Counter N] in
theorem memory_dequeue (q : AtomicQueue N T) (x : N) :
    Function.update (memory q).value .dequeue x = (memory { q with dequeuePos := x }).value := by
  funext a
  cases a <;> rfl

omit [Counter N] in
theorem memory_closed (q : AtomicQueue N T) (x : Bool) :
    Function.update (memory q).value .closed x = (memory { q with closed := x }).value := by
  funext a
  cases a <;> rfl

theorem memory_store (q : AtomicQueue N T) (pos x : N) :
    (⟨Function.update (memory q).value (.sequence (Counter.slot capacity pos)) x, (memory q).plain⟩ : Shared (Word N) Nat (Option T)) =
      memory (q.store capacity pos x) := by
  refine congrArg₂ Shared.mk ?_ ?_
  · funext a
    cases a with
    | sequence i =>
      by_cases hi : i = Counter.slot capacity pos
      · subst hi
        simp [memory, AtomicQueue.store]
      · have hne : Place.sequence i ≠ .sequence (Counter.slot capacity pos) := fun h => hi (Place.sequence.inj h)
        simp [memory, AtomicQueue.store, Function.update_of_ne hne, Function.update_of_ne hi]
    | _ => rfl
  · funext i
    by_cases hi : i = Counter.slot capacity pos
    · subst hi
      simp [memory, AtomicQueue.store, AtomicQueue.cell]
    · simp [memory, AtomicQueue.store, Function.update_of_ne hi]

theorem memory_place (q : AtomicQueue N T) (pos : N) (x : Option T) :
    (⟨(memory q).value, Function.update (memory q).plain (Counter.slot capacity pos) x⟩ : Shared (Word N) Nat (Option T)) =
      memory (q.place capacity pos x) := by
  refine congrArg₂ Shared.mk ?_ ?_
  · funext a
    cases a with
    | sequence i =>
      by_cases hi : i = Counter.slot capacity pos
      · subst hi
        simp [memory, AtomicQueue.place, AtomicQueue.cell]
      · simp [memory, AtomicQueue.place, Function.update_of_ne hi]
    | _ => rfl
  · funext i
    by_cases hi : i = Counter.slot capacity pos
    · subst hi
      simp [memory, AtomicQueue.place]
    · simp [memory, AtomicQueue.place, Function.update_of_ne hi]

variable [DecidableEq N] [Elem T] {backoff : Nat → Nat}

theorem access_act (q : AtomicQueue N T) (m : Move) (f : Frame N T) :
    (access backoff capacity m f).map (memory q).run =
      (q.act backoff capacity m f).map fun x => (memory x.1, x.2) := by
  have placed : ∀ pos x (f' : Frame N T), some ((⟨(memory q).value,
      Function.update (memory q).plain (Counter.slot capacity pos) x⟩ : Shared (Word N) Nat (Option T)), f') =
        some (memory (q.place capacity pos x), f') := by
    intro pos x f'
    rw [memory_place]
  have stored : ∀ pos x (f' : Frame N T), some ((⟨Function.update (memory q).value (.sequence (Counter.slot capacity pos)) x,
      (memory q).plain⟩ : Shared (Word N) Nat (Option T)), f') = some (memory (q.store capacity pos x), f') := by
    intro pos x f'
    rw [memory_store]
  have same : ∀ (pos : N) (f' : Frame N T), some ((⟨(memory q).value,
      Function.update (memory q).plain (Counter.slot capacity pos) ((memory q).plain (Counter.slot capacity pos))⟩ :
        Shared (Word N) Nat (Option T)), f') = some (memory q, f') := by
    intro pos f'
    rw [Function.update_eq_self]
  cases m with
  | go =>
    cases f with
    | checkClosed arg =>
      simp only [access, AtomicQueue.act, Shared.run, Option.map_some]
      cases h : q.closed <;> simp [memory, h]
    | loadSequence arg pos spins =>
      simp only [access, AtomicQueue.act, Shared.run, Option.map_some]
      by_cases h0 : Counter.dif (q.cell capacity pos).sequence pos = 0
      · rw [if_pos h0]
        exact congrArg (fun f => some (memory q, f)) (if_pos h0)
      · rw [if_neg h0]
        by_cases h1 : Counter.dif (q.cell capacity pos).sequence pos < 0
        · rw [if_pos h1]
          exact congrArg (fun f => some (memory q, f)) ((if_neg h0).trans (if_pos h1))
        · rw [if_neg h1]
          exact congrArg (fun f => some (memory q, f)) ((if_neg h0).trans (if_neg h1))
    | claim arg pos spins =>
      simp only [access, AtomicQueue.act, Shared.run, Option.map_some]
      by_cases he : q.enqueuePos = pos
      · have hx : exchange pos ((memory q).value .enqueue) = some (Counter.plus pos 1) := if_pos he
        rw [if_pos he]
        simp only [hx]
        exact congrArg (fun value => some (Shared.mk value _, _)) (memory_enqueue q _)
      · have hx : exchange pos ((memory q).value .enqueue) = none := if_neg he
        rw [if_neg he]
        simp only [hx]
        rfl
    | construct arg pos => exact placed pos _ _
    | publish arg pos => exact stored pos _ _
    | loadSequencePop pos spins =>
      simp only [access, AtomicQueue.act, Shared.run, Option.map_some]
      by_cases h0 : Counter.dif (q.cell capacity pos).sequence (Counter.plus pos 1) = 0
      · rw [if_pos h0]
        exact congrArg (fun f => some (memory q, f)) (if_pos h0)
      · rw [if_neg h0]
        by_cases h1 : Counter.dif (q.cell capacity pos).sequence (Counter.plus pos 1) < 0
        · rw [if_pos h1]
          exact congrArg (fun f => some (memory q, f)) ((if_neg h0).trans (if_pos h1))
        · rw [if_neg h1]
          exact congrArg (fun f => some (memory q, f)) ((if_neg h0).trans (if_neg h1))
    | claimPop pos spins =>
      simp only [access, AtomicQueue.act, Shared.run, Option.map_some]
      by_cases he : q.dequeuePos = pos
      · have hx : exchange pos ((memory q).value .dequeue) = some (Counter.plus pos 1) := if_pos he
        rw [if_pos he]
        simp only [hx]
        exact congrArg (fun value => some (Shared.mk value _, _)) (memory_dequeue q _)
      · have hx : exchange pos ((memory q).value .dequeue) = none := if_neg he
        rw [if_neg he]
        simp only [hx]
        rfl
    | moveOut pos => exact placed pos _ _
    | destroy pos out => exact placed pos _ _
    | release pos out => exact stored pos _ _
    | exchangeClosed =>
      exact congrArg (fun value => some (Shared.mk value _, _)) (memory_closed q true)
    | _ => rfl
  | spurious => cases f <;> rfl
  | throws =>
    cases f with
    | construct arg pos => exact same pos _
    | moveOut pos => exact same pos _
    | _ => rfl

variable [DecidableEq Tid] {throwing : Bool}

/-- With one memory for all threads the program is the queue's machine. -/
theorem interleaved_step (y : State Tid N T) (a : Program.Label Tid (Env T) Move) :
    (program Tid T backoff capacity throwing).interleaved.step (spread y) a =
      (Atomic.step backoff capacity throwing y (label a)).map spread := by
  cases a with
  | env t e =>
    show (callOrReturn e (y.pc t)).map _ = _
    cases e with
    | enter op =>
      simp only [label, Atomic.step, callOrReturn]
      cases y.pc t <;> rfl
    | leave =>
      simp only [label, Atomic.step, callOrReturn]
      cases y.pc t <;> rfl
  | move t m =>
    show (if m = .throws ∧ throwing = false then none else access backoff capacity m (y.pc t)).map _ = _
    simp only [label, Atomic.step]
    by_cases hn : m = .throws ∧ throwing = false
    · rw [if_pos hn, if_pos hn]
      rfl
    · rw [if_neg hn, if_neg hn, Option.map_map]
      have h := congrArg (Option.map fun x => Program.Interleaved.mk x.1 (Function.update y.pc t x.2))
        (access_act y.queue m (y.pc t) : (access backoff capacity m (y.pc t)).map _ = (y.queue.act backoff capacity m (y.pc t)).map _)
      simp only [Option.map_map] at h
      exact h

theorem interleaved_reachable {y : State Tid N T} (h : (machine Tid N T backoff capacity throwing).Reachable y) :
    (program (N := N) Tid T backoff capacity throwing).interleaved.Reachable (spread y) := by
  refine h.invariant (I := fun y => (program (N := N) Tid T backoff capacity throwing).interleaved.Reachable (spread y)) ?_ ?_
  · have hstart : spread (machine Tid N T backoff capacity throwing).start =
        (program (N := N) Tid T backoff capacity throwing).interleaved.start := by
      refine congrArg₂ Program.Interleaved.mk (congrArg₂ Shared.mk ?_ rfl) rfl
      funext a
      cases a <;> rfl
    rw [hstart]
    exact .start
  · intro y b y' _ ih hs
    obtain ⟨a, rfl⟩ := label_surjective b
    have hs : Atomic.step backoff capacity throwing y (label a) = some y' := hs
    refine .step ih (a := a) ?_
    rw [interleaved_step, hs]
    rfl

end

end Atomic

namespace AtomicVersion

def program (version : AtomicVersion) (Tid T : Type) [Elem T] (capacity : BitVec 64) (throwing : Bool) :
    Program Tid (Atomic.Word (BitVec 64)) Nat (Option T) (Frame (BitVec 64) T) (Atomic.Env T) Move :=
  Atomic.program Tid T version.backoff capacity.toNat throwing

end AtomicVersion

variable {Tid T : Type} [DecidableEq Tid] [Elem T] {capacity : BitVec 64} {throwing : Bool}

/-- **The machines of the queues are a part of this.** Every state of a run in
which each step sees the last stores is one that a run on the memory of views
reaches. -/
theorem atomic_runs_viewed (version : AtomicVersion) {y : Atomic.State Tid (BitVec 64) T}
    (h : (version.machine Tid T capacity throwing).Reachable y) :
    ∃ s, (version.program Tid T capacity throwing).viewed.Reachable s ∧ Atomic.gather s.latest = y := by
  rw [AtomicVersion.machine_eq] at h
  obtain ⟨log, hlog⟩ := Machine.reachable_logged (fun _ _ => ([] : List Unit)) (Atomic.interleaved_reachable h)
  obtain ⟨s, hs, hy⟩ := Program.of_interleaved _ hlog
  exact ⟨s, Machine.logged_reachable hs, by rw [hy]; exact Atomic.gather_spread y⟩

end Yutil
