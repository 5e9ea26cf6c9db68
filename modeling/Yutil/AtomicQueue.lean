import Yutil.Machine
import Yutil.Counter
import Yutil.Capacity
import Yutil.Fifo

/-!
# The bounded atomic queues

`BoundedAtomicMpmcQueueV1` to `V3` run the same loops over cells with a
sequence number; `V2` and `V3` only lay the memory out differently, and `V3`
counts the failed attempts of a call. One step is one atomic load, store or
compare-exchange, one construction or one move out of a slot.
-/

namespace Yutil

open Interleave

structure Cell (N T : Type) where
  sequence : N
  /-- The object in the raw storage, if there is one. -/
  storage : Option T

structure AtomicQueue (N T : Type) where
  cells : Nat → Cell N T
  enqueuePos : N
  dequeuePos : N
  closed : Bool

/-- What a call hands back. A push also leaves its argument behind, which it
has not touched when it returns `false`. -/
inductive Reply (T : Type)
  | pushed (ok : Bool) (arg : T)
  | popped (out : Option T)
  | closed (first : Bool)
  | isClosed (closed : Bool)
  | threw
  deriving DecidableEq, Repr

inductive AtomicOp (T : Type)
  | emplace (arg : T)
  | tryPop
  | close
  | isClosed
  deriving DecidableEq, Repr

/-- Where a thread is: the step it makes next, with its locals. A finished
call keeps the ticket it claimed. -/
inductive Frame (N T : Type)
  | idle
  | checkClosed (arg : T)
  | loadEnqueue (arg : T) (spins : Nat)
  | loadSequence (arg : T) (pos : N) (spins : Nat)
  | claim (arg : T) (pos : N) (spins : Nat)
  | construct (arg : T) (pos : N)
  | publish (arg : T) (pos : N)
  | loadDequeue (spins : Nat)
  | loadSequencePop (pos : N) (spins : Nat)
  | claimPop (pos : N) (spins : Nat)
  | moveOut (pos : N)
  | destroy (pos : N) (out : T)
  | release (pos : N) (out : T)
  | exchangeClosed
  | loadClosed
  | done (ticket : Option N) (r : Reply T)
  deriving DecidableEq, Repr

/-- How a thread moves: on, through a spuriously failing compare-exchange, or
out of an element operation that throws. -/
inductive Move
  | go
  | spurious
  | throws
  deriving DecidableEq, Repr

namespace AtomicQueue

variable {N T : Type} [Counter N]

def new (N T : Type) [Counter N] : AtomicQueue N T :=
  ⟨fun i => ⟨Counter.ofNat i, none⟩, Counter.ofNat 0, Counter.ofNat 0, false⟩

def cell (capacity : Nat) (q : AtomicQueue N T) (pos : N) : Cell N T := q.cells (Counter.slot capacity pos)

def store (capacity : Nat) (q : AtomicQueue N T) (pos : N) (sequence : N) : AtomicQueue N T :=
  { q with cells := Function.update q.cells (Counter.slot capacity pos) { q.cell capacity pos with sequence := sequence } }

def place (capacity : Nat) (q : AtomicQueue N T) (pos : N) (storage : Option T) : AtomicQueue N T :=
  { q with cells := Function.update q.cells (Counter.slot capacity pos) { q.cell capacity pos with storage := storage } }

variable [DecidableEq N] [Elem T]

def act (backoff : Nat → Nat) (capacity : Nat) (q : AtomicQueue N T) : Move → Frame N T → Option (AtomicQueue N T × Frame N T)
  | .go, .checkClosed arg => if q.closed then some (q, .done none (.pushed false arg)) else some (q, .loadEnqueue arg 0)
  | .go, .loadEnqueue arg spins => some (q, .loadSequence arg q.enqueuePos spins)
  | .go, .loadSequence arg pos spins =>
    let dif := Counter.dif (q.cell capacity pos).sequence pos
    if dif = 0 then some (q, .claim arg pos spins)
    else if dif < 0 then some (q, .done none (.pushed false arg))
    else some (q, .loadEnqueue arg (backoff spins))
  | .go, .claim arg pos spins =>
    if q.enqueuePos = pos then some ({ q with enqueuePos := Counter.plus pos 1 }, .construct arg pos)
    else some (q, .loadSequence arg q.enqueuePos (backoff spins))
  | .spurious, .claim arg _ spins => some (q, .loadSequence arg q.enqueuePos (backoff spins))
  | .go, .construct arg pos => some (q.place capacity pos (some arg), .publish (Elem.moved arg) pos)
  | .throws, .construct _ pos => some (q, .done (some pos) .threw)
  | .go, .publish arg pos => some (q.store capacity pos (Counter.plus pos 1), .done (some pos) (.pushed true arg))
  | .go, .loadDequeue spins => some (q, .loadSequencePop q.dequeuePos spins)
  | .go, .loadSequencePop pos spins =>
    let dif := Counter.dif (q.cell capacity pos).sequence (Counter.plus pos 1)
    if dif = 0 then some (q, .claimPop pos spins)
    else if dif < 0 then some (q, .done none (.popped none))
    else some (q, .loadDequeue (backoff spins))
  | .go, .claimPop pos spins =>
    if q.dequeuePos = pos then some ({ q with dequeuePos := Counter.plus pos 1 }, .moveOut pos)
    else some (q, .loadSequencePop q.dequeuePos (backoff spins))
  | .spurious, .claimPop _ spins => some (q, .loadSequencePop q.dequeuePos (backoff spins))
  | .go, .moveOut pos =>
    let value := (q.cell capacity pos).storage.getD default
    some (q.place capacity pos (some (Elem.moved value)), .destroy pos value)
  | .throws, .moveOut pos => some (q, .done (some pos) .threw)
  | .go, .destroy pos out => some (q.place capacity pos none, .release pos out)
  | .go, .release pos out => some (q.store capacity pos (Counter.plus pos capacity), .done (some pos) (.popped (some out)))
  | .go, .exchangeClosed => some ({ q with closed := true }, .done none (.closed (!q.closed)))
  | .go, .loadClosed => some (q, .done none (.isClosed q.closed))
  | _, _ => none

inductive Acts (backoff : Nat → Nat) (capacity : Nat) (q : AtomicQueue N T) :
    Move → Frame N T → AtomicQueue N T → Frame N T → Prop
  | refused {arg : T} : q.closed = true → Acts backoff capacity q .go (.checkClosed arg) q (.done none (.pushed false arg))
  | admitted {arg : T} : q.closed = false → Acts backoff capacity q .go (.checkClosed arg) q (.loadEnqueue arg 0)
  | loadEnqueue {arg : T} {spins : Nat} :
      Acts backoff capacity q .go (.loadEnqueue arg spins) q (.loadSequence arg q.enqueuePos spins)
  | ready {arg : T} {pos : N} {spins : Nat} : Counter.dif (q.cell capacity pos).sequence pos = 0 →
      Acts backoff capacity q .go (.loadSequence arg pos spins) q (.claim arg pos spins)
  | full {arg : T} {pos : N} {spins : Nat} : Counter.dif (q.cell capacity pos).sequence pos < 0 →
      Acts backoff capacity q .go (.loadSequence arg pos spins) q (.done none (.pushed false arg))
  | passed {arg : T} {pos : N} {spins : Nat} : 0 < Counter.dif (q.cell capacity pos).sequence pos →
      Acts backoff capacity q .go (.loadSequence arg pos spins) q (.loadEnqueue arg (backoff spins))
  | claim {arg : T} {pos : N} {spins : Nat} : q.enqueuePos = pos →
      Acts backoff capacity q .go (.claim arg pos spins) { q with enqueuePos := Counter.plus pos 1 } (.construct arg pos)
  | lost {m : Move} {arg : T} {pos : N} {spins : Nat} : m = .go ∧ q.enqueuePos ≠ pos ∨ m = .spurious →
      Acts backoff capacity q m (.claim arg pos spins) q (.loadSequence arg q.enqueuePos (backoff spins))
  | construct {arg : T} {pos : N} : Acts backoff capacity q .go (.construct arg pos) (q.place capacity pos (some arg))
      (.publish (Elem.moved arg) pos)
  | constructThrows {arg : T} {pos : N} :
      Acts backoff capacity q .throws (.construct arg pos) q (.done (some pos) .threw)
  | publish {arg : T} {pos : N} : Acts backoff capacity q .go (.publish arg pos)
      (q.store capacity pos (Counter.plus pos 1)) (.done (some pos) (.pushed true arg))
  | loadDequeue {spins : Nat} : Acts backoff capacity q .go (.loadDequeue spins) q (.loadSequencePop q.dequeuePos spins)
  | readyPop {pos : N} {spins : Nat} : Counter.dif (q.cell capacity pos).sequence (Counter.plus pos 1) = 0 →
      Acts backoff capacity q .go (.loadSequencePop pos spins) q (.claimPop pos spins)
  | empty {pos : N} {spins : Nat} : Counter.dif (q.cell capacity pos).sequence (Counter.plus pos 1) < 0 →
      Acts backoff capacity q .go (.loadSequencePop pos spins) q (.done none (.popped none))
  | passedPop {pos : N} {spins : Nat} : 0 < Counter.dif (q.cell capacity pos).sequence (Counter.plus pos 1) →
      Acts backoff capacity q .go (.loadSequencePop pos spins) q (.loadDequeue (backoff spins))
  | claimPop {pos : N} {spins : Nat} : q.dequeuePos = pos →
      Acts backoff capacity q .go (.claimPop pos spins) { q with dequeuePos := Counter.plus pos 1 } (.moveOut pos)
  | lostPop {m : Move} {pos : N} {spins : Nat} : m = .go ∧ q.dequeuePos ≠ pos ∨ m = .spurious →
      Acts backoff capacity q m (.claimPop pos spins) q (.loadSequencePop q.dequeuePos (backoff spins))
  | moveOut {pos : N} {value : T} : (q.cell capacity pos).storage.getD default = value →
      Acts backoff capacity q .go (.moveOut pos) (q.place capacity pos (some (Elem.moved value))) (.destroy pos value)
  | moveOutThrows {pos : N} : Acts backoff capacity q .throws (.moveOut pos) q (.done (some pos) .threw)
  | destroy {pos : N} {out : T} :
      Acts backoff capacity q .go (.destroy pos out) (q.place capacity pos none) (.release pos out)
  | release {pos : N} {out : T} : Acts backoff capacity q .go (.release pos out)
      (q.store capacity pos (Counter.plus pos capacity)) (.done (some pos) (.popped (some out)))
  | exchangeClosed : Acts backoff capacity q .go .exchangeClosed { q with closed := true } (.done none (.closed (!q.closed)))
  | loadClosed : Acts backoff capacity q .go .loadClosed q (.done none (.isClosed q.closed))

theorem act_spec {backoff : Nat → Nat} {capacity : Nat} {q q' : AtomicQueue N T} {m : Move} {f f' : Frame N T}
    (h : q.act backoff capacity m f = some (q', f')) : Acts backoff capacity q m f q' f' := by
  cases f with
  | idle => cases m <;> cases h
  | checkClosed arg =>
    cases m with
    | go =>
      simp only [act] at h
      split at h <;> cases h
      · exact .refused ‹_›
      · exact .admitted (Bool.eq_false_iff.mpr ‹_›)
    | _ => cases h
  | loadEnqueue arg spins =>
    cases m with
    | go => cases h; exact .loadEnqueue
    | _ => cases h
  | loadSequence arg pos spins =>
    cases m with
    | go =>
      simp only [act] at h
      split at h
      · cases h; exact .ready ‹_›
      · split at h <;> cases h
        · exact .full ‹_›
        · exact .passed (by omega)
    | _ => cases h
  | claim arg pos spins =>
    cases m with
    | go =>
      simp only [act] at h
      split at h <;> cases h
      · exact .claim ‹_›
      · exact .lost (.inl ⟨rfl, ‹_›⟩)
    | spurious => cases h; exact .lost (.inr rfl)
    | throws => cases h
  | construct arg pos =>
    cases m with
    | go => cases h; exact .construct
    | throws => cases h; exact .constructThrows
    | spurious => cases h
  | publish arg pos =>
    cases m with
    | go => cases h; exact .publish
    | _ => cases h
  | loadDequeue spins =>
    cases m with
    | go => cases h; exact .loadDequeue
    | _ => cases h
  | loadSequencePop pos spins =>
    cases m with
    | go =>
      simp only [act] at h
      split at h
      · cases h; exact .readyPop ‹_›
      · split at h <;> cases h
        · exact .empty ‹_›
        · exact .passedPop (by omega)
    | _ => cases h
  | claimPop pos spins =>
    cases m with
    | go =>
      simp only [act] at h
      split at h <;> cases h
      · exact .claimPop ‹_›
      · exact .lostPop (.inl ⟨rfl, ‹_›⟩)
    | spurious => cases h; exact .lostPop (.inr rfl)
    | throws => cases h
  | moveOut pos =>
    cases m with
    | go => cases h; exact .moveOut rfl
    | throws => cases h; exact .moveOutThrows
    | spurious => cases h
  | destroy pos out =>
    cases m with
    | go => cases h; exact .destroy
    | _ => cases h
  | release pos out =>
    cases m with
    | go => cases h; exact .release
    | _ => cases h
  | exchangeClosed =>
    cases m with
    | go => cases h; exact .exchangeClosed
    | _ => cases h
  | loadClosed =>
    cases m with
    | go => cases h; exact .loadClosed
    | _ => cases h
  | done k r => cases m <;> cases h

def enter : AtomicOp T → Frame N T
  | .emplace arg => .checkClosed arg
  | .tryPop => .loadDequeue 0
  | .close => .exchangeClosed
  | .isClosed => .loadClosed

end AtomicQueue

/-! ## Any number of threads -/

namespace Atomic

structure State (Tid N T : Type) where
  queue : AtomicQueue N T
  pc : Tid → Frame N T

inductive Label (Tid T : Type)
  | call (t : Tid) (op : AtomicOp T)
  | move (t : Tid) (m : Move)
  | ret (t : Tid)
  deriving DecidableEq, Repr

variable {Tid N T : Type} [DecidableEq Tid] [DecidableEq N] [Counter N] [Elem T]

def step (backoff : Nat → Nat) (capacity : Nat) (throwing : Bool) (s : State Tid N T) :
    Label Tid T → Option (State Tid N T)
  | .call t op =>
    match s.pc t with
    | .idle => some { s with pc := Function.update s.pc t (AtomicQueue.enter op) }
    | _ => none
  | .move t m =>
    if m = .throws ∧ throwing = false then none
    else (s.queue.act backoff capacity m (s.pc t)).map fun x => ⟨x.1, Function.update s.pc t x.2⟩
  | .ret t =>
    match s.pc t with
    | .done _ _ => some { s with pc := Function.update s.pc t .idle }
    | _ => none

def machine (Tid N T : Type) [DecidableEq Tid] [DecidableEq N] [Counter N] [Elem T] (backoff : Nat → Nat)
    (capacity : Nat) (throwing : Bool) : Machine (State Tid N T) (Label Tid T) where
  start := ⟨AtomicQueue.new N T, fun _ => .idle⟩
  step := step backoff capacity throwing

inductive Steps (backoff : Nat → Nat) (capacity : Nat) (throwing : Bool) (s : State Tid N T) :
    Label Tid T → State Tid N T → Prop
  | call {t : Tid} {op : AtomicOp T} : s.pc t = .idle →
      Steps backoff capacity throwing s (.call t op) ⟨s.queue, Function.update s.pc t (AtomicQueue.enter op)⟩
  | move {t : Tid} {m : Move} {q : AtomicQueue N T} {f : Frame N T} : (m = .throws → throwing = true) →
      s.queue.Acts backoff capacity m (s.pc t) q f →
      Steps backoff capacity throwing s (.move t m) ⟨q, Function.update s.pc t f⟩
  | ret {t : Tid} {k : Option N} {r : Reply T} : s.pc t = .done k r →
      Steps backoff capacity throwing s (.ret t) ⟨s.queue, Function.update s.pc t .idle⟩

theorem step_spec {backoff : Nat → Nat} {capacity : Nat} {throwing : Bool} {s s' : State Tid N T} {a : Label Tid T}
    (h : step backoff capacity throwing s a = some s') : Steps backoff capacity throwing s a s' := by
  cases a with
  | call t op =>
    simp only [step] at h
    split at h
    · rename_i hpc; cases h; exact .call hpc
    · cases h
  | move t m =>
    simp only [step] at h
    split at h
    · cases h
    · rename_i hm
      obtain ⟨x, hx, rfl⟩ := Option.map_eq_some_iff.mp h
      refine .move (fun he => ?_) (AtomicQueue.act_spec hx)
      cases hb : throwing with
      | true => rfl
      | false => exact absurd ⟨he, hb⟩ hm
  | ret t =>
    simp only [step] at h
    split at h
    · rename_i hpc; cases h; exact .ret hpc
    · cases h

end Atomic

/-! ## The classes -/

namespace BoundedAtomicMpmcQueueV1

def backoff (spins : Nat) : Nat := spins

def machine (Tid T : Type) [DecidableEq Tid] [Elem T] (capacity : BitVec 64) (throwing : Bool) :
    Machine (Atomic.State Tid (BitVec 64) T) (Atomic.Label Tid T) :=
  Atomic.machine Tid (BitVec 64) T backoff capacity.toNat throwing

end BoundedAtomicMpmcQueueV1

namespace BoundedAtomicMpmcQueueV2

def backoff (spins : Nat) : Nat := spins

def machine (Tid T : Type) [DecidableEq Tid] [Elem T] (capacity : BitVec 64) (throwing : Bool) :
    Machine (Atomic.State Tid (BitVec 64) T) (Atomic.Label Tid T) :=
  Atomic.machine Tid (BitVec 64) T backoff capacity.toNat throwing

end BoundedAtomicMpmcQueueV2

namespace BoundedAtomicMpmcQueueV3

/-- `fail_spins` goes back to zero when the thread yields. -/
def backoff (spins : Nat) : Nat := if spins + 1 > 64 then 0 else spins + 1

def machine (Tid T : Type) [DecidableEq Tid] [Elem T] (capacity : BitVec 64) (throwing : Bool) :
    Machine (Atomic.State Tid (BitVec 64) T) (Atomic.Label Tid T) :=
  Atomic.machine Tid (BitVec 64) T backoff capacity.toNat throwing

end BoundedAtomicMpmcQueueV3

inductive AtomicVersion
  | V1
  | V2
  | V3

namespace AtomicVersion

def backoff : AtomicVersion → Nat → Nat
  | .V1 => BoundedAtomicMpmcQueueV1.backoff
  | .V2 => BoundedAtomicMpmcQueueV2.backoff
  | .V3 => BoundedAtomicMpmcQueueV3.backoff

def machine (version : AtomicVersion) (Tid T : Type) [DecidableEq Tid] [Elem T] (capacity : BitVec 64) (throwing : Bool) :
    Machine (Atomic.State Tid (BitVec 64) T) (Atomic.Label Tid T) :=
  match version with
  | .V1 => BoundedAtomicMpmcQueueV1.machine Tid T capacity throwing
  | .V2 => BoundedAtomicMpmcQueueV2.machine Tid T capacity throwing
  | .V3 => BoundedAtomicMpmcQueueV3.machine Tid T capacity throwing

theorem machine_eq (version : AtomicVersion) (Tid T : Type) [DecidableEq Tid] [Elem T] (capacity : BitVec 64)
    (throwing : Bool) : version.machine Tid T capacity throwing =
      Atomic.machine Tid (BitVec 64) T version.backoff capacity.toNat throwing := by
  cases version <;> rfl

end AtomicVersion

end Yutil
