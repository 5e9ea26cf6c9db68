import Yutil.Machine
import Yutil.Counter
import Yutil.Capacity
import Yutil.Fifo

/-!
# The queue of one producer and one consumer

`SpscBoundedQueue`: each side owns one counter and keeps a copy of the other
side's. One step is one atomic load or store, one construction, or one move
out of a slot; what a side does to its own copy belongs to the step before.
-/

namespace Yutil

open Interleave

structure SpscBoundedQueue (T : Type) where
  /-- The objects in the raw storage. -/
  storage : Nat → Option T
  head : BitVec 64
  tail : BitVec 64
  headCache : BitVec 64
  tailCache : BitVec 64

namespace SpscBoundedQueue

variable {T : Type}

def new (T : Type) : SpscBoundedQueue T := ⟨fun _ => none, 0, 0, 0, 0⟩

/-- `index & mask_`. -/
def index (capacity pos : BitVec 64) : Nat := (pos &&& (capacity - 1)).toNat

def ptr (capacity : BitVec 64) (q : SpscBoundedQueue T) (pos : BitVec 64) : Option T := q.storage (index capacity pos)

def put (capacity : BitVec 64) (q : SpscBoundedQueue T) (pos : BitVec 64) (x : Option T) : SpscBoundedQueue T :=
  { q with storage := Function.update q.storage (index capacity pos) x }

inductive Producer (T : Type)
  | idle
  | loadTail (arg : T)
  | loadHead (arg : T) (tail : BitVec 64)
  | construct (arg : T) (tail : BitVec 64)
  | storeTail (value : T) (tail : BitVec 64)
  | done (ok : Bool) (arg : T)
  | threw
  deriving DecidableEq, Repr

inductive Consumer (T : Type)
  | idle
  | loadHead
  | loadTail (head : BitVec 64)
  | moveOut (head : BitVec 64)
  | destroy (head : BitVec 64) (out : T)
  | storeHead (head : BitVec 64) (out : T)
  | done (out : Option T)
  | threw
  deriving DecidableEq, Repr

variable [Elem T]

/-- A step of `emplace`; only the construction can throw. -/
def emplace (capacity : BitVec 64) (q : SpscBoundedQueue T) : Bool → Producer T → Option (SpscBoundedQueue T × Producer T)
  | false, .loadTail arg =>
    if q.tail + 1 - q.headCache > capacity then some (q, .loadHead arg q.tail) else some (q, .construct arg q.tail)
  | false, .loadHead arg tail =>
    if tail + 1 - q.head > capacity then some ({ q with headCache := q.head }, .done false arg)
    else some ({ q with headCache := q.head }, .construct arg tail)
  | false, .construct arg tail => some (q.put capacity tail (some arg), .storeTail arg tail)
  | true, .construct _ _ => some (q, .threw)
  | false, .storeTail value tail => some ({ q with tail := tail + 1 }, .done true (Elem.moved value))
  | _, _ => none

/-- A step of `try_pop`; only the move out of the slot can throw. -/
def tryPop (capacity : BitVec 64) (q : SpscBoundedQueue T) : Bool → Consumer T → Option (SpscBoundedQueue T × Consumer T)
  | false, .loadHead => if q.tailCache = q.head then some (q, .loadTail q.head) else some (q, .moveOut q.head)
  | false, .loadTail head =>
    if q.tail = head then some ({ q with tailCache := q.tail }, .done none)
    else some ({ q with tailCache := q.tail }, .moveOut head)
  | false, .moveOut head =>
    let value := (q.ptr capacity head).getD default
    some (q.put capacity head (some (Elem.moved value)), .destroy head value)
  | true, .moveOut _ => some (q, .threw)
  | false, .destroy head out => some (q.put capacity head none, .storeHead head out)
  | false, .storeHead head out => some ({ q with head := head + 1 }, .done (some out))
  | _, _ => none

omit [Elem T] in
/-- `drain()`, when its loop ends within `fuel` rounds: the positions it visits, with what it destroys there. -/
def drain (capacity : BitVec 64) (fuel : Nat) (q : SpscBoundedQueue T) :
    Option (SpscBoundedQueue T × List (BitVec 64 × Option T)) :=
  let rec loop (tail : BitVec 64) : Nat → SpscBoundedQueue T → BitVec 64 →
      Option (SpscBoundedQueue T × List (BitVec 64 × Option T))
    | 0, _, _ => none
    | fuel + 1, q, head =>
      if head ≠ tail then
        (loop tail fuel (q.put capacity head none) (head + 1)).map fun x => (x.1, (head, q.ptr capacity head) :: x.2)
      else some (q, [])
  loop q.tail fuel q q.head

inductive Emplaces (capacity : BitVec 64) (q : SpscBoundedQueue T) :
    Bool → Producer T → SpscBoundedQueue T → Producer T → Prop
  | stale {arg : T} : q.tail + 1 - q.headCache > capacity →
      Emplaces capacity q false (.loadTail arg) q (.loadHead arg q.tail)
  | cached {arg : T} : ¬ q.tail + 1 - q.headCache > capacity →
      Emplaces capacity q false (.loadTail arg) q (.construct arg q.tail)
  | full {arg : T} {tail : BitVec 64} : tail + 1 - q.head > capacity →
      Emplaces capacity q false (.loadHead arg tail) { q with headCache := q.head } (.done false arg)
  | room {arg : T} {tail : BitVec 64} : ¬ tail + 1 - q.head > capacity →
      Emplaces capacity q false (.loadHead arg tail) { q with headCache := q.head } (.construct arg tail)
  | construct {arg : T} {tail : BitVec 64} :
      Emplaces capacity q false (.construct arg tail) (q.put capacity tail (some arg)) (.storeTail arg tail)
  | throws {arg : T} {tail : BitVec 64} : Emplaces capacity q true (.construct arg tail) q .threw
  | storeTail {value : T} {tail : BitVec 64} :
      Emplaces capacity q false (.storeTail value tail) { q with tail := tail + 1 } (.done true (Elem.moved value))

inductive Pops (capacity : BitVec 64) (q : SpscBoundedQueue T) :
    Bool → Consumer T → SpscBoundedQueue T → Consumer T → Prop
  | stale : q.tailCache = q.head → Pops capacity q false .loadHead q (.loadTail q.head)
  | cached : q.tailCache ≠ q.head → Pops capacity q false .loadHead q (.moveOut q.head)
  | empty {head : BitVec 64} : q.tail = head →
      Pops capacity q false (.loadTail head) { q with tailCache := q.tail } (.done none)
  | item {head : BitVec 64} : q.tail ≠ head →
      Pops capacity q false (.loadTail head) { q with tailCache := q.tail } (.moveOut head)
  | moveOut {head : BitVec 64} {value : T} : value = (q.ptr capacity head).getD default →
      Pops capacity q false (.moveOut head) (q.put capacity head (some (Elem.moved value))) (.destroy head value)
  | throws {head : BitVec 64} : Pops capacity q true (.moveOut head) q .threw
  | destroy {head : BitVec 64} {out : T} :
      Pops capacity q false (.destroy head out) (q.put capacity head none) (.storeHead head out)
  | storeHead {head : BitVec 64} {out : T} :
      Pops capacity q false (.storeHead head out) { q with head := head + 1 } (.done (some out))

variable {capacity : BitVec 64} {q q' : SpscBoundedQueue T} {throws : Bool}

theorem emplace_spec {f f' : Producer T} (h : q.emplace capacity throws f = some (q', f')) :
    Emplaces capacity q throws f q' f' := by
  cases f with
  | loadTail arg =>
    cases throws with
    | true => cases h
    | false =>
      simp only [emplace] at h
      split at h <;> cases h
      · exact .stale ‹_›
      · exact .cached ‹_›
  | loadHead arg tail =>
    cases throws with
    | true => cases h
    | false =>
      simp only [emplace] at h
      split at h <;> cases h
      · exact .full ‹_›
      · exact .room ‹_›
  | construct arg tail =>
    cases throws with
    | true => cases h; exact .throws
    | false => cases h; exact .construct
  | storeTail value tail =>
    cases throws with
    | true => cases h
    | false => cases h; exact .storeTail
  | _ => cases throws <;> cases h

theorem tryPop_spec {f f' : Consumer T} (h : q.tryPop capacity throws f = some (q', f')) :
    Pops capacity q throws f q' f' := by
  cases f with
  | loadHead =>
    cases throws with
    | true => cases h
    | false =>
      simp only [tryPop] at h
      split at h <;> cases h
      · exact .stale ‹_›
      · exact .cached ‹_›
  | loadTail head =>
    cases throws with
    | true => cases h
    | false =>
      simp only [tryPop] at h
      split at h <;> cases h
      · exact .empty ‹_›
      · exact .item ‹_›
  | moveOut head =>
    cases throws with
    | true => cases h; exact .throws
    | false => cases h; exact .moveOut rfl
  | destroy head out =>
    cases throws with
    | true => cases h
    | false => cases h; exact .destroy
  | storeHead head out =>
    cases throws with
    | true => cases h
    | false => cases h; exact .storeHead
  | _ => cases throws <;> cases h

end SpscBoundedQueue

/-! ## The two threads -/

namespace Spsc

open SpscBoundedQueue

structure State (T : Type) where
  queue : SpscBoundedQueue T
  producer : Producer T
  consumer : Consumer T

inductive Label (T : Type)
  | emplace (arg : T)
  | producer (throws : Bool)
  | pushed
  | tryPop
  | consumer (throws : Bool)
  | popped
  deriving DecidableEq, Repr

variable {T : Type} [Elem T]

def step (capacity : BitVec 64) (throwing : Bool) (s : State T) : Label T → Option (State T)
  | .emplace arg =>
    match s.producer with
    | .idle => some { s with producer := .loadTail arg }
    | _ => none
  | .producer throws =>
    if throws ∧ throwing = false then none
    else (s.queue.emplace capacity throws s.producer).map fun x => { s with queue := x.1, producer := x.2 }
  | .pushed =>
    match s.producer with
    | .done _ _ | .threw => some { s with producer := .idle }
    | _ => none
  | .tryPop =>
    match s.consumer with
    | .idle => some { s with consumer := .loadHead }
    | _ => none
  | .consumer throws =>
    if throws ∧ throwing = false then none
    else (s.queue.tryPop capacity throws s.consumer).map fun x => { s with queue := x.1, consumer := x.2 }
  | .popped =>
    match s.consumer with
    | .done _ | .threw => some { s with consumer := .idle }
    | _ => none

def machine (T : Type) [Elem T] (capacity : BitVec 64) (throwing : Bool) : Machine (State T) (Label T) where
  start := ⟨SpscBoundedQueue.new T, .idle, .idle⟩
  step := step capacity throwing

inductive Steps (capacity : BitVec 64) (throwing : Bool) (s : State T) : Label T → State T → Prop
  | emplace {arg : T} : s.producer = .idle →
      Steps capacity throwing s (.emplace arg) { s with producer := .loadTail arg }
  | producer {throws : Bool} {q : SpscBoundedQueue T} {f : Producer T} : (throws = true → throwing = true) →
      Emplaces capacity s.queue throws s.producer q f →
      Steps capacity throwing s (.producer throws) { s with queue := q, producer := f }
  | pushed : (∃ ok arg, s.producer = .done ok arg) ∨ s.producer = .threw →
      Steps capacity throwing s .pushed { s with producer := .idle }
  | tryPop : s.consumer = .idle → Steps capacity throwing s .tryPop { s with consumer := .loadHead }
  | consumer {throws : Bool} {q : SpscBoundedQueue T} {f : Consumer T} : (throws = true → throwing = true) →
      Pops capacity s.queue throws s.consumer q f →
      Steps capacity throwing s (.consumer throws) { s with queue := q, consumer := f }
  | popped : (∃ out, s.consumer = .done out) ∨ s.consumer = .threw →
      Steps capacity throwing s .popped { s with consumer := .idle }

variable {capacity : BitVec 64} {throwing : Bool} {s s' : State T} {a : Label T}

theorem step_spec (h : step capacity throwing s a = some s') : Steps capacity throwing s a s' := by
  have allowed : ∀ throws, ¬ (throws = true ∧ throwing = false) → throws = true → throwing = true := by
    intro throws hn ht
    cases throwing with
    | true => rfl
    | false => exact absurd ⟨ht, rfl⟩ hn
  cases a with
  | emplace arg =>
    simp only [step] at h
    split at h <;> cases h
    exact .emplace ‹_›
  | producer throws =>
    simp only [step] at h
    split at h
    · cases h
    · obtain ⟨x, hx, rfl⟩ := Option.map_eq_some_iff.mp h
      exact .producer (allowed _ ‹_›) (emplace_spec hx)
  | pushed =>
    simp only [step] at h
    split at h <;> cases h
    · exact .pushed (.inl ⟨_, _, ‹_›⟩)
    · exact .pushed (.inr ‹_›)
  | tryPop =>
    simp only [step] at h
    split at h <;> cases h
    exact .tryPop ‹_›
  | consumer throws =>
    simp only [step] at h
    split at h
    · cases h
    · obtain ⟨x, hx, rfl⟩ := Option.map_eq_some_iff.mp h
      exact .consumer (allowed _ ‹_›) (tryPop_spec hx)
  | popped =>
    simp only [step] at h
    split at h <;> cases h
    · exact .popped (.inl ⟨_, ‹_›⟩)
    · exact .popped (.inr ‹_›)

end Spsc

end Yutil
