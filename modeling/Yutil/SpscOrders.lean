import Yutil.SpscCaches
import Yutil.Views

/-!
# The memory orders of `SpscBoundedQueue`

The accesses of the two threads one by one, as a program for a memory of views:
each loads its own counter relaxed and the other side's acquire, and stores its
own with release. With one memory for both threads the program is the machine
of the queue.
-/

namespace Yutil

open Interleave SpscBoundedQueue

namespace Spsc

inductive Index
  | head
  | tail
  deriving DecidableEq, Repr

abbrev Counters : Index → Type := fun _ => BitVec 64

inductive Local (T : Type)
  | producer (f : Producer T) (headCache : BitVec 64)
  | consumer (f : Consumer T) (tailCache : BitVec 64)
  deriving DecidableEq, Repr

inductive Env (T : Type)
  | enter (op : TryOp T)
  | leave

section
variable {T : Type}

def callOrReturn : Env T → Local T → Option (Local T)
  | .enter (.tryPush arg), .producer .idle headCache => some (.producer (.loadTail arg) headCache)
  | .leave, .producer (.done _ _) headCache => some (.producer .idle headCache)
  | .leave, .producer .threw headCache => some (.producer .idle headCache)
  | .enter .tryPop, .consumer .idle tailCache => some (.consumer .loadHead tailCache)
  | .leave, .consumer (.done _) tailCache => some (.consumer .idle tailCache)
  | .leave, .consumer .threw tailCache => some (.consumer .idle tailCache)
  | _, _ => none

variable [Elem T]

/-- The next access of a thread, with its memory order. -/
def access (capacity : BitVec 64) : Bool → Local T → Option (Action Counters Nat (Option T) (Local T))
  | false, .producer (.loadTail arg) headCache =>
    some (.load false .tail fun tail =>
      if tail + 1 - headCache > capacity then .producer (.loadHead arg tail) headCache
      else .producer (.construct arg tail) headCache)
  | false, .producer (.loadHead arg tail) _ =>
    some (.load true .head fun head =>
      if tail + 1 - head > capacity then .producer (.done false arg) head else .producer (.construct arg tail) head)
  | false, .producer (.construct arg tail) headCache =>
    some (.access (index capacity tail) (fun _ => some arg) fun _ => .producer (.storeTail arg tail) headCache)
  | true, .producer (.construct _ tail) headCache =>
    some (.access (index capacity tail) id fun _ => .producer .threw headCache)
  | false, .producer (.storeTail value tail) headCache =>
    some (.store true .tail (tail + 1) (.producer (.done true (Elem.moved value)) headCache))
  | false, .consumer .loadHead tailCache =>
    some (.load false .head fun head =>
      if tailCache = head then .consumer (.loadTail head) tailCache else .consumer (.moveOut head) tailCache)
  | false, .consumer (.loadTail head) _ =>
    some (.load true .tail fun tail =>
      if tail = head then .consumer (.done none) tail else .consumer (.moveOut head) tail)
  | false, .consumer (.moveOut head) tailCache =>
    some (.access (index capacity head) (fun x => some (Elem.moved (x.getD default))) fun x =>
      .consumer (.destroy head (x.getD default)) tailCache)
  | true, .consumer (.moveOut head) tailCache =>
    some (.access (index capacity head) id fun _ => .consumer .threw tailCache)
  | false, .consumer (.destroy head out) tailCache =>
    some (.access (index capacity head) (fun _ => none) fun _ => .consumer (.storeHead head out) tailCache)
  | false, .consumer (.storeHead head out) tailCache =>
    some (.store true .head (head + 1) (.consumer (.done (some out)) tailCache))
  | _, _ => none

def program (T : Type) [Elem T] (capacity : BitVec 64) (throwing : Bool) :
    Program Party Counters Nat (Option T) (Local T) (Env T) Bool where
  initial _ := 0
  blank := none
  start
    | .producer => .producer .idle 0
    | .consumer => .consumer .idle 0
  env _ := callOrReturn
  act _ throws x := if throws ∧ throwing = false then none else access capacity throws x

/-! ## With one memory for both threads -/

omit [Elem T] in
def spread (y : State T) : Program.Interleaved Party Counters Nat (Option T) (Local T) where
  mem :=
    { value := fun
        | .head => y.queue.head
        | .tail => y.queue.tail
      plain := y.queue.storage }
  pc
    | .producer => .producer y.producer y.queue.headCache
    | .consumer => .consumer y.consumer y.queue.tailCache

omit [Elem T] in
def label : Program.Label Party (Env T) Bool → Option (Label T)
  | .env .producer (.enter (.tryPush arg)) => some (.emplace arg)
  | .env .producer .leave => some .pushed
  | .env .consumer (.enter .tryPop) => some .tryPop
  | .env .consumer .leave => some .popped
  | .move .producer throws => some (.producer throws)
  | .move .consumer throws => some (.consumer throws)
  | _ => none

omit [Elem T] in
theorem spread_producer (y : State T) (f : Producer T) (headCache : BitVec 64) :
    Function.update (spread y).pc .producer (.producer f headCache) =
      (spread { y with queue := { y.queue with headCache := headCache }, producer := f }).pc := by
  funext t
  cases t <;> rfl

omit [Elem T] in
theorem spread_consumer (y : State T) (f : Consumer T) (tailCache : BitVec 64) :
    Function.update (spread y).pc .consumer (.consumer f tailCache) =
      (spread { y with queue := { y.queue with tailCache := tailCache }, consumer := f }).pc := by
  funext t
  cases t <;> rfl

omit [Elem T] in
theorem spread_head (y : State T) (head : BitVec 64) :
    Function.update (spread y).mem.value .head head = (spread { y with queue := { y.queue with head := head } }).mem.value := by
  funext a
  cases a <;> rfl

omit [Elem T] in
theorem spread_tail (y : State T) (tail : BitVec 64) :
    Function.update (spread y).mem.value .tail tail = (spread { y with queue := { y.queue with tail := tail } }).mem.value := by
  funext a
  cases a <;> rfl

variable {capacity : BitVec 64} {throwing : Bool}

def moved (t : Party) (y : State T) (x : Action Counters Nat (Option T) (Local T)) :
    Program.Interleaved Party Counters Nat (Option T) (Local T) :=
  ⟨((spread y).mem.run x).1, Function.update (spread y).pc t ((spread y).mem.run x).2⟩

theorem access_emplace (throws : Bool) (y : State T) :
    (access capacity throws (.producer y.producer y.queue.headCache)).map (moved .producer y) =
      (y.queue.emplace capacity throws y.producer).map fun x => spread { y with queue := x.1, producer := x.2 } := by
  obtain ⟨queue, f, consumer⟩ := y
  cases throws with
  | true => cases f <;> simp [access, SpscBoundedQueue.emplace, moved, Shared.run, spread_producer]; rfl
  | false =>
    cases f with
    | loadTail arg =>
      simp only [access, SpscBoundedQueue.emplace, moved, Shared.run, Option.map_some]
      by_cases h : queue.tail + 1 - queue.headCache > capacity
      · rw [if_pos h, show (spread _).mem.value .tail = queue.tail from rfl, if_pos h, spread_producer]
        rfl
      · rw [if_neg h, show (spread _).mem.value .tail = queue.tail from rfl, if_neg h, spread_producer]
        rfl
    | loadHead arg tail =>
      simp only [access, SpscBoundedQueue.emplace, moved, Shared.run, Option.map_some]
      by_cases h : tail + 1 - queue.head > capacity
      · rw [if_pos h, show (spread _).mem.value .head = queue.head from rfl, if_pos h, spread_producer]
        rfl
      · rw [if_neg h, show (spread _).mem.value .head = queue.head from rfl, if_neg h, spread_producer]
        rfl
    | construct arg tail =>
      simp only [access, SpscBoundedQueue.emplace, moved, Shared.run, Option.map_some, spread_producer]
      rfl
    | storeTail value tail =>
      simp only [access, SpscBoundedQueue.emplace, moved, Shared.run, Option.map_some, spread_producer, spread_tail]
      rfl
    | _ => rfl

theorem access_tryPop (throws : Bool) (y : State T) :
    (access capacity throws (.consumer y.consumer y.queue.tailCache)).map (moved .consumer y) =
      (y.queue.tryPop capacity throws y.consumer).map fun x => spread { y with queue := x.1, consumer := x.2 } := by
  obtain ⟨queue, producer, f⟩ := y
  cases throws with
  | true => cases f <;> simp [access, SpscBoundedQueue.tryPop, moved, Shared.run, spread_consumer]; rfl
  | false =>
    cases f with
    | loadHead =>
      simp only [access, SpscBoundedQueue.tryPop, moved, Shared.run, Option.map_some]
      by_cases h : queue.tailCache = queue.head
      · rw [if_pos h, show (spread _).mem.value .head = queue.head from rfl, if_pos h, spread_consumer]
        rfl
      · rw [if_neg h, show (spread _).mem.value .head = queue.head from rfl, if_neg h, spread_consumer]
        rfl
    | loadTail head =>
      simp only [access, SpscBoundedQueue.tryPop, moved, Shared.run, Option.map_some]
      by_cases h : queue.tail = head
      · rw [if_pos h, show (spread _).mem.value .tail = queue.tail from rfl, if_pos h, spread_consumer]
        rfl
      · rw [if_neg h, show (spread _).mem.value .tail = queue.tail from rfl, if_neg h, spread_consumer]
        rfl
    | moveOut head =>
      simp only [access, SpscBoundedQueue.tryPop, moved, Shared.run, Option.map_some, spread_consumer]
      rfl
    | destroy head out =>
      simp only [access, SpscBoundedQueue.tryPop, moved, Shared.run, Option.map_some, spread_consumer]
      rfl
    | storeHead head out =>
      simp only [access, SpscBoundedQueue.tryPop, moved, Shared.run, Option.map_some, spread_consumer, spread_head]
      rfl
    | _ => rfl

theorem interleaved_step (y : State T) (a : Program.Label Party (Env T) Bool) :
    (program T capacity throwing).interleaved.step (spread y) a =
      ((label a).bind (Spsc.step capacity throwing y)).map spread := by
  obtain ⟨queue, producer, consumer⟩ := y
  cases a with
  | env t e =>
    cases t with
    | producer =>
      show (callOrReturn e (.producer producer queue.headCache)).map _ = _
      cases e with
      | enter op => cases op <;> cases producer <;> simp [callOrReturn, label, Spsc.step, spread_producer]; rfl
      | leave => cases producer <;> simp [callOrReturn, label, Spsc.step, spread_producer] <;> rfl
    | consumer =>
      show (callOrReturn e (.consumer consumer queue.tailCache)).map _ = _
      cases e with
      | enter op => cases op <;> cases consumer <;> simp [callOrReturn, label, Spsc.step, spread_consumer]; rfl
      | leave => cases consumer <;> simp [callOrReturn, label, Spsc.step, spread_consumer] <;> rfl
  | move t throws =>
    cases t with
    | producer =>
      show (if throws = true ∧ throwing = false then none else access capacity throws (.producer producer queue.headCache)).map
        (moved .producer _) = _
      simp only [label, Option.bind_some, Spsc.step]
      by_cases hn : throws = true ∧ throwing = false
      · rw [if_pos hn, if_pos hn]
        rfl
      · rw [if_neg hn, if_neg hn, Option.map_map]
        exact access_emplace throws ⟨queue, producer, consumer⟩
    | consumer =>
      show (if throws = true ∧ throwing = false then none else access capacity throws (.consumer consumer queue.tailCache)).map
        (moved .consumer _) = _
      simp only [label, Option.bind_some, Spsc.step]
      by_cases hn : throws = true ∧ throwing = false
      · rw [if_pos hn, if_pos hn]
        rfl
      · rw [if_neg hn, if_neg hn, Option.map_map]
        exact access_tryPop throws ⟨queue, producer, consumer⟩

omit [Elem T] in
def published : Local T → List (Event T)
  | .producer (.storeTail value _) _ => [.accept value]
  | .consumer (.storeHead _ out) _ => [.take out]
  | _ => []

omit [Elem T] in
def emit (y : Program.Interleaved Party Counters Nat (Option T) (Local T)) : Program.Label Party (Env T) Bool → List (Event T)
  | .move t false => published (y.pc t)
  | _ => []

omit [Elem T] in
def trail (s : Program.Viewed Party Counters Nat (Option T) (Local T)) (a : Program.Label Party (Env T) (Bool × Nat)) :
    List (Event T) := emit s.latest a.forget

omit [Elem T] in
theorem emit_spread (y : State T) {a : Program.Label Party (Env T) Bool} {b : Label T} (hb : label a = some b) :
    emit (spread y) a = trace y b := by
  cases a with
  | env t e =>
    cases t with
    | producer =>
      cases e with
      | enter op =>
        cases op with
        | tryPush arg => cases hb; rfl
        | tryPop => cases hb
      | leave => cases hb; rfl
    | consumer =>
      cases e with
      | enter op =>
        cases op with
        | tryPush arg => cases hb
        | tryPop => cases hb; rfl
      | leave => cases hb; rfl
  | move t throws =>
    obtain ⟨queue, producer, consumer⟩ := y
    cases t with
    | producer =>
      cases hb
      cases throws with
      | true => rfl
      | false => cases producer <;> rfl
    | consumer =>
      cases hb
      cases throws with
      | true => rfl
      | false => cases consumer <;> rfl

omit [Elem T] in
theorem label_surjective (b : Label T) : ∃ a, label a = some b := by
  cases b with
  | emplace arg => exact ⟨.env .producer (.enter (.tryPush arg)), rfl⟩
  | producer throws => exact ⟨.move .producer throws, rfl⟩
  | pushed => exact ⟨.env .producer .leave, rfl⟩
  | tryPop => exact ⟨.env .consumer (.enter .tryPop), rfl⟩
  | consumer throws => exact ⟨.move .consumer throws, rfl⟩
  | popped => exact ⟨.env .consumer .leave, rfl⟩

theorem spread_start : (program T capacity throwing).interleaved.start = spread (machine T capacity throwing).start := by
  refine congrArg₂ Program.Interleaved.mk (congrArg₂ Shared.mk ?_ rfl) ?_
  · funext a
    cases a <;> rfl
  · funext t
    cases t <;> rfl

theorem interleaved_reachable {y : State T} {log : List (Event T)}
    (h : ((machine T capacity throwing).logged trace).Reachable (y, log)) :
    ((program T capacity throwing).interleaved.logged emit).Reachable (spread y, log) := by
  refine h.invariant (I := fun x => ((program T capacity throwing).interleaved.logged emit).Reachable (spread x.1, x.2)) ?_ ?_
  · have hstart := Machine.Reachable.start (M := (program T capacity throwing).interleaved.logged emit)
    rw [show ((program T capacity throwing).interleaved.logged emit).start = (spread _, []) from
      congrArg (fun y => (y, [])) spread_start] at hstart
    exact hstart
  · rintro ⟨y, log⟩ b ⟨y', log'⟩ _ ih hs
    obtain ⟨hs, hlog⟩ := Machine.logged_step.mp hs
    obtain ⟨a, ha⟩ := label_surjective b
    refine .step ih (a := a) (Machine.logged_step.mpr ⟨?_, ?_⟩)
    · have hs : Spsc.step capacity throwing y b = some y' := hs
      show (program T capacity throwing).interleaved.step (spread y) a = some (spread y')
      rw [interleaved_step, ha, Option.bind_some, hs]
      rfl
    · rw [hlog]
      exact congrArg (log ++ ·) (emit_spread y ha).symm

end

end Spsc

open Spsc

variable {T : Type} [Elem T] {capacity : BitVec 64} {throwing : Bool}

/-- **The machine of the queue is a part of this.** A run in which every step
sees the last stores is one of the runs on the memory of views. -/
theorem spsc_runs_viewed {y : Spsc.State T} {log : List (Event T)}
    (h : ((Spsc.machine T capacity throwing).logged trace).Reachable (y, log)) :
    ∃ s, ((program T capacity throwing).viewed.logged trail).Reachable (s, log) ∧
      s.latest = spread y :=
  Program.of_interleaved emit (interleaved_reachable h)

end Yutil
