import Yutil.Monitor

/-!
# The FIFO every queue implements

What a queue is for: a sequence of values with a `closed` flag. A completed
critical section does one `Event` to it. `Refines` says that the sections of
a monitor are such events under an abstraction map; whole histories of a
refining monitor then replay on the FIFO (`refines_path`).
-/

namespace Yutil

open Interleave

/-- Element types: a default value, and what a move leaves in its source. -/
class Elem (T : Type) extends Inhabited T where
  moved : T → T

instance : Elem Nat := ⟨id⟩

/-- The element expression of a push. A failing one leaves `left`, if
anything, in the slot it was to be assigned to. -/
inductive Built (T : Type)
  | value (v : T)
  | throws (left : Option T)

def Built.throwing {T : Type} : Built T → Bool
  | .value _ => false
  | .throws _ => true

/-- The condition variables: `cv_`, or the pair `not_empty_cv_`, `not_full_cv_`. -/
inductive Cv
  | cv
  | notEmpty
  | notFull
  deriving DecidableEq, Repr

/-- What a call hands back; `popped none` is a `false` from a pop, and a
`true` comes with the value assigned to `out`. -/
inductive Res (T : Type)
  | pushed (ok : Bool)
  | popped (out : Option T)
  | closed
  | threw
  deriving DecidableEq, Repr

/-- What a completed critical section did: a push accepted its value or was
refused, a pop took a value, a `try_pop` missed, a `wait_pop` found the queue
finished, `close` shut it, or an element operation failed. -/
inductive Event (T : Type)
  | accept (v : T)
  | refuse
  | take (v : T)
  | miss
  | finish
  | shut
  | fail
  deriving DecidableEq, Repr

inductive TryOp (T : Type)
  | tryPush (value : T)
  | tryPop

def TryOp.run {T : Type} (capacity : Nat) (xs : List T) : TryOp T → List T × Res T
  | .tryPush value => if xs.length < capacity then (xs ++ [value], .pushed true) else (xs, .pushed false)
  | .tryPop =>
    match xs with
    | [] => ([], .popped none)
    | value :: rest => (rest, .popped (some value))

structure Fifo (T : Type) where
  items : List T
  closed : Bool

section
variable {T : Type}

/-- The events a FIFO allows, with `room n` when a queue of `n` values takes another one. -/
inductive Fifo.Does (room : Nat → Prop) : Fifo T → Event T → Fifo T → Prop
  | accept {xs : List T} {v : T} : room xs.length → Does room ⟨xs, false⟩ (.accept v) ⟨xs ++ [v], false⟩
  | refuse {f : Fifo T} : f.closed = true ∨ ¬ room f.items.length → Does room f .refuse f
  | take {xs : List T} {v : T} {c : Bool} : Does room ⟨v :: xs, c⟩ (.take v) ⟨xs, c⟩
  | miss {c : Bool} : Does room ⟨[], c⟩ .miss ⟨[], c⟩
  | finish : Does room ⟨[], true⟩ .finish ⟨[], true⟩
  | shut {xs : List T} {c : Bool} : Does room ⟨xs, c⟩ .shut ⟨xs, true⟩
  | fail {f : Fifo T} : Does room f .fail f

inductive Fifo.Path {Tid : Type} (room : Nat → Prop) : Fifo T → List (Tid × Event T) → Fifo T → Prop
  | nil {f : Fifo T} : Path room f [] f
  | cons {f g h : Fifo T} {t : Tid} {e : Event T} {log : List (Tid × Event T)} :
      f.Does room e g → Path room g log h → Path room f ((t, e) :: log) h

theorem Fifo.Path.append {Tid : Type} {room : Nat → Prop} {f g h : Fifo T} {l₁ l₂ : List (Tid × Event T)}
    (h₁ : f.Path room l₁ g) (h₂ : g.Path room l₂ h) : f.Path room (l₁ ++ l₂) h := by
  induction h₁ with
  | nil => exact h₂
  | cons hd _ ih => exact .cons hd (ih h₂)

theorem Fifo.Path.split {Tid : Type} {room : Nat → Prop} {f h : Fifo T} :
    ∀ {l₁ l₂ : List (Tid × Event T)}, f.Path room (l₁ ++ l₂) h → ∃ g : Fifo T, f.Path room l₁ g ∧ g.Path room l₂ h
  | [], _, hp => ⟨f, .nil, hp⟩
  | _ :: _, _, .cons hd hp =>
    let ⟨g, h₁, h₂⟩ := Fifo.Path.split hp
    ⟨g, .cons hd h₁, h₂⟩

def Fifo.empty : Fifo T := ⟨[], false⟩

end

/-! ## Monitors that implement it -/

/-- The sections of `M` are events on a FIFO, seen through `abs` on the data that satisfy `Inv`. -/
structure Refines {D Op C T : Type} (M : Monitor D Op C (Res T)) (event : Op → Res T → Event T)
    (room : Nat → Prop) (Inv : D → Prop) (abs : D → Fifo T) : Prop where
  start_inv : Inv M.start
  start_abs : abs M.start = .empty
  sleep : ∀ {op w d d' cv}, Inv d → M.sect op w d = .sleep d' cv → Inv d' ∧ abs d' = abs d
  leave : ∀ {op w d d' held later r}, Inv d → M.sect op w d = .leave d' held later r →
    Inv d' ∧ (abs d).Does room (event op r) (abs d')

section
variable {Tid D Op C T : Type} [DecidableEq Tid] [Fintype Tid] [DecidableEq C]

def emits (M : Monitor D Op C (Res T)) (event : Op → Res T → Event T) (s : Monitor.State Tid D Op C (Res T))
    (a : Monitor.Label Tid Op) : List (Tid × Event T) :=
  (M.completes s a).map fun c => (c.1, event c.2.1 c.2.2)

def recorded (M : Monitor D Op C (Res T)) (event : Op → Res T → Event T) (calls : Tid → Op → Bool) :
    Machine (Monitor.State Tid D Op C (Res T) × List (Tid × Event T)) (Monitor.Label Tid Op) :=
  (M.machine calls).logged (emits M event)

variable {M : Monitor D Op C (Res T)} {event : Op → Res T → Event T} {room : Nat → Prop} {Inv : D → Prop}
  {abs : D → Fifo T} {calls : Tid → Op → Bool}

theorem refines_path (h : Refines M event room Inv abs)
    {x : Monitor.State Tid D Op C (Res T) × List (Tid × Event T)} (hx : (recorded M event calls).Reachable x) :
    Inv x.1.data ∧ Fifo.empty.Path room x.2 (abs x.1.data) := by
  refine hx.invariant (I := fun x => Inv x.1.data ∧ Fifo.empty.Path room x.2 (abs x.1.data)) ?_ ?_
  · refine ⟨h.start_inv, ?_⟩
    show Fifo.empty.Path room [] (abs M.start)
    rw [h.start_abs]
    exact .nil
  · rintro ⟨s, log⟩ a ⟨s', log'⟩ - ⟨hi, hr⟩ hstep
    obtain ⟨hs, hl⟩ := Machine.logged_step.mp hstep
    simp only at hi hr hs hl ⊢
    subst hl
    have keep : ∀ {b}, emits M event s b = [] → a = b → s'.data = s.data →
        Inv s'.data ∧ Fifo.empty.Path room (log ++ emits M event s a) (abs s'.data) := by
      intro b hb hab hd
      rw [hab, hb, hd, List.append_nil]
      exact ⟨hi, hr⟩
    cases Monitor.step_spec hs with
    | call _ _ => exact keep rfl rfl rfl
    | @sleep t _ op w d cv hready hx =>
      obtain ⟨h1, h2⟩ := h.sleep hi hx
      have : emits M event s (.acquire t ‹_›) = [] := by simp [emits, Monitor.completes, hready, hx]
      rw [this, List.append_nil]
      exact ⟨h1, by simpa only [h2] using hr⟩
    | @leave t _ op w d held later r pc hready hx _ =>
      obtain ⟨h1, h2⟩ := h.leave hi hx
      have : emits M event s (.acquire t ‹_›) = [(t, event op r)] := by
        simp [emits, Monitor.completes, hready, hx]
      rw [this]
      exact ⟨h1, hr.append (.cons h2 .nil)⟩
    | notify _ _ => exact keep rfl rfl rfl
    | spurious _ => exact keep rfl rfl rfl
    | ret _ => exact keep rfl rfl rfl

end

end Yutil
