import Yutil.AtomicQueue

/-!
# Calls that run alone

A call of one thread while the others stand still. A push takes the next push
ticket when the cell of that ticket is marked for it and a pop the next pop
ticket; a throwing element operation comes after the ticket is taken and
leaves every cell as it was.
-/

namespace Yutil

open Interleave

inductive Side
  | push
  | pop

namespace Side

variable {N T : Type} [Counter N]

def cursor : Side → AtomicQueue N T → N
  | .push, q => q.enqueuePos
  | .pop, q => q.dequeuePos

def other : Side → Side
  | .push => .pop
  | .pop => .push

def mark : Side → N → N
  | .push, pos => pos
  | .pop, pos => Counter.plus pos 1

def leaves (c : Nat) : Side → N → N
  | .push, pos => Counter.plus pos 1
  | .pop, pos => Counter.plus pos c

def op (arg : T) : Side → AtomicOp T
  | .push => .emplace arg
  | .pop => .tryPop

def Success : Side → Reply T → Prop
  | .push, .pushed true _ => True
  | .pop, .popped (some _) => True
  | _, _ => False

def Open : Side → AtomicQueue N T → Prop
  | .push, q => q.closed = false
  | .pop, _ => True

def Ready (side : Side) (c : Nat) (q : AtomicQueue N T) (pos : N) : Prop :=
  Counter.dif (q.cell c pos).sequence (side.mark pos) = 0

/-- The queue after a call took the next ticket: only the ticket's cell may have changed. -/
structure Took (side : Side) (c : Nat) (q q' : AtomicQueue N T) : Prop where
  cursor : side.cursor q' = Counter.plus (side.cursor q) 1
  other : side.other.cursor q' = side.other.cursor q
  cells : ∀ i, i ≠ Counter.slot c (side.cursor q) → q'.cells i = q.cells i
  closed : q'.closed = q.closed

variable {side : Side} {c : Nat} {q q' : AtomicQueue N T}

theorem Took.update (h : side.Took c q q') {pos : N} (hpos : pos = side.cursor q) (x : Cell N T) :
    side.Took c q { q' with cells := Function.update q'.cells (Counter.slot c pos) x } := by
  subst hpos
  refine ⟨?_, ?_, fun i hi => ?_, h.closed⟩
  · cases side <;> exact h.cursor
  · cases side <;> exact h.other
  · exact (Function.update_of_ne hi ..).trans (h.cells i hi)

theorem Took.place (h : side.Took c q q') {pos : N} (hpos : pos = side.cursor q) (x : Option T) :
    side.Took c q (q'.place c pos x) := h.update hpos _

theorem Took.store (h : side.Took c q q') {pos : N} (hpos : pos = side.cursor q) (x : N) :
    side.Took c q (q'.store c pos x) := h.update hpos _

theorem Took.open (h : side.Took c q q') (ho : side.Open q) : side.Open q' := by
  cases side with
  | push => exact h.closed.trans ho
  | pop => trivial

theorem Took.ready (h : side.Took c q q') {pos : N} (hne : Counter.slot c pos ≠ Counter.slot c (side.cursor q)) :
    side.Ready c q' pos ↔ side.Ready c q pos := by
  have hcell : q'.cell c pos = q.cell c pos := h.cells _ hne
  rw [Ready, Ready, hcell]

end Side

namespace AtomicQueue

variable {N T : Type} [Counter N] [Elem T] {backoff : Nat → Nat} {c : Nat} {q q' : AtomicQueue N T}
  {f f' : Frame N T} {m : Move}

/-- Where a push that began on `q` is, when nobody else moves. -/
def PushAt (c : Nat) (q q' : AtomicQueue N T) : Frame N T → Prop
  | .checkClosed _ => q' = q
  | .loadEnqueue _ _ => q' = q ∧ q.closed = false
  | .loadSequence _ pos _ => q' = q ∧ q.closed = false ∧ pos = q.enqueuePos
  | .claim _ pos _ => q' = q ∧ q.closed = false ∧ pos = q.enqueuePos ∧ Side.push.Ready c q pos
  | .construct _ pos =>
    pos = q.enqueuePos ∧ q.closed = false ∧ Side.push.Ready c q pos ∧ Side.push.Took c q q' ∧ q'.cells = q.cells
  | .publish _ pos => pos = q.enqueuePos ∧ Side.push.Ready c q pos ∧ Side.push.Took c q q'
  | .done _ (.pushed true _) => Side.push.Ready c q q.enqueuePos ∧ Side.push.Took c q q'
  | .done _ .threw =>
    q.closed = false ∧ Side.push.Ready c q q.enqueuePos ∧ Side.push.Took c q q' ∧ q'.cells = q.cells
  | .done _ (.pushed false _) => q' = q
  | _ => False

def PopAt (c : Nat) (q q' : AtomicQueue N T) : Frame N T → Prop
  | .loadDequeue _ => q' = q
  | .loadSequencePop pos _ => q' = q ∧ pos = q.dequeuePos
  | .claimPop pos _ => q' = q ∧ pos = q.dequeuePos ∧ Side.pop.Ready c q pos
  | .moveOut pos => pos = q.dequeuePos ∧ Side.pop.Ready c q pos ∧ Side.pop.Took c q q' ∧ q'.cells = q.cells
  | .destroy pos _ | .release pos _ => pos = q.dequeuePos ∧ Side.pop.Ready c q pos ∧ Side.pop.Took c q q'
  | .done _ (.popped (some _)) => Side.pop.Ready c q q.dequeuePos ∧ Side.pop.Took c q q'
  | .done _ .threw => Side.pop.Ready c q q.dequeuePos ∧ Side.pop.Took c q q' ∧ q'.cells = q.cells
  | .done _ (.popped none) => q' = q
  | _ => False

theorem PushAt.act {q₁ q₂ : AtomicQueue N T} (h : PushAt c q q₁ f) (ha : q₁.Acts backoff c m f q₂ f') :
    PushAt c q q₂ f' := by
  cases ha with
  | refused => exact h
  | admitted ho =>
    obtain rfl : q₁ = q := h
    exact ⟨rfl, ho⟩
  | loadEnqueue => exact ⟨h.1, h.2, congrArg _ h.1⟩
  | ready hd =>
    obtain ⟨rfl, h⟩ := h
    exact ⟨rfl, h.1, h.2, hd⟩
  | full => exact h.1
  | passed => exact ⟨h.1, h.2.1⟩
  | claim he =>
    obtain ⟨rfl, ho, rfl, hr⟩ := h
    exact ⟨rfl, ho, hr, ⟨rfl, rfl, fun _ _ => rfl, rfl⟩, rfl⟩
  | lost => exact ⟨h.1, h.2.1, congrArg _ h.1⟩
  | construct => exact ⟨h.1, h.2.2.1, h.2.2.2.1.place h.1 _⟩
  | constructThrows =>
    obtain ⟨rfl, h⟩ := h
    exact h
  | publish =>
    obtain ⟨rfl, hr, ht⟩ := h
    exact ⟨hr, ht.store rfl _⟩
  | _ => cases h

theorem PopAt.act {q₁ q₂ : AtomicQueue N T} (h : PopAt c q q₁ f) (ha : q₁.Acts backoff c m f q₂ f') :
    PopAt c q q₂ f' := by
  cases ha with
  | loadDequeue => exact ⟨h, congrArg _ h⟩
  | readyPop hd => exact ⟨h.1, h.2, by rw [← h.1]; exact hd⟩
  | empty => exact h.1
  | passedPop => exact h.1
  | claimPop he =>
    obtain ⟨rfl, rfl, hr⟩ := h
    exact ⟨rfl, hr, ⟨rfl, rfl, fun _ _ => rfl, rfl⟩, rfl⟩
  | lostPop => exact ⟨h.1, congrArg _ h.1⟩
  | moveOut => exact ⟨h.1, h.2.1, h.2.2.1.place h.1 _⟩
  | moveOutThrows =>
    obtain ⟨rfl, h⟩ := h
    exact h
  | destroy => exact ⟨h.1, h.2.1, h.2.2.place h.1 _⟩
  | release =>
    obtain ⟨rfl, hr, ht⟩ := h
    exact ⟨hr, ht.store rfl _⟩
  | _ => cases h

variable [DecidableEq N]

def acts (backoff : Nat → Nat) (c : Nat) : AtomicQueue N T → Frame N T → List Move → Option (AtomicQueue N T × Frame N T)
  | q, f, [] => some (q, f)
  | q, f, m :: ms => (q.act backoff c m f).bind fun x => acts backoff c x.1 x.2 ms

theorem acts_append (ms ms' : List Move) : acts backoff c q f (ms ++ ms') =
    (acts backoff c q f ms).bind fun x => acts backoff c x.1 x.2 ms' := by
  induction ms generalizing q f with
  | nil => rfl
  | cons m ms ih =>
    simp only [List.cons_append, acts]
    cases q.act backoff c m f with
    | none => rfl
    | some x => exact ih

/-- The invariant rule of a call that runs alone, for moves that satisfy `A`. -/
theorem acts_invariant {I : AtomicQueue N T → Frame N T → Prop} {A : Move → Prop}
    (hI : ∀ q f m q' f', A m → I q f → q.Acts backoff c m f q' f' → I q' f') {ms : List Move} (hA : ∀ m ∈ ms, A m)
    (h0 : I q f) (h : acts backoff c q f ms = some (q', f')) : I q' f' := by
  induction ms generalizing q f with
  | nil => cases h; exact h0
  | cons m ms ih =>
    obtain ⟨x, hx, hr⟩ := Option.bind_eq_some_iff.mp h
    exact ih (fun m' hm' => hA m' (List.mem_cons_of_mem _ hm')) (hI _ _ _ _ _ (hA m (List.mem_cons_self ..)) h0 (act_spec hx)) hr

theorem acts_spec (side : Side) {arg : T} {ms : List Move} {k : Option N} {r : Reply T}
    (h : acts backoff c q (enter (side.op arg)) ms = some (q', .done k r)) :
    (side.Success r → side.Ready c q (side.cursor q) ∧ side.Took c q q') ∧
      (r = .threw → side.Open q ∧ side.Ready c q (side.cursor q) ∧ side.Took c q q' ∧ q'.cells = q.cells) := by
  cases side with
  | push =>
    have hI : PushAt c q q' (.done k r) := acts_invariant (f := .checkClosed arg) (A := fun _ => True)
      (fun _ _ _ _ _ _ hp ha => hp.act ha) (fun _ _ => trivial) rfl h
    cases r with
    | pushed ok a =>
      cases ok with
      | true => exact ⟨fun _ => hI, fun he => by cases he⟩
      | false => exact ⟨fun hs => hs.elim, fun he => by cases he⟩
    | threw => exact ⟨fun hs => hs.elim, fun _ => hI⟩
    | _ => exact hI.elim
  | pop =>
    have hI : PopAt c q q' (.done k r) := acts_invariant (f := .loadDequeue 0) (A := fun _ => True)
      (fun _ _ _ _ _ _ hp ha => hp.act ha) (fun _ _ => trivial) rfl h
    cases r with
    | popped out =>
      cases out with
      | some v => exact ⟨fun _ => hI, fun he => by cases he⟩
      | none => exact ⟨fun hs => hs.elim, fun he => by cases he⟩
    | threw => exact ⟨fun hs => hs.elim, fun _ => ⟨trivial, hI⟩⟩
    | _ => exact hI.elim

theorem acts_ready (backoff : Nat → Nat) (side : Side) (arg : T) (hr : side.Ready c q (side.cursor q)) (ho : side.Open q) :
    ∃ q' k r, acts backoff c q (enter (side.op arg)) (List.replicate 6 .go) = some (q', .done k r) ∧ side.Success r ∧
      (q'.cell c (side.cursor q)).sequence = side.leaves c (side.cursor q) := by
  have marked : ∀ (q : AtomicQueue N T) pos x, ((q.store c pos x).cell c pos).sequence = x := by
    intro q pos x
    show (Function.update q.cells _ _ _).sequence = x
    rw [Function.update_self]
  cases side with
  | push =>
    have hr : Counter.dif (q.cell c q.enqueuePos).sequence q.enqueuePos = 0 := hr
    have ho : q.closed = false := ho
    let q₁ : AtomicQueue N T := { q with enqueuePos := Counter.plus q.enqueuePos 1 }
    refine ⟨(q₁.place c q.enqueuePos (some arg)).store c q.enqueuePos (Counter.plus q.enqueuePos 1), some q.enqueuePos,
      .pushed true (Elem.moved arg), ?_, trivial, marked ..⟩
    simp only [List.replicate, acts, enter, Side.op, act, ho, hr, Bool.false_eq_true, if_true, if_false, Option.bind_some, q₁]
  | pop =>
    have hr : Counter.dif (q.cell c q.dequeuePos).sequence (Counter.plus q.dequeuePos 1) = 0 := hr
    let q₁ : AtomicQueue N T := { q with dequeuePos := Counter.plus q.dequeuePos 1 }
    let value := (q.cell c q.dequeuePos).storage.getD default
    refine ⟨((q₁.place c q.dequeuePos (some (Elem.moved value))).place c q.dequeuePos none).store c q.dequeuePos
      (Counter.plus q.dequeuePos c), some q.dequeuePos, .popped (some value), ?_, trivial, marked ..⟩
    simp only [List.replicate, acts, enter, Side.op, act, hr, if_true, Option.bind_some, q₁, value]
    rfl

end AtomicQueue

/-! ## In the system -/

namespace Atomic

section
variable {Tid N T : Type} [DecidableEq Tid] [DecidableEq N] [Counter N] [Elem T]

def Calls (M : Machine (State Tid N T) (Label Tid T)) (s : State Tid N T) (t : Tid) (op : AtomicOp T) (r : Reply T)
    (s' : State Tid N T) : Prop :=
  ∃ (ms : List Move) (s₁ : State Tid N T) (k : Option N), M.execFrom s (.call t op :: ms.map (.move t)) = some s₁ ∧ s₁.pc t = .done k r ∧
    M.step s₁ (.ret t) = some s'

inductive Results (M : Machine (State Tid N T) (Label Tid T)) :
    State Tid N T → List (Tid × AtomicOp T) → List (Reply T) → Prop
  | nil {s : State Tid N T} : Results M s [] []
  | cons {s s' : State Tid N T} {t : Tid} {op : AtomicOp T} {r : Reply T} {ops : List (Tid × AtomicOp T)}
      {rs : List (Reply T)} : Calls M s t op r s' → Results M s' ops rs → Results M s ((t, op) :: ops) (r :: rs)

variable {backoff : Nat → Nat} {c : Nat} {throwing : Bool} {s s' : State Tid N T} {t : Tid} {op : AtomicOp T} {r : Reply T}

theorem acts_of_exec {ms : List Move}
    (h : (machine Tid N T backoff c throwing).execFrom s (ms.map (.move t)) = some s') :
    s.queue.acts backoff c (s.pc t) ms = some (s'.queue, s'.pc t) ∧ s'.pc = Function.update s.pc t (s'.pc t) ∧
      ∀ m ∈ ms, ¬ (m = .throws ∧ throwing = false) := by
  induction ms generalizing s with
  | nil =>
    cases h
    exact ⟨rfl, (Function.update_eq_self ..).symm, by simp⟩
  | cons m ms ih =>
    obtain ⟨u, hu, hr⟩ := Machine.execFrom_cons_some h
    simp only [machine, step] at hu
    split at hu
    · cases hu
    · rename_i hm
      obtain ⟨x, hx, rfl⟩ := Option.map_eq_some_iff.mp hu
      obtain ⟨h1, h2, h3⟩ := ih hr
      simp only [Function.update_self, Function.update_idem] at h1 h2
      refine ⟨?_, h2, ?_⟩
      · rw [AtomicQueue.acts, hx]
        exact h1
      · intro m' hm'
        rcases List.mem_cons.mp hm' with rfl | hm'
        · exact hm
        · exact h3 m' hm'

theorem exec_of_acts (throwing : Bool) {ms : List Move} {x : AtomicQueue N T × Frame N T} (hm : ∀ m ∈ ms, m = .throws → throwing = true)
    (h : s.queue.acts backoff c (s.pc t) ms = some x) :
    (machine Tid N T backoff c throwing).execFrom s (ms.map (.move t)) = some ⟨x.1, Function.update s.pc t x.2⟩ := by
  induction ms generalizing s with
  | nil => cases h; rw [Function.update_eq_self]; rfl
  | cons m ms ih =>
    obtain ⟨y, hy, hr⟩ := Option.bind_eq_some_iff.mp h
    have hs : (machine Tid N T backoff c throwing).step s (.move t m) = some ⟨y.1, Function.update s.pc t y.2⟩ := by
      simp only [machine, step]
      rw [if_neg (fun hf => Bool.false_ne_true (hf.2.symm.trans (hm m (List.mem_cons_self ..) hf.1))), hy]
      rfl
    rw [List.map_cons, Machine.execFrom_cons hs]
    have := ih (s := ⟨y.1, Function.update s.pc t y.2⟩) (fun m' hm' => hm m' (List.mem_cons_of_mem _ hm'))
      (by simpa only [Function.update_self] using hr)
    simpa only [Function.update_idem] using this

theorem acts_of_call {ms : List Move}
    (h : (machine Tid N T backoff c throwing).execFrom s (.call t op :: ms.map (.move t)) = some s') :
    s.pc t = .idle ∧ s.queue.acts backoff c (AtomicQueue.enter op) ms = some (s'.queue, s'.pc t) ∧
      s'.pc = Function.update s.pc t (s'.pc t) ∧ ∀ m ∈ ms, ¬ (m = .throws ∧ throwing = false) := by
  obtain ⟨u, hu, hr⟩ := Machine.execFrom_cons_some h
  have hu : step backoff c throwing s (.call t op) = some u := hu
  cases step_spec hu with
  | call hidle =>
    obtain ⟨h1, h2, h3⟩ := acts_of_exec hr
    simp only [Function.update_self, Function.update_idem] at h1 h2
    exact ⟨hidle, h1, h2, h3⟩

theorem Calls.acts (h : Calls (machine Tid N T backoff c throwing) s t op r s') :
    s.pc t = .idle ∧ ∃ ms k, s.queue.acts backoff c (AtomicQueue.enter op) ms = some (s'.queue, .done k r) ∧
      s'.pc = s.pc ∧ ∀ m ∈ ms, ¬ (m = .throws ∧ throwing = false) := by
  obtain ⟨ms, s₁, k, he, hpc, hret⟩ := h
  obtain ⟨hidle, h1, h2, h3⟩ := acts_of_call he
  have hret : step backoff c throwing s₁ (.ret t) = some s' := hret
  cases step_spec hret with
  | ret _ =>
    refine ⟨hidle, ms, k, by rw [← hpc]; exact h1, ?_, h3⟩
    show Function.update s₁.pc t .idle = s.pc
    rw [h2, Function.update_idem, ← hidle, Function.update_eq_self]

theorem calls_of_acts {ms : List Move} {q' : AtomicQueue N T} {k : Option N}
    (hm : ∀ m ∈ ms, m = .throws → throwing = true)
    (hidle : s.pc t = .idle) (h : s.queue.acts backoff c (AtomicQueue.enter op) ms = some (q', .done k r)) :
    Calls (machine Tid N T backoff c throwing) s t op r ⟨q', s.pc⟩ := by
  have hcall : (machine Tid N T backoff c throwing).step s (.call t op) =
      some ⟨s.queue, Function.update s.pc t (AtomicQueue.enter op)⟩ := by
    simp only [machine, step, hidle]
  have he := exec_of_acts throwing (s := ⟨s.queue, Function.update s.pc t (AtomicQueue.enter op)⟩) (t := t) hm
    (by simpa only [Function.update_self] using h)
  refine ⟨ms, _, k, (Machine.execFrom_cons hcall).trans he, Function.update_self .., ?_⟩
  simp only [machine, step, Function.update_self, Function.update_idem, Option.some.injEq]
  exact congrArg _ (by rw [← hidle, Function.update_eq_self])

end

end Atomic

end Yutil
