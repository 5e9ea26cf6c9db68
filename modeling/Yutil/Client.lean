import Yutil.Turns
import Yutil.Closing
import Yutil.Delivery
import Yutil.RingProtocol
import Mathlib.Data.BitVec

/-!
# The clients of the blocking queues

The tests and the benchmarks use every blocking queue in one way: each producer
pushes its values in turn, a consumer adds up what `wait_pop` hands it until it
returns `false`, and the main thread joins the producers, closes the queue and
joins the consumers.
-/

namespace Yutil

open Interleave Monitor

structure Ends (Op T : Type) where
  push : T → Op
  waitPop : Op
  close : Op

def DequeOp.ends {T : Type} : Ends (DequeOp T) T := ⟨fun v => .emplace (.value v), .waitPop true, .close⟩

def RingOp.ends {T : Type} : Ends (RingOp T) T := ⟨fun v => .emplace (.value v), .waitPop true, .close⟩

/-- `local_count` and `local_sum`, or `consumed_count` and `consumed_sum`. -/
structure Tally where
  count : BitVec 64
  sum : BitVec 64
  deriving DecidableEq, Repr

namespace Tally

def zero : Tally := ⟨0, 0⟩

def add (t : Tally) (x : BitVec 64) : Tally := ⟨t.count + 1, t.sum + x⟩

def merge (t u : Tally) : Tally := ⟨t.count + u.count, t.sum + u.sum⟩

end Tally

structure Client (P C D Op T : Type) where
  mon : State (Party P C) D Op Cv (Res T)
  left : P → List T
  tally : C → Tally
  exited : C → Bool
  total : Tally
  shut : Bool

namespace Client

inductive Label (Tid : Type)
  | call (t : Tid)
  | acquire (t : Tid) (pick : Option Tid)
  | notify (t : Tid) (pick : Option Tid)
  | spurious (t : Tid)
  | ret (t : Tid)
  deriving DecidableEq, Repr

def Label.stirs {Tid : Type} : Label Tid → Bool
  | .spurious _ => true
  | _ => false

variable {P C D Op T : Type}

def unfinished (s : Client P C D Op T) (p : P) : Bool := !(s.left p).isEmpty || (s.mon.pc (.inl p)).op?.isSome

/-- Main has returned from `close()`, and each `while (queue.wait_pop(value))` has ended. -/
def Finished (s : Client P C D Op T) : Prop :=
  s.shut = true ∧ (s.mon.pc (.inr (.inr ()))).op? = none ∧ ∀ c, s.exited c = true

variable [Fintype P]

def next (ends : Ends Op T) (s : Client P C D Op T) : Party P C → Option Op
  | .inl p => (s.left p).head?.map ends.push
  | .inr (.inl c) => if s.exited c then none else some ends.waitPop
  | .inr (.inr _) => if s.shut = false ∧ ∀ p, s.unfinished p = false then some ends.close else none

def action (ends : Ends Op T) (s : Client P C D Op T) : Label (Party P C) → Option (Monitor.Label (Party P C) Op)
  | .call t => (s.next ends t).map (.call t)
  | .acquire t pick => some (.acquire t pick)
  | .notify t pick => some (.notify t pick)
  | .spurious t => some (.spurious t)
  | .ret t => some (.ret t)

variable [DecidableEq P] [DecidableEq C]

def note (key : T → BitVec 64) (s : Client P C D Op T) (m : State (Party P C) D Op Cv (Res T)) :
    Label (Party P C) → Client P C D Op T
  | .call (.inl p) => { s with mon := m, left := Function.update s.left p (s.left p).tail }
  | .call (.inr (.inr _)) => { s with mon := m, shut := true }
  | .ret (.inr (.inl c)) =>
    match s.mon.pc (.inr (.inl c)) with
    | .leaving _ _ (.popped (some v)) => { s with mon := m, tally := Function.update s.tally c ((s.tally c).add (key v)) }
    | .leaving _ _ (.popped none) =>
      { s with mon := m, exited := Function.update s.exited c true, total := s.total.merge (s.tally c) }
    | _ => { s with mon := m }
  | _ => { s with mon := m }

variable [Fintype C]

def step (M : Monitor D Op Cv (Res T)) (ends : Ends Op T) (key : T → BitVec 64) (s : Client P C D Op T)
    (a : Label (Party P C)) : Option (Client P C D Op T) :=
  (s.action ends a).bind fun b => (M.step (fun _ _ => true) s.mon b).map fun m => s.note key m a

def machine (C : Type) [DecidableEq C] [Fintype C] (M : Monitor D Op Cv (Res T)) (ends : Ends Op T) (key : T → BitVec 64)
    (pushes : P → List T) : Machine (Client P C D Op T) (Label (Party P C)) where
  start := ⟨(M.machine fun _ _ => true).start, pushes, fun _ => .zero, fun _ => false, .zero, false⟩
  step := step M ends key

def recorded (C : Type) [DecidableEq C] [Fintype C] (M : Monitor D Op Cv (Res T)) (event : Op → Res T → Event T)
    (ends : Ends Op T) (key : T → BitVec 64) (pushes : P → List T) :
    Machine (Client P C D Op T × List (Party P C × Event T)) (Label (Party P C)) :=
  (machine C M ends key pushes).logged fun s a => ((s.action ends a).map (emits M event s.mon)).getD []

end Client

/-- What a client relies on: its calls do what they say to a FIFO that only `close` shuts. -/
structure Serves {D Op T : Type} (M : Monitor D Op Cv (Res T)) (event : Op → Res T → Event T) (room : Nat → Prop)
    (Inv : D → Prop) (abs : D → Fifo T) (ends : Ends Op T) : Prop where
  refines : Refines M event room Inv abs
  push : ∀ {v w d d' held later r}, M.sect (ends.push v) w d = .leave d' held later r →
    event (ends.push v) r = .accept v ∨ event (ends.push v) r = .refuse ∧ (abs d).closed = true
  pop : ∀ {w d d' held later r}, M.sect ends.waitPop w d = .leave d' held later r →
    (∃ v, r = .popped (some v) ∧ event ends.waitPop r = .take v) ∨ r = .popped none ∧ event ends.waitPop r = .finish
  shut : ∀ {w d d' held later r}, M.sect ends.close w d = .leave d' held later r → event ends.close r = .shut
  awake : ∀ {w d d' v}, M.sect ends.close w d ≠ .sleep d' v
  closes : Closes M (fun d => (abs d).closed) ends.close

/-! ## What the threads of a client have done -/

section
variable {Tid T : Type} [DecidableEq Tid]

def sentBy (log : List (Tid × Event T)) (t : Tid) : List T := values ((accepted log).filter (·.1 = t))

def takenBy (log : List (Tid × Event T)) (t : Tid) : List T := values ((received log).filter (·.1 = t))

variable (log : List (Tid × Event T)) (t u : Tid) (v : T)

omit [DecidableEq Tid] in
theorem accepted_append (l : List (Tid × Event T)) : accepted (log ++ l) = accepted log ++ accepted l :=
  List.filterMap_append

omit [DecidableEq Tid] in
theorem received_append (l : List (Tid × Event T)) : received (log ++ l) = received log ++ received l :=
  List.filterMap_append

theorem sentBy_accept : sentBy (log ++ [(t, .accept v)]) u = sentBy log u ++ if u = t then [v] else [] := by
  unfold sentBy
  rw [accepted_append]
  by_cases hut : u = t
  · subst hut
    simp [accepted, values]
  · simp [accepted, values, hut, Ne.symm hut]

theorem takenBy_take : takenBy (log ++ [(t, .take v)]) u = takenBy log u ++ if u = t then [v] else [] := by
  unfold takenBy
  rw [received_append]
  by_cases hut : u = t
  · subst hut
    simp [received, values]
  · simp [received, values, hut, Ne.symm hut]

theorem takenBy_finish : takenBy (log ++ [(t, .finish)]) u = takenBy log u := by
  unfold takenBy
  rw [received_append]
  exact congrArg (fun l => values (l.filter (·.1 = u))) (List.append_nil _)

theorem sentBy_other {l : List (Tid × Event T)} (h : ∀ x ∈ l, x.1 ≠ u) : sentBy (log ++ l) u = sentBy log u := by
  have hnone : (accepted l).filter (·.1 = u) = [] := by
    apply List.filter_eq_nil_iff.mpr
    intro x hx
    obtain ⟨y, hy, he⟩ := List.mem_filterMap.mp hx
    split at he <;> cases he
    simpa using h y hy
  unfold sentBy
  rw [accepted_append, List.filter_append, hnone, List.append_nil]

theorem takenBy_other {l : List (Tid × Event T)} (h : ∀ x ∈ l, x.1 ≠ u) : takenBy (log ++ l) u = takenBy log u := by
  have hnone : (received l).filter (·.1 = u) = [] := by
    apply List.filter_eq_nil_iff.mpr
    intro x hx
    obtain ⟨y, hy, he⟩ := List.mem_filterMap.mp hx
    split at he <;> cases he
    simpa using h y hy
  unfold takenBy
  rw [received_append, List.filter_append, hnone, List.append_nil]

end

def Tally.of {T : Type} (key : T → BitVec 64) (l : List T) : Tally := ⟨BitVec.ofNat 64 l.length, (l.map key).sum⟩

theorem Tally.of_append {T : Type} (key : T → BitVec 64) (l : List T) (v : T) :
    Tally.of key (l ++ [v]) = (Tally.of key l).add (key v) := by
  simp [Tally.of, Tally.add, BitVec.ofNat_add]

namespace Client

variable {P C D Op T : Type}

def Sends (ends : Ends Op T) (sent left pushes : List T) : Doing Op (Res T) → Prop
  | .calling op => ∃ v, op = ends.push v ∧ sent ++ v :: left = pushes
  | _ => sent ++ left = pushes

/-- A consumer has taken the values `taken` and added them up, but for the one that it returns with. -/
def Takes (ends : Ends Op T) (key : T → BitVec 64) (taken : List T) (tally : Tally) (exited : Bool) (ended : Prop) :
    Doing Op (Res T) → Prop
  | .nothing => tally = Tally.of key taken ∧ (exited = true → ended)
  | .calling op => op = ends.waitPop ∧ exited = false ∧ tally = Tally.of key taken
  | .returning _ r => exited = false ∧ ((∃ v seen, r = .popped (some v) ∧ taken = seen ++ [v] ∧ tally = Tally.of key seen) ∨
      r = .popped none ∧ tally = Tally.of key taken ∧ ended)

def Shuts (ends : Ends Op T) (shut closed : Bool) : Doing Op (Res T) → Prop
  | .nothing => closed = shut
  | .calling op => op = ends.close ∧ shut = true
  | .returning _ _ => shut = true ∧ closed = true

section
variable [DecidableEq P] [DecidableEq C]

/-- What thread `u` has done, when the queue has the history `log`. -/
def Part (ends : Ends Op T) (key : T → BitVec 64) (abs : D → Fifo T) (pushes : P → List T) (s : Client P C D Op T)
    (log : List (Party P C × Event T)) (u : Party P C) : Prop :=
  match u with
  | .inl p => Sends ends (sentBy log u) (s.left p) (pushes p) (s.mon.pc u).doing
  | .inr (.inl c) => Takes ends key (takenBy log u) (s.tally c) (s.exited c) ((u, .finish) ∈ log) (s.mon.pc u).doing
  | .inr (.inr _) => Shuts ends s.shut (abs s.mon.data).closed (s.mon.pc u).doing

structure Known [Fintype C] (ends : Ends Op T) (key : T → BitVec 64) (abs : D → Fifo T) (pushes : P → List T)
    (s : Client P C D Op T) (log : List (Party P C × Event T)) : Prop where
  parts : ∀ u, Part ends key abs pushes s log u
  joined : s.shut = true → ∀ p, s.left p = [] ∧ (s.mon.pc (.inl p)).doing = .nothing
  senders : ∀ x ∈ accepted log, ∃ p, x.1 = .inl p
  takers : ∀ x ∈ received log, ∃ c, x.1 = .inr (.inl c)
  count : s.total.count = ∑ c, if s.exited c then (s.tally c).count else 0
  sum : s.total.sum = ∑ c, if s.exited c then (s.tally c).sum else 0

def Keeps (abs : D → Fifo T) (s s' : Client P C D Op T) : Party P C → Prop
  | .inl p => s'.left p = s.left p
  | .inr (.inl c) => s'.tally c = s.tally c ∧ s'.exited c = s.exited c
  | .inr (.inr _) => s'.shut = s.shut ∧ (abs s'.mon.data).closed = (abs s.mon.data).closed

theorem Part.other {ends : Ends Op T} {key : T → BitVec 64} {abs : D → Fifo T} {pushes : P → List T}
    {s s' : Client P C D Op T} {log l : List (Party P C × Event T)} {u : Party P C} (h : Part ends key abs pushes s log u)
    (hk : Keeps abs s s' u) (hdoing : (s'.mon.pc u).doing = (s.mon.pc u).doing) (hl : ∀ x ∈ l, x.1 ≠ u) :
    Part ends key abs pushes s' (log ++ l) u := by
  have hsent := sentBy_other log u hl
  have htaken := takenBy_other log u hl
  rcases u with p | c | u
  · simp only [Part] at h ⊢
    rw [hsent, hdoing, show s'.left p = s.left p from hk]
    exact h
  · have hfinish : (Sum.inr (Sum.inl c), Event.finish) ∈ log ++ l ↔ (Sum.inr (Sum.inl c), Event.finish) ∈ log := by
      rw [List.mem_append, or_iff_left fun hm => hl _ hm rfl]
    simp only [Part] at h ⊢
    rw [htaken, hdoing, hfinish, hk.1, hk.2]
    exact h
  · simp only [Part] at h ⊢
    rw [hdoing, hk.1, hk.2]
    exact h

end

/-! ## What a step of a client does -/

section
variable [Fintype P] [DecidableEq P] [DecidableEq C] [Fintype C] {M : Monitor D Op Cv (Res T)} {event : Op → Res T → Event T}
  {room : Nat → Prop} {Inv : D → Prop} {abs : D → Fifo T} {ends : Ends Op T} {key : T → BitVec 64} {pushes : P → List T}
  {s s' : Client P C D Op T} {log log' : List (Party P C × Event T)} {a : Label (Party P C)}

omit [Fintype P] [Fintype C] in
@[simp] theorem note_mon (s : Client P C D Op T) (m : State (Party P C) D Op Cv (Res T)) (a : Label (Party P C)) :
    (s.note key m a).mon = m := by
  unfold note
  split <;> first | rfl | (split <;> rfl)

omit [Fintype P] [Fintype C] in
theorem note_keeps {m : State (Party P C) D Op Cv (Res T)} (hd : m.data = s.mon.data) {t u : Party P C} (hu : u ≠ t)
    (ha : a = .call t ∨ a = .ret t) : Keeps abs s (s.note key m a) u := by
  have same : ∀ {s' : Client P C D Op T}, s'.mon.data = s.mon.data → s'.left = s.left → s'.tally = s.tally →
      s'.exited = s.exited → s'.shut = s.shut → Keeps abs s s' u := by
    intro s' h1 h2 h3 h4 h5
    rcases u with q | c | u
    · exact congrFun h2 q
    · exact ⟨congrFun h3 c, congrFun h4 c⟩
    · exact ⟨h5, by rw [h1]⟩
  rcases ha with rfl | rfl
  · rcases t with p | c | x
    · rcases u with q | c | u
      · exact Function.update_of_ne (by simpa using hu) ..
      · exact ⟨rfl, rfl⟩
      · exact ⟨rfl, congrArg (fun d => (abs d).closed) hd⟩
    · exact same hd rfl rfl rfl rfl
    · rcases u with q | c | u
      · rfl
      · exact ⟨rfl, rfl⟩
      · exact absurd rfl hu
  · rcases t with p | c | x
    · exact same hd rfl rfl rfl rfl
    · unfold note
      simp only
      split
      · rcases u with q | c' | u
        · rfl
        · exact ⟨Function.update_of_ne (by simpa using hu) .., rfl⟩
        · exact ⟨rfl, congrArg (fun d => (abs d).closed) hd⟩
      · rcases u with q | c' | u
        · rfl
        · exact ⟨rfl, Function.update_of_ne (by simpa using hu) ..⟩
        · exact ⟨rfl, congrArg (fun d => (abs d).closed) hd⟩
      · exact same hd rfl rfl rfl rfl
    · exact same hd rfl rfl rfl rfl

theorem step_iff : s.step M ends key a = some s' ↔
    ∃ b, s.action ends a = some b ∧ M.step (fun _ _ => true) s.mon b = some s'.mon ∧ s' = s.note key s'.mon a := by
  unfold step
  rw [Option.bind_eq_some_iff]
  constructor
  · rintro ⟨b, hb, h⟩
    obtain ⟨m, hm, rfl⟩ := Option.map_eq_some_iff.mp h
    refine ⟨b, hb, ?_, ?_⟩
    · rw [note_mon]
      exact hm
    · rw [note_mon]
  · rintro ⟨b, hb, hm, hs⟩
    refine ⟨b, hb, ?_⟩
    rw [hm, Option.map_some, ← hs]

/-- A call, the end of a section, a return, or nothing that another thread could tell. -/
inductive Turn (M : Monitor D Op Cv (Res T)) (event : Op → Res T → Event T) (ends : Ends Op T) (key : T → BitVec 64)
    (s s' : Client P C D Op T) (l : List (Party P C × Event T)) : Label (Party P C) → Prop
  | calls {t : Party P C} {op : Op} : s.next ends t = some op → (s.mon.pc t).doing = .nothing → s'.mon.data = s.mon.data →
      (∀ u, (s'.mon.pc u).doing = Function.update (fun v => (s.mon.pc v).doing) t (.calling op) u) →
      s' = s.note key s'.mon (.call t) → l = [] → Turn M event ends key s s' l (.call t)
  | leaves {t : Party P C} {pick : Option (Party P C)} {op : Op} {w : Bool} {held : Option (Notify Cv)}
      {later : List (Notify Cv)} {r : Res T} : (s.mon.pc t).doing = .calling op →
      M.sect op w s.mon.data = .leave s'.mon.data held later r →
      (∀ u, (s'.mon.pc u).doing = Function.update (fun v => (s.mon.pc v).doing) t (.returning op r) u) →
      s' = { s with mon := s'.mon } → l = [(t, event op r)] → Turn M event ends key s s' l (.acquire t pick)
  | returns {t : Party P C} {op : Op} {r : Res T} : s.mon.pc t = .leaving op [] r → s'.mon.data = s.mon.data →
      (∀ u, (s'.mon.pc u).doing = Function.update (fun v => (s.mon.pc v).doing) t .nothing u) →
      s' = s.note key s'.mon (.ret t) → l = [] → Turn M event ends key s s' l (.ret t)
  | quiet {a : Label (Party P C)} : (∀ t, a ≠ .call t) →
      (s'.mon.data = s.mon.data ∨ ∃ op w v, M.sect op w s.mon.data = .sleep s'.mon.data v) →
      (∀ u, (s'.mon.pc u).doing = (s.mon.pc u).doing) → s' = { s with mon := s'.mon } → l = [] →
      Turn M event ends key s s' l a

theorem turn (hs : (recorded C M event ends key pushes).step (s, log) a = some (s', log')) :
    ∃ l, log' = log ++ l ∧ Turn M event ends key s s' l a := by
  obtain ⟨h, hlog⟩ := Machine.logged_step.mp hs
  obtain ⟨b, hb, hm, he⟩ := step_iff.mp h
  refine ⟨_, hlog, ?_⟩
  show Turn M event ends key s s' (((s.action ends a).map (emits M event s.mon)).getD []) a
  rw [hb]
  have hturns := (step_spec hm).turns
  cases a with
  | call t =>
    obtain ⟨op, hop, rfl⟩ := Option.map_eq_some_iff.mp hb
    cases hturns with
    | calls hpc hd hall => exact .calls hop hpc hd hall he rfl
  | acquire t pick =>
    cases hb
    cases hturns with
    | ends hr hx hall =>
      refine .leaves (ready_doing hr) hx hall he ?_
      simp [emits, completes, hr, hx]
    | sleeps hr hx hall =>
      refine .quiet (by simp) (.inr ⟨_, _, _, hx⟩) hall he ?_
      simp [emits, completes, hr, hx]
  | notify t pick =>
    cases hb
    cases hturns with
    | notifies hd hall => exact .quiet (by simp) (.inl hd) hall he rfl
  | spurious t =>
    cases hb
    cases hturns with
    | stirs hd hall => exact .quiet (by simp) (.inl hd) hall he rfl
  | ret t =>
    cases hb
    cases hturns with
    | returns hpc hd hall => exact .returns hpc hd hall he rfl

theorem recorded_mon (h : (recorded C M event ends key pushes).Reachable (s, log)) :
    (Yutil.recorded M event fun _ _ => true).Reachable (s.mon, log) := by
  refine h.invariant (I := fun x => (Yutil.recorded M event fun _ _ => true).Reachable (x.1.mon, x.2)) .start ?_
  rintro ⟨s, log⟩ a ⟨s', log'⟩ _ ih hs
  obtain ⟨h, hlog⟩ := Machine.logged_step.mp hs
  obtain ⟨b, hb, hm, -⟩ := step_iff.mp h
  refine .step ih (a := b) (Machine.logged_step.mpr ⟨hm, ?_⟩)
  rw [hlog]
  simp only at hb ⊢
  rw [hb]
  rfl

theorem Known.calls (h : Known ends key abs pushes s log) {t : Party P C} {op : Op} (hop : s.next ends t = some op)
    (hpc : (s.mon.pc t).doing = .nothing) (hd : s'.mon.data = s.mon.data)
    (hall : ∀ u, (s'.mon.pc u).doing = Function.update (fun v => (s.mon.pc v).doing) t (.calling op) u)
    (he : s' = s.note key s'.mon (.call t)) : Known ends key abs pushes s' log := by
  have self : (s'.mon.pc t).doing = .calling op := (hall t).trans (Function.update_self ..)
  have other : ∀ u, u ≠ t → (s'.mon.pc u).doing = (s.mon.pc u).doing := fun u hu => (hall u).trans (Function.update_of_ne hu ..)
  have parts : Part ends key abs pushes s' log t → ∀ u, Part ends key abs pushes s' log u := by
    intro ht u
    by_cases hu : u = t
    · rw [hu]
      exact ht
    · have hk : Keeps abs s s' u := by
        rw [he]
        exact note_keeps hd hu (.inl rfl)
      have hp := (h.parts u).other hk (other u hu) (l := []) (by simp)
      rwa [List.append_nil] at hp
  have ht := h.parts t
  obtain ⟨m, left, tally, exited, total, shut⟩ := s'
  rcases t with p | c | u
  · -- a producer takes its next value in hand
    obtain ⟨v, hv, rfl⟩ := Option.map_eq_some_iff.mp hop
    obtain ⟨rest, hrest⟩ := List.head?_eq_some_iff.mp hv
    simp only [note, mk.injEq, true_and] at he
    obtain ⟨rfl, rfl, rfl, rfl, rfl⟩ := he
    simp only [Part, hpc, hrest] at ht
    refine ⟨parts ?_, fun hshut => ?_, h.senders, h.takers, h.count, h.sum⟩
    · simp only [Part, self, Function.update_self, hrest]
      exact ⟨v, rfl, ht⟩
    · have := (h.joined hshut p).1
      rw [hrest] at this
      cases this
  · simp only [next] at hop
    split at hop
    · cases hop
    · rename_i hexit
      cases hop
      simp only [note, mk.injEq, true_and] at he
      obtain ⟨rfl, rfl, rfl, rfl, rfl⟩ := he
      simp only [Part, hpc] at ht
      refine ⟨parts ?_, fun hshut q => ?_, h.senders, h.takers, h.count, h.sum⟩
      · simp only [Part, self]
        exact ⟨rfl, by simpa using hexit, ht.1⟩
      · rw [other _ (by simp)]
        exact h.joined hshut q
  · simp only [next] at hop
    split at hop
    · rename_i hready
      cases hop
      simp only [note, mk.injEq, true_and] at he
      obtain ⟨rfl, rfl, rfl, rfl, rfl⟩ := he
      refine ⟨parts ?_, fun _ q => ?_, h.senders, h.takers, h.count, h.sum⟩
      · simp only [Part, self]
        exact ⟨rfl, rfl⟩
      · have hq := hready.2 q
        simp only [unfinished, Bool.or_eq_false_iff, Bool.not_eq_false'] at hq
        refine ⟨List.isEmpty_iff.mp hq.1, ?_⟩
        rw [other _ (by simp)]
        cases hpc : s.mon.pc (.inl q) with
        | idle => rfl
        | _ => simp [hpc, Pc.op?] at hq
    · cases hop

omit [Fintype P] [DecidableEq P] [DecidableEq C] [Fintype C] in
theorem closed_eq {f g : Fifo T} {e : Event T} (h : f.Does room e g) (he : e ≠ .shut) : g.closed = f.closed := by
  cases h with
  | shut => exact absurd rfl he
  | _ => rfl

omit [Fintype P] in
theorem Known.leaves (hS : Serves M event room Inv abs ends) (hi : Inv s.mon.data) (h : Known ends key abs pushes s log)
    {t : Party P C} {op : Op} {w : Bool} {held : Option (Notify Cv)} {later : List (Notify Cv)} {r : Res T}
    (hpc : (s.mon.pc t).doing = .calling op) (hx : M.sect op w s.mon.data = .leave s'.mon.data held later r)
    (hall : ∀ u, (s'.mon.pc u).doing = Function.update (fun v => (s.mon.pc v).doing) t (.returning op r) u)
    (he : s' = { s with mon := s'.mon }) : Known ends key abs pushes s' (log ++ [(t, event op r)]) := by
  have self : (s'.mon.pc t).doing = .returning op r := (hall t).trans (Function.update_self ..)
  have other : ∀ u, u ≠ t → (s'.mon.pc u).doing = (s.mon.pc u).doing := fun u hu => (hall u).trans (Function.update_of_ne hu ..)
  have hdoes := (hS.refines.leave hi hx).2
  have ht := h.parts t
  have hmain := h.parts (.inr (.inr ()))
  obtain ⟨m, left, tally, exited, total, shut⟩ := s'
  simp only [mk.injEq, true_and] at he
  obtain ⟨rfl, rfl, rfl, rfl, rfl⟩ := he
  have parts : (event op r ≠ .shut ∨ t = .inr (.inr ())) →
      Part ends key abs pushes ⟨m, s.left, s.tally, s.exited, s.total, s.shut⟩ (log ++ [(t, event op r)]) t →
      ∀ u, Part ends key abs pushes ⟨m, s.left, s.tally, s.exited, s.total, s.shut⟩ (log ++ [(t, event op r)]) u := by
    intro hshut ht u
    by_cases hu : u = t
    · rw [hu]
      exact ht
    · refine (h.parts u).other ?_ (other u hu) (by simpa using Ne.symm hu)
      rcases u with q | c | u
      · rfl
      · exact ⟨rfl, rfl⟩
      · exact ⟨rfl, closed_eq hdoes (hshut.resolve_right fun ht => hu ht.symm)⟩
  rcases t with p | c | u
  · simp only [Part, hpc, Sends] at ht
    obtain ⟨v, rfl, hsent⟩ := ht
    have hjoined : s.shut = false := by
      apply Bool.eq_false_iff.mpr
      intro hshut
      have hq := (h.joined hshut p).2
      rw [hpc] at hq
      cases hq
    rcases hS.push hx with hev | ⟨hev, hclosed⟩
    · rw [hev] at parts ⊢
      refine ⟨parts (.inl (by simp)) ?_, fun hshut => ?_, fun x hx => ?_, fun x hx => ?_, h.count, h.sum⟩
      · simp only [Part, self, sentBy_accept, if_pos]
        show (sentBy log (.inl p) ++ [v]) ++ s.left p = pushes p
        rw [List.append_assoc]
        exact hsent
      · rw [hjoined] at hshut
        cases hshut
      · rw [accepted_append] at hx
        rcases List.mem_append.mp hx with hx | hx
        · exact h.senders x hx
        · obtain rfl := List.mem_singleton.mp hx
          exact ⟨p, rfl⟩
      · rw [received_append] at hx
        exact h.takers x (by simpa [received] using hx)
    · -- only a closed queue refuses a push, and main closes it when the producers have returned
      simp only [Part] at hmain
      cases hm : (s.mon.pc (.inr (.inr ()))).doing with
      | nothing =>
        rw [hm] at hmain
        rw [show (abs s.mon.data).closed = s.shut from hmain, hjoined] at hclosed
        cases hclosed
      | calling op =>
        rw [hm] at hmain
        rw [hmain.2] at hjoined
        cases hjoined
      | returning op r =>
        rw [hm] at hmain
        rw [hmain.1] at hjoined
        cases hjoined
  · simp only [Part, hpc, Takes] at ht
    obtain ⟨rfl, hexit, htally⟩ := ht
    have stays : ∀ q, (m.pc (.inl q)).doing = (s.mon.pc (.inl q)).doing := fun q => other _ (by simp)
    rcases hS.pop hx with ⟨v, rfl, hev⟩ | ⟨rfl, hev⟩
    · rw [hev] at parts ⊢
      refine ⟨parts (.inl (by simp)) ?_, fun hshut q => ?_, fun x hx => ?_, fun x hx => ?_, h.count, h.sum⟩
      · simp only [Part, self, takenBy_take, if_pos]
        exact ⟨hexit, .inl ⟨v, _, rfl, rfl, htally⟩⟩
      · rw [stays q]
        exact h.joined hshut q
      · rw [accepted_append] at hx
        exact h.senders x (by simpa [accepted] using hx)
      · rw [received_append] at hx
        rcases List.mem_append.mp hx with hx | hx
        · exact h.takers x hx
        · obtain rfl := List.mem_singleton.mp hx
          exact ⟨c, rfl⟩
    · rw [hev] at parts ⊢
      refine ⟨parts (.inl (by simp)) ?_, fun hshut q => ?_, fun x hx => ?_, fun x hx => ?_, h.count, h.sum⟩
      · simp only [Part, self, takenBy_finish]
        exact ⟨hexit, .inr ⟨rfl, htally, by simp⟩⟩
      · rw [stays q]
        exact h.joined hshut q
      · rw [accepted_append] at hx
        exact h.senders x (by simpa [accepted] using hx)
      · rw [received_append] at hx
        exact h.takers x (by simpa [received] using hx)
  · simp only [Part, hpc, Shuts] at ht
    obtain ⟨rfl, hshut⟩ := ht
    have hev := hS.shut hx
    rw [hev] at parts ⊢
    refine ⟨parts (.inr rfl) ?_, fun hshut q => ?_, fun x hx => ?_, fun x hx => ?_, h.count, h.sum⟩
    · simp only [Part, self]
      exact ⟨hshut, hS.closes.shuts hx⟩
    · rw [other _ (by simp)]
      exact h.joined hshut q
    · rw [accepted_append] at hx
      exact h.senders x (by simpa [accepted] using hx)
    · rw [received_append] at hx
      exact h.takers x (by simpa [received] using hx)

omit [Fintype P] in
theorem Known.returns (h : Known ends key abs pushes s log) {t : Party P C} {op : Op} {r : Res T}
    (hpc : s.mon.pc t = .leaving op [] r) (hd : s'.mon.data = s.mon.data)
    (hall : ∀ u, (s'.mon.pc u).doing = Function.update (fun v => (s.mon.pc v).doing) t .nothing u)
    (he : s' = s.note key s'.mon (.ret t)) : Known ends key abs pushes s' log := by
  have self : (s'.mon.pc t).doing = .nothing := (hall t).trans (Function.update_self ..)
  have other : ∀ u, u ≠ t → (s'.mon.pc u).doing = (s.mon.pc u).doing := fun u hu => (hall u).trans (Function.update_of_ne hu ..)
  have parts : Part ends key abs pushes s' log t → ∀ u, Part ends key abs pushes s' log u := by
    intro ht u
    by_cases hu : u = t
    · rw [hu]
      exact ht
    · have hk : Keeps abs s s' u := by
        rw [he]
        exact note_keeps hd hu (.inr rfl)
      have hp := (h.parts u).other hk (other u hu) (l := []) (by simp)
      rwa [List.append_nil] at hp
  have ht := h.parts t
  obtain ⟨m, left, tally, exited, total, shut⟩ := s'
  have joined : (∀ q, left q = s.left q) → shut = s.shut → shut = true → ∀ q, left q = [] ∧ (m.pc (.inl q)).doing = .nothing := by
    intro hleft hs hshut q
    obtain ⟨h1, h2⟩ := h.joined (hs ▸ hshut) q
    refine ⟨(hleft q).trans h1, ?_⟩
    by_cases hq : Sum.inl q = t
    · rw [hq]
      exact self
    · rw [← h2]
      exact other _ hq
  simp only [Part, hpc, Pc.doing] at ht
  rcases t with p | c | u
  · simp only [note, mk.injEq, true_and] at he
    obtain ⟨rfl, rfl, rfl, rfl, rfl⟩ := he
    refine ⟨parts ?_, joined (fun _ => rfl) rfl, h.senders, h.takers, h.count, h.sum⟩
    · simp only [Part, self]
      exact ht
  · obtain ⟨hexit, ⟨v, seen, rfl, htaken, htally⟩ | ⟨rfl, htally, hended⟩⟩ := ht
    · simp only [note, hpc, mk.injEq, true_and] at he
      obtain ⟨rfl, rfl, rfl, rfl, rfl⟩ := he
      refine ⟨parts ?_, joined (fun _ => rfl) rfl, h.senders, h.takers, ?_, ?_⟩
      · simp only [Part, self, Function.update_self]
        refine ⟨?_, fun h => by rw [hexit] at h; cases h⟩
        rw [htaken, Tally.of_append, htally]
      · rw [h.count]
        refine Finset.sum_congr rfl fun c' _ => ?_
        by_cases hc : c' = c
        · rw [hc, hexit]
          rfl
        · simp only [Function.update_of_ne hc]
      · rw [h.sum]
        refine Finset.sum_congr rfl fun c' _ => ?_
        by_cases hc : c' = c
        · rw [hc, hexit]
          rfl
        · simp only [Function.update_of_ne hc]
    · simp only [note, hpc, mk.injEq, true_and] at he
      obtain ⟨rfl, rfl, rfl, rfl, rfl⟩ := he
      have exits : ∀ f : C → BitVec 64, (∑ c', if Function.update s.exited c true c' = true then f c' else 0) =
          (∑ c', if s.exited c' = true then f c' else 0) + f c := by
        intro f
        rw [← Finset.add_sum_erase _ _ (Finset.mem_univ c), ← Finset.add_sum_erase _ (fun c' => if s.exited c' = true then f c' else 0)
          (Finset.mem_univ c)]
        simp only [Function.update_self, hexit, Bool.false_eq_true, ite_false, ite_true, zero_add]
        rw [add_comm]
        congr 1
        refine Finset.sum_congr rfl fun c' hc' => ?_
        rw [Function.update_of_ne (Finset.ne_of_mem_erase hc')]
      refine ⟨parts ?_, joined (fun _ => rfl) rfl, h.senders, h.takers, ?_, ?_⟩
      · simp only [Part, self]
        exact ⟨htally, fun _ => hended⟩
      · simp only [Tally.merge, exits, h.count]
      · simp only [Tally.merge, exits, h.sum]
  · simp only [note, mk.injEq, true_and] at he
    obtain ⟨rfl, rfl, rfl, rfl, rfl⟩ := he
    refine ⟨parts ?_, joined (fun _ => rfl) rfl, h.senders, h.takers, h.count, h.sum⟩
    · simp only [Part, self]
      rw [hd, ht.1, ht.2]
      rfl

theorem known_reachable (hS : Serves M event room Inv abs ends)
    (hr : (recorded C M event ends key pushes).Reachable (s, log)) : Known ends key abs pushes s log := by
  refine hr.invariant (I := fun x => Known ends key abs pushes x.1 x.2) ?_ ?_
  · refine ⟨fun u => ?_, ?_, ?_, ?_, ?_, ?_⟩
    · rcases u with p | c | u
      · exact List.nil_append _
      · refine ⟨rfl, fun h => ?_⟩
        cases h
      · show (abs M.start).closed = false
        rw [hS.refines.start_abs]
        rfl
    · intro h
      cases h
    · intro x hx
      cases hx
    · intro x hx
      cases hx
    · exact (Finset.sum_eq_zero fun c _ => rfl).symm
    · exact (Finset.sum_eq_zero fun c _ => rfl).symm
  · rintro ⟨s, log⟩ a ⟨s', log'⟩ hr h hs
    obtain ⟨l, rfl, ht⟩ := turn hs
    have hi := (refines_path hS.refines (recorded_mon hr)).1
    cases ht with
    | calls hop hpc hd hall he hl =>
      rw [hl, List.append_nil]
      exact h.calls hop hpc hd hall he
    | leaves hpc hx hall he hl =>
      rw [hl]
      exact h.leaves hS hi hpc hx hall he
    | returns hpc hd hall he hl =>
      rw [hl, List.append_nil]
      exact h.returns hpc hd hall he
    | quiet _ hd hall he hl =>
      rw [hl, List.append_nil]
      have habs : (abs s'.mon.data).closed = (abs s.mon.data).closed := by
        rcases hd with hd | ⟨op, w, v, hx⟩
        · rw [hd]
        · rw [(hS.refines.sleep hi hx).2]
      obtain ⟨m, left, tally, exited, total, shut⟩ := s'
      simp only [mk.injEq, true_and] at he
      obtain ⟨rfl, rfl, rfl, rfl, rfl⟩ := he
      refine ⟨fun u => ?_, fun hshut q => ?_, h.senders, h.takers, h.count, h.sum⟩
      · have hk : Keeps abs s ⟨m, s.left, s.tally, s.exited, s.total, s.shut⟩ u := by
          rcases u with q | c | u
          · rfl
          · exact ⟨rfl, rfl⟩
          · exact ⟨rfl, habs⟩
        have hp := (h.parts u).other hk (hall u) (l := []) (by simp)
        rwa [List.append_nil] at hp
      · rw [hall]
        exact h.joined hshut q

end

end Client

end Yutil
