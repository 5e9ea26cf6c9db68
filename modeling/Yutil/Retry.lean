import Yutil.ClientRuns
import Yutil.DrainProtocol
import Yutil.Routines
import Yutil.QueueObjects

/-!
# The benchmark of the rings

Producers retry `try_push` until it takes their value and count themselves
done. A consumer adds up what `try_pop` hands it, and leaves after one that
fails when it has read that all producers are done. Main joins them all and
closes the queue.
-/

namespace Yutil

open Interleave

namespace Retry

/-- What the threads know: the values that a producer has still to push, whether
it is done, and where a consumer is in its loop, with what it has popped. -/
structure Vars (P C T : Type) where
  left : P → List T
  counted : P → Bool
  doneProducers : Nat
  phase : C → Phase
  out : C → List T
  localSum : C → BitVec 64
  sum : BitVec 64
  shut : Bool

variable {P C T : Type}

def Vars.start (pushes : P → List T) : Vars P C T :=
  ⟨pushes, fun _ => false, 0, fun _ => .first, fun _ => [], fun _ => 0, 0, false⟩

def Vars.allCounted (v : Vars P C T) : Prop := ∀ p, v.counted p = true

section
variable [Fintype P] [Fintype C]

def calls (v : Vars P C T) : Party P C → Option (RingOp T × Vars P C T)
  | .inl p => (v.left p).head?.map fun value => (.tryEmplace (.value value), v)
  | .inr (.inl c) => if v.phase c = .first ∨ v.phase c = .last then some (.tryPop true, v) else none
  | .inr (.inr _) =>
    if v.shut = false ∧ (∀ p, v.counted p = true) ∧ ∀ c, v.phase c = .exited then some (.close, { v with shut := true })
    else none

variable [DecidableEq P] [DecidableEq C]

omit [Fintype P] [Fintype C] in
def takes (key : T → BitVec 64) (v : Vars P C T) : Party P C → Res T → Vars P C T
  | .inl p, .pushed true => { v with left := Function.update v.left p (v.left p).tail }
  | .inr (.inl c), .popped (some value) =>
    { v with out := Function.update v.out c (v.out c ++ [value])
             localSum := Function.update v.localSum c (v.localSum c + key value)
             phase := Function.update v.phase c .first }
  | .inr (.inl c), .popped none =>
    if v.phase c = .last then { v with phase := Function.update v.phase c .exited, sum := v.sum + v.localSum c }
    else { v with phase := Function.update v.phase c .reading }
  | _, _ => v

omit [Fintype C] in
/-- `done_producers.fetch_add(1)` and `done_producers.load()`. -/
def turns (v : Vars P C T) : Party P C → Option (Vars P C T)
  | .inl p =>
    if (v.left p).isEmpty ∧ v.counted p = false then
      some { v with counted := Function.update v.counted p true, doneProducers := v.doneProducers + 1 }
    else none
  | .inr (.inl c) =>
    if v.phase c = .reading then
      some { v with phase := Function.update v.phase c (if v.doneProducers = Fintype.card P then .last else .first) }
    else none
  | .inr (.inr _) => none

def routine (key : T → BitVec 64) (pushes : P → List T) : Routine (Party P C) (RingOp T) (Res T) (Vars P C T) :=
  ⟨Vars.start pushes, calls, takes key, turns⟩

end

/-! ## What the threads do -/

abbrev State (P C T : Type) := Running (Vars P C T) (Immediate.State (Party P C) (Fifo T) (RingOp T) (Res T))

def Part (v : Vars P C T) (f : Fifo T) : Party P C → Doing (RingOp T) (Res T) → Prop
  | .inl p, .nothing => v.counted p = true → v.left p = []
  | .inl p, .calling op => v.counted p = false ∧ ∃ value rest, v.left p = value :: rest ∧ op = .tryEmplace (.value value)
  | .inl p, .returning _ r => v.counted p = false ∧ ∃ ok, r = .pushed ok
  | .inr (.inl c), .nothing => (v.phase c = .last ∨ v.phase c = .exited → v.allCounted) ∧ (v.phase c = .exited → f.items = [])
  | .inr (.inl c), .calling op => op = .tryPop true ∧ (v.phase c = .first ∨ v.phase c = .last ∧ v.allCounted)
  | .inr (.inl c), .returning _ r =>
    ∃ o, r = .popped o ∧ (v.phase c = .first ∨ v.phase c = .last ∧ v.allCounted ∧ (o = none → f.items = []))
  | .inr (.inr _), .nothing => f.closed = v.shut
  | .inr (.inr _), .calling op => op = .close ∧ v.shut = true
  | .inr (.inr _), .returning _ _ => v.shut = true ∧ f.closed = true

def unsent (v : Vars P C T) (d : Party P C → Doing (RingOp T) (Res T)) (p : P) : List T :=
  match d (.inl p) with
  | .returning _ (.pushed true) => (v.left p).tail
  | _ => v.left p

def taken {Op : Type} : Doing Op (Res T) → List T
  | .returning _ (.popped (some value)) => [value]
  | _ => []

def got (v : Vars P C T) (d : Party P C → Doing (RingOp T) (Res T)) (c : C) : List T := v.out c ++ taken (d (.inr (.inl c)))

section
variable [Fintype P] [Fintype C] [DecidableEq P] [DecidableEq C]

structure Inv (key : T → BitVec 64) (pushes : P → List T) (s : State P C T) : Prop where
  parts : ∀ u, Part s.vars s.object.value u (s.object.doing u)
  joined : s.vars.shut = true → s.vars.allCounted ∧ ∀ c, s.vars.phase c = .exited
  count : s.vars.doneProducers = (Finset.univ.filter fun p => s.vars.counted p = true).card
  flow : (∑ p, (unsent s.vars s.object.doing p : Multiset T)) + s.object.value.items +
    ∑ c, (got s.vars s.object.doing c : Multiset T) = ∑ p, (pushes p : Multiset T)
  added : ∀ c, s.vars.localSum c = ((s.vars.out c).map key).sum
  sum : s.vars.sum = ∑ c, if s.vars.phase c = .exited then s.vars.localSum c else 0

/-- The turns of the threads. The numbers say whether a value moves, and whether a thread is done. -/
inductive Turns (key : T → BitVec 64) (capacity : Nat) (s : State P C T) :
    Party P C → Vars P C T → Fifo T → Doing (RingOp T) (Res T) → Nat → Nat → Prop
  | tries {p : P} {value : T} {rest : List T} : s.object.doing (.inl p) = .nothing → s.vars.left p = value :: rest →
      Turns key capacity s (.inl p) s.vars s.object.value (.calling (.tryEmplace (.value value))) 0 0
  | pushed {p : P} {value : T} {rest : List T} {op : RingOp T} : s.object.doing (.inl p) = .calling op →
      s.vars.left p = value :: rest →
      Turns key capacity s (.inl p) s.vars ⟨s.object.value.items ++ [value], s.object.value.closed⟩
        (.returning op (.pushed true)) 1 0
  | refused {p : P} {op : RingOp T} : s.object.doing (.inl p) = .calling op → capacity ≤ s.object.value.items.length →
      Turns key capacity s (.inl p) s.vars s.object.value (.returning op (.pushed false)) 0 0
  | sent {p : P} {op : RingOp T} : s.object.doing (.inl p) = .returning op (.pushed true) →
      Turns key capacity s (.inl p) { s.vars with left := Function.update s.vars.left p (s.vars.left p).tail }
        s.object.value .nothing 0 0
  | again {p : P} {op : RingOp T} : s.object.doing (.inl p) = .returning op (.pushed false) →
      Turns key capacity s (.inl p) s.vars s.object.value .nothing 0 0
  | counts {p : P} : s.object.doing (.inl p) = .nothing → s.vars.left p = [] → s.vars.counted p = false →
      Turns key capacity s (.inl p)
        { s.vars with counted := Function.update s.vars.counted p true, doneProducers := s.vars.doneProducers + 1 }
        s.object.value .nothing 0 1
  | asks {c : C} : s.object.doing (.inr (.inl c)) = .nothing → s.vars.phase c = .first ∨ s.vars.phase c = .last →
      Turns key capacity s (.inr (.inl c)) s.vars s.object.value (.calling (.tryPop true)) 0 0
  | took {c : C} {op : RingOp T} {value : T} {rest : List T} : s.object.doing (.inr (.inl c)) = .calling op →
      s.object.value.items = value :: rest →
      Turns key capacity s (.inr (.inl c)) s.vars ⟨rest, s.object.value.closed⟩ (.returning op (.popped (some value))) 1 0
  | missed {c : C} {op : RingOp T} : s.object.doing (.inr (.inl c)) = .calling op → s.object.value.items = [] →
      Turns key capacity s (.inr (.inl c)) s.vars s.object.value (.returning op (.popped none)) 0 0
  | keeps {c : C} {op : RingOp T} {value : T} : s.object.doing (.inr (.inl c)) = .returning op (.popped (some value)) →
      Turns key capacity s (.inr (.inl c))
        { s.vars with out := Function.update s.vars.out c (s.vars.out c ++ [value])
                      localSum := Function.update s.vars.localSum c (s.vars.localSum c + key value)
                      phase := Function.update s.vars.phase c .first } s.object.value .nothing 0 0
  | looks {c : C} {op : RingOp T} : s.object.doing (.inr (.inl c)) = .returning op (.popped none) →
      s.vars.phase c = .first →
      Turns key capacity s (.inr (.inl c)) { s.vars with phase := Function.update s.vars.phase c .reading }
        s.object.value .nothing 0 0
  | leaves {c : C} {op : RingOp T} : s.object.doing (.inr (.inl c)) = .returning op (.popped none) → s.vars.phase c = .last →
      Turns key capacity s (.inr (.inl c))
        { s.vars with phase := Function.update s.vars.phase c .exited, sum := s.vars.sum + s.vars.localSum c }
        s.object.value .nothing 0 1
  | loads {c : C} {next : Phase} : s.object.doing (.inr (.inl c)) = .nothing → s.vars.phase c = .reading →
      next = .last ∧ s.vars.allCounted ∨ next = .first ∧ ¬ s.vars.allCounted →
      Turns key capacity s (.inr (.inl c)) { s.vars with phase := Function.update s.vars.phase c next } s.object.value .nothing 0 0
  | shuts : s.object.doing (.inr (.inr ())) = .nothing → s.vars.shut = false → s.vars.allCounted →
      (∀ c, s.vars.phase c = .exited) →
      Turns key capacity s (.inr (.inr ())) { s.vars with shut := true } s.object.value (.calling .close) 0 0
  | closes {op : RingOp T} : s.object.doing (.inr (.inr ())) = .calling op → s.vars.shut = true →
      Turns key capacity s (.inr (.inr ())) s.vars ⟨s.object.value.items, true⟩ (.returning op .closed) 0 0
  | joins {op : RingOp T} {r : Res T} : s.object.doing (.inr (.inr ())) = .returning op r → s.vars.shut = true →
      Turns key capacity s (.inr (.inr ())) s.vars s.object.value .nothing 0 0

variable {key : T → BitVec 64} {capacity : Nat} {pushes : P → List T} {s s' : State P C T} {a : Routine.Label (Party P C)}

omit [DecidableEq P] [DecidableEq C] in
theorem Inv.open (h : Inv key pushes s) {p : P} (hp : s.vars.counted p = false) : s.object.value.closed = false := by
  by_contra hclosed
  have hshut : s.vars.shut = true := by
    have hmain := h.parts (.inr (.inr ()))
    cases hd : s.object.doing (.inr (.inr ())) with
    | nothing =>
      rw [hd] at hmain
      exact hmain.symm.trans (by simpa using hclosed)
    | calling op =>
      rw [hd] at hmain
      exact hmain.2
    | returning op r =>
      rw [hd] at hmain
      exact hmain.1
  have := (h.joined hshut).1 p
  rw [hp] at this
  cases this

omit [DecidableEq P] [DecidableEq C] in
theorem Inv.all_counted (h : Inv key pushes s) : s.vars.doneProducers = Fintype.card P ↔ s.vars.allCounted := by
  rw [h.count]
  constructor
  · intro hcard p
    have hall : Finset.univ.filter (fun p => s.vars.counted p = true) = Finset.univ :=
      Finset.eq_univ_of_card _ hcard
    have hp := Finset.mem_univ p
    rw [← hall] at hp
    exact (Finset.mem_filter.mp hp).2
  · intro hall
    rw [Finset.filter_true_of_mem fun p _ => hall p]
    rfl

theorem Inv.turn (h : Inv key pushes s) (hs : (routine key pushes).Steps (Fifo.object T capacity) s a s') :
    ∃ t v f d j i, t = a.thread ∧ s' = ⟨v, f, Function.update s.object.doing t d⟩ ∧ Turns key capacity s t v f d j i := by
  cases hs with
  | @call t op v hd hcalls =>
    refine ⟨t, v, _, .calling op, 0, 0, rfl, rfl, ?_⟩
    rcases t with p | c | u
    · obtain ⟨value, hvalue, he⟩ := Option.map_eq_some_iff.mp hcalls
      obtain ⟨rfl, rfl⟩ := Prod.mk.inj he
      obtain ⟨rest, hleft⟩ := List.head?_eq_some_iff.mp hvalue
      exact .tries hd hleft
    · simp only [routine, calls] at hcalls
      split at hcalls
      · cases hcalls
        exact .asks hd ‹_›
      · cases hcalls
    · simp only [routine, calls] at hcalls
      split at hcalls
      · rename_i hready
        cases hcalls
        exact .shuts hd hready.1 hready.2.1 hready.2.2
      · cases hcalls
  | @own t v hd hturns =>
    have hstays : Function.update s.object.doing t .nothing = s.object.doing := by
      rw [← hd]
      exact Function.update_eq_self ..
    rcases t with p | c | u
    · simp only [routine, turns] at hturns
      split at hturns
      · rename_i hready
        cases hturns
        exact ⟨.inl p, _, _, .nothing, 0, 1, rfl, by rw [hstays], .counts hd (List.isEmpty_iff.mp hready.1) hready.2⟩
      · cases hturns
    · simp only [routine, turns] at hturns
      split at hturns
      · rename_i hreading
        cases hturns
        refine ⟨.inr (.inl c), _, _, .nothing, 0, 0, rfl, by rw [hstays], .loads hd hreading ?_⟩
        by_cases hall : s.vars.allCounted
        · exact .inl ⟨if_pos (h.all_counted.mpr hall), hall⟩
        · exact .inr ⟨if_neg (mt h.all_counted.mp hall), hall⟩
      · cases hturns
    · cases hturns
  | @act t op f r hd ha =>
    have hpart := h.parts t
    rw [hd] at hpart
    rcases t with p | c | u
    · obtain ⟨hp, value, rest, hleft, rfl⟩ := hpart
      have hopen := h.open hp
      simp only [Fifo.object, Fifo.call, hopen, Bool.false_or, decide_eq_true_eq] at ha
      split at ha
      · rename_i hfull
        cases ha
        exact ⟨.inl p, _, _, _, 0, 0, rfl, rfl, .refused hd hfull⟩
      · cases ha
        refine ⟨.inl p, s.vars, _, _, 1, 0, rfl, rfl, ?_⟩
        simpa only [hopen] using Turns.pushed hd hleft
    · obtain ⟨rfl, -⟩ := hpart
      simp only [Fifo.object, Fifo.call, Fifo.pop] at ha
      split at ha
      · rename_i hitems
        cases ha
        exact ⟨.inr (.inl c), _, _, _, 0, 0, rfl, rfl, .missed hd hitems⟩
      · rename_i value rest hitems
        cases ha
        exact ⟨.inr (.inl c), _, _, _, 1, 0, rfl, rfl, .took hd hitems⟩
    · obtain ⟨rfl, hshut⟩ := hpart
      cases ha
      exact ⟨.inr (.inr ()), _, _, _, 0, 0, rfl, rfl, .closes hd hshut⟩
  | @ret t op r hd =>
    have hpart := h.parts t
    rw [hd] at hpart
    rcases t with p | c | u
    · obtain ⟨-, ok, rfl⟩ := hpart
      cases ok with
      | true => exact ⟨.inl p, _, _, _, 0, 0, rfl, rfl, .sent hd⟩
      | false => exact ⟨.inl p, _, _, _, 0, 0, rfl, rfl, .again hd⟩
    · obtain ⟨o, rfl, hphase⟩ := hpart
      cases o with
      | some value => exact ⟨.inr (.inl c), _, _, _, 0, 0, rfl, rfl, .keeps hd⟩
      | none =>
        by_cases hlast : s.vars.phase c = .last
        · refine ⟨.inr (.inl c), _, _, .nothing, 0, 1, rfl, ?_, .leaves hd hlast⟩
          simp only [routine, takes, if_pos hlast]
        · refine ⟨.inr (.inl c), _, _, .nothing, 0, 0, rfl, ?_, .looks hd (hphase.resolve_right fun h => hlast h.1)⟩
          simp only [routine, takes, if_neg hlast]
    · exact ⟨.inr (.inr ()), _, _, _, 0, 0, rfl, rfl, .joins hd hpart.1⟩

/-! ## The invariant -/

def Keeps (v : Vars P C T) (f : Fifo T) (v' : Vars P C T) (f' : Fifo T) : Party P C → Prop
  | .inl p => v'.left p = v.left p ∧ v'.counted p = v.counted p
  | .inr (.inl c) => v'.phase c = v.phase c ∧ (v.allCounted → v'.allCounted ∧ (f.items = [] → f'.items = []))
  | .inr (.inr _) => v'.shut = v.shut ∧ f'.closed = f.closed

omit [Fintype P] [Fintype C] [DecidableEq P] [DecidableEq C] in
theorem Part.other {v v' : Vars P C T} {f f' : Fifo T} {u : Party P C} {d : Doing (RingOp T) (Res T)} (h : Part v f u d)
    (hk : Keeps v f v' f' u) : Part v' f' u d := by
  rcases u with p | c | u
  · obtain ⟨hleft, hcounted⟩ := hk
    cases d <;> simp only [Part, hleft, hcounted] at h ⊢ <;> exact h
  · obtain ⟨hphase, hall⟩ := hk
    cases d with
    | nothing =>
      simp only [Part, hphase] at h ⊢
      exact ⟨fun hc => (hall (h.1 hc)).1, fun hc => (hall (h.1 (.inr hc))).2 (h.2 hc)⟩
    | calling op =>
      simp only [Part, hphase] at h ⊢
      exact ⟨h.1, h.2.imp_right fun hc => ⟨hc.1, (hall hc.2).1⟩⟩
    | returning op r =>
      simp only [Part, hphase] at h ⊢
      obtain ⟨o, hr, hc⟩ := h
      exact ⟨o, hr, hc.imp_right fun hc => ⟨hc.1, (hall hc.2.1).1, fun ho => (hall hc.2.1).2 (hc.2.2 ho)⟩⟩
  · obtain ⟨hshut, hclosed⟩ := hk
    cases d <;> simp only [Part, hshut, hclosed] at h ⊢ <;> exact h

variable {t : Party P C} {v : Vars P C T} {f : Fifo T} {d : Doing (RingOp T) (Res T)} {i j : Nat}

theorem Turns.elsewhere (h : Inv key pushes s) (ht : Turns key capacity s t v f d j i) {u : Party P C} (hu : u ≠ t) :
    Keeps s.vars s.object.value v f u := by
  have same : Keeps s.vars s.object.value s.vars s.object.value u := by
    rcases u with q | c | u
    · exact ⟨rfl, rfl⟩
    · exact ⟨rfl, fun hall => ⟨hall, id⟩⟩
    · exact ⟨rfl, rfl⟩
  cases ht with
  | tries _ _ | refused _ _ | again _ | asks _ _ | missed _ _ | joins _ _ => exact same
  | @pushed p value rest op hd hleft =>
    rcases u with q | c | u
    · exact ⟨rfl, rfl⟩
    · -- a producer that pushes has not counted itself
      refine ⟨rfl, fun hall => ?_⟩
      have hp := h.parts (.inl p)
      rw [hd] at hp
      cases (hall p).symm.trans hp.1
    · exact ⟨rfl, rfl⟩
  | @sent p op hd =>
    rcases u with q | c | u
    · exact ⟨Function.update_of_ne (by simpa using hu) .., rfl⟩
    · exact same
    · exact same
  | @counts p hd hleft hp =>
    rcases u with q | c | u
    · exact ⟨rfl, Function.update_of_ne (by simpa using hu) ..⟩
    · refine ⟨rfl, fun hall => ⟨fun q => ?_, id⟩⟩
      by_cases hq : q = p
      · rw [hq]
        exact Function.update_self ..
      · exact (Function.update_of_ne hq ..).trans (hall q)
    · exact same
  | @took c op value rest hd hitems =>
    rcases u with q | c' | u
    · exact ⟨rfl, rfl⟩
    · refine ⟨rfl, fun hall => ⟨hall, fun hnone => ?_⟩⟩
      rw [hitems] at hnone
      cases hnone
    · exact ⟨rfl, rfl⟩
  | keeps _ | looks _ _ | leaves _ _ | loads _ _ _ =>
    rcases u with q | c' | u
    · exact same
    · exact ⟨Function.update_of_ne (by simpa using hu) .., same.2⟩
    · exact same
  | shuts _ _ _ _ | closes _ _ =>
    rcases u with q | c' | u
    · exact same
    · exact same
    · exact absurd rfl hu

theorem Turns.part (h : Inv key pushes s) (ht : Turns key capacity s t v f d j i) : Part v f t d := by
  have hpart := h.parts t
  cases ht with
  | @tries p value rest hd hleft =>
    rw [hd] at hpart
    refine ⟨?_, value, rest, hleft, rfl⟩
    by_contra hp
    have := hpart (by simpa using hp)
    rw [hleft] at this
    cases this
  | pushed hd _ | refused hd _ =>
    rw [hd] at hpart
    exact ⟨hpart.1, _, rfl⟩
  | sent hd | again hd =>
    rw [hd] at hpart
    intro hp
    cases hpart.1.symm.trans hp
  | counts hd hleft hp => exact fun _ => hleft
  | asks hd hphase =>
    rw [hd] at hpart
    exact ⟨rfl, hphase.imp_right fun hlast => ⟨hlast, hpart.1 (.inl hlast)⟩⟩
  | took hd hitems =>
    rw [hd] at hpart
    refine ⟨_, rfl, hpart.2.imp_right fun hlast => ⟨hlast.1, hlast.2, fun hnone => ?_⟩⟩
    cases hnone
  | missed hd hitems =>
    rw [hd] at hpart
    exact ⟨_, rfl, hpart.2.imp_right fun hlast => ⟨hlast.1, hlast.2, fun _ => hitems⟩⟩
  | keeps hd => simp [Part]
  | looks hd hfirst => simp [Part]
  | leaves hd hlast =>
    rw [hd] at hpart
    obtain ⟨o, ho, hphase⟩ := hpart
    cases ho
    have hlast := hphase.resolve_left fun hfirst => by rw [hlast] at hfirst; cases hfirst
    exact ⟨fun _ => hlast.2.1, fun _ => hlast.2.2 rfl⟩
  | loads hd hreading hnext =>
    rcases hnext with ⟨rfl, hall⟩ | ⟨rfl, -⟩
    · simp only [Part, Function.update_self]
      exact ⟨fun _ => hall, fun h => by cases h⟩
    · simp [Part]
  | shuts hd _ _ _ => exact ⟨rfl, rfl⟩
  | closes hd hshut => exact ⟨hshut, rfl⟩
  | joins hd hshut =>
    rw [hd] at hpart
    exact hpart.2.trans hpart.1.symm

/-- Where the values go: a turn leaves them where they are, pushes one or pops one. -/
inductive Goes (s : State P C T) (v : Vars P C T) (f : Fifo T) (d : Party P C → Doing (RingOp T) (Res T)) (j : Nat) : Prop
  | stays : j = 0 → (∀ p, unsent v d p = unsent s.vars s.object.doing p) → f.items = s.object.value.items →
      (∀ c, got v d c = got s.vars s.object.doing c) → Goes s v f d j
  | pushed {p : P} {value : T} : j = 1 → (∀ q, q ≠ p → unsent v d q = unsent s.vars s.object.doing q) →
      unsent s.vars s.object.doing p = value :: unsent v d p → f.items = s.object.value.items ++ [value] →
      (∀ c, got v d c = got s.vars s.object.doing c) → Goes s v f d j
  | popped {c : C} {value : T} : j = 1 → (∀ p, unsent v d p = unsent s.vars s.object.doing p) →
      s.object.value.items = value :: f.items → (∀ c', c' ≠ c → got v d c' = got s.vars s.object.doing c') →
      got v d c = got s.vars s.object.doing c ++ [value] → Goes s v f d j

omit [Fintype P] [Fintype C] in
theorem Turns.goes (ht : Turns key capacity s t v f d j i) : Goes s v f (Function.update s.object.doing t d) j := by
  have unsent_congr : ∀ q, .inl q ≠ t → v.left q = s.vars.left q →
      unsent v (Function.update s.object.doing t d) q = unsent s.vars s.object.doing q := by
    intro q hq hleft
    unfold unsent
    rw [Function.update_of_ne hq, hleft]
  have got_congr : ∀ c, .inr (.inl c) ≠ t → v.out c = s.vars.out c →
      got v (Function.update s.object.doing t d) c = got s.vars s.object.doing c := by
    intro c hc hout
    unfold got
    rw [Function.update_of_ne hc, hout]
  have unsents : ∀ p, t = .inl p → (∀ q, q ≠ p → v.left q = s.vars.left q) →
      ∀ q, q ≠ p → unsent v (Function.update s.object.doing t d) q = unsent s.vars s.object.doing q := by
    intro p ht hleft q hq
    exact unsent_congr q (by simpa [ht] using hq) (hleft q hq)
  have gots : ∀ c, t = .inr (.inl c) → (∀ c', c' ≠ c → v.out c' = s.vars.out c') →
      ∀ c', c' ≠ c → got v (Function.update s.object.doing t d) c' = got s.vars s.object.doing c' := by
    intro c ht hout c' hc
    exact got_congr c' (by simpa [ht] using hc) (hout c' hc)
  have all : ∀ {X A : Type} [DecidableEq X] {g g' : X → A} (x : X), (∀ y, y ≠ x → g y = g' y) → g x = g' x → ∀ y, g y = g' y := by
    intro X A _ g g' x hother hx y
    by_cases hy : y = x
    · rw [hy]
      exact hx
    · exact hother y hy
  cases ht with
  | @tries p value rest hd _ | @refused p op hd _ | @again p op hd | @counts p hd _ _ =>
    refine .stays rfl (all p (unsents p rfl fun _ _ => rfl) ?_) rfl fun c => got_congr c (by simp) rfl
    simp [unsent, hd]
  | @pushed p value rest op hd hleft =>
    refine .pushed rfl (unsents p rfl fun _ _ => rfl) ?_ rfl fun c => got_congr c (by simp) rfl
    simp [unsent, hd, hleft]
  | @sent p op hd =>
    -- the value was counted as sent since its push
    refine .stays rfl (all p (unsents p rfl fun q hq => Function.update_of_ne hq ..) ?_) rfl fun c => got_congr c (by simp) rfl
    simp [unsent, hd]
  | @asks c hd _ | @missed c op hd _ | @looks c op hd _ | @leaves c op hd _ | @loads c next hd _ _ =>
    refine .stays rfl (fun p => unsent_congr p (by simp) rfl) rfl (all c (gots c rfl fun _ _ => rfl) ?_)
    simp [got, taken, hd]
  | @took c op value rest hd hitems =>
    refine .popped rfl (fun p => unsent_congr p (by simp) rfl) hitems (gots c rfl fun _ _ => rfl) ?_
    simp [got, taken, hd]
  | @keeps c op value hd =>
    refine .stays rfl (fun p => unsent_congr p (by simp) rfl) rfl
      (all c (gots c rfl fun c' hc => Function.update_of_ne hc ..) ?_)
    simp [got, taken, hd]
  | shuts _ _ _ _ | closes _ _ | joins _ _ =>
    exact .stays rfl (fun p => unsent_congr p (by simp) rfl) rfl fun c => got_congr c (by simp) rfl

theorem Inv.flows (h : Inv key pushes s) {d : Party P C → Doing (RingOp T) (Res T)} (hg : Goes s v f d j) :
    (∑ p, (unsent v d p : Multiset T)) + f.items + ∑ c, (got v d c : Multiset T) = ∑ p, (pushes p : Multiset T) := by
  rw [← h.flow]
  cases hg with
  | stays _ hunsent hitems hgot =>
    have hunsent : unsent v d = unsent s.vars s.object.doing := funext hunsent
    have hgot : got v d = got s.vars s.object.doing := funext hgot
    rw [hunsent, hitems, hgot]
  | @pushed p value _ hother hp hitems hgot =>
    have hgot : got v d = got s.vars s.object.doing := funext hgot
    have hsum : ∑ q, (unsent v d q : Multiset T) + {value} = ∑ q, (unsent s.vars s.object.doing q : Multiset T) := by
      refine sum_gives p (fun q hq => by rw [hother q hq]) ?_
      rw [hp, ← Multiset.cons_coe, ← Multiset.singleton_add, add_comm]
    rw [← hsum, hitems, hgot, ← Multiset.coe_add, Multiset.coe_singleton]
    ac_rfl
  | @popped c value _ hunsent hitems hother hc =>
    have hunsent : unsent v d = unsent s.vars s.object.doing := funext hunsent
    have hsum : ∑ c', (got s.vars s.object.doing c' : Multiset T) + {value} = ∑ c', (got v d c' : Multiset T) := by
      refine sum_gives c (fun c' hc' => by rw [hother c' hc']) ?_
      rw [hc, ← Multiset.coe_add, Multiset.coe_singleton]
    rw [← hsum, hitems, hunsent, ← Multiset.cons_coe, ← Multiset.singleton_add]
    ac_rfl

omit [DecidableEq P] [DecidableEq C] in
theorem Inv.stays (h : Inv key pushes s) {c : C} (hd : s.object.doing (.inr (.inl c)) ≠ .nothing) : s.vars.phase c ≠ .exited := by
  intro hexit
  have hpart := h.parts (.inr (.inl c))
  cases hdoing : s.object.doing (.inr (.inl c)) with
  | nothing => exact hd hdoing
  | calling op =>
    rw [hdoing] at hpart
    simp [Part, hexit] at hpart
  | returning op r =>
    rw [hdoing] at hpart
    simp [Part, hexit] at hpart

omit [Fintype P] [Fintype C] [DecidableEq P] [DecidableEq C] in
theorem loads_stays {v : Vars P C T} {next : Phase} (h : next = .last ∧ v.allCounted ∨ next = .first ∧ ¬ v.allCounted) :
    next ≠ .exited := by
  rcases h with ⟨rfl, -⟩ | ⟨rfl, -⟩
  · simp
  · simp

theorem Turns.joined (h : Inv key pushes s) (ht : Turns key capacity s t v f d j i) (hshut : v.shut = true) :
    v.allCounted ∧ ∀ c, v.phase c = .exited := by
  have here : ∀ {c}, s.vars.shut = true → s.vars.phase c ≠ .exited → v.allCounted ∧ ∀ c, v.phase c = .exited :=
    fun {c} hshut hc => absurd ((h.joined hshut).2 c) hc
  cases ht with
  | counts _ _ hp => cases hp.symm.trans ((h.joined hshut).1 _)
  | @keeps c op value hd => exact here hshut (h.stays (c := c) (by simp [hd]))
  | @looks c op hd _ | @leaves c op hd _ => exact here hshut (h.stays (c := c) (by simp [hd]))
  | @loads c next _ hreading _ => exact here (c := c) hshut (by simp [hreading])
  | shuts _ _ hall hexit => exact ⟨hall, hexit⟩
  | _ => exact h.joined hshut

theorem Turns.count (h : Inv key pushes s) (ht : Turns key capacity s t v f d j i) :
    v.doneProducers = (Finset.univ.filter fun p => v.counted p = true).card := by
  cases ht with
  | @counts p _ _ hp =>
    have hcard : (Finset.univ.filter fun q => s.vars.counted q = true).card + 1 =
        (Finset.univ.filter fun q => Function.update s.vars.counted p true q = true).card :=
      card_gives p (fun q hq => by rw [Function.update_of_ne hq]) (by simp [hp]) (by simp)
    exact (congrArg (· + 1) h.count).trans hcard
  | _ => exact h.count

theorem Turns.added (h : Inv key pushes s) (ht : Turns key capacity s t v f d j i) (c : C) :
    v.localSum c = ((v.out c).map key).sum := by
  cases ht with
  | @keeps c' op value _ =>
    by_cases hc : c = c'
    · subst hc
      simp [h.added c]
    · simp only [Function.update_of_ne hc]
      exact h.added c
  | _ => exact h.added c

theorem sum_left {phase : C → Phase} {localSum : C → BitVec 64} {next : Phase} {x : BitVec 64} {c : C}
    (hc : phase c ≠ .exited) :
    (∑ c', if Function.update phase c next c' = .exited then Function.update localSum c x c' else 0) =
      (∑ c', if phase c' = .exited then localSum c' else 0) + if next = .exited then x else 0 := by
  refine (sum_gives c (fun c' hc' => ?_) ?_).symm
  · rw [Function.update_of_ne hc', Function.update_of_ne hc']
  · rw [if_neg hc, zero_add, Function.update_self, Function.update_self]

theorem Turns.sum (h : Inv key pushes s) (ht : Turns key capacity s t v f d j i) :
    v.sum = ∑ c, if v.phase c = .exited then v.localSum c else 0 := by
  have moves : ∀ {c : C} (next : Phase) (x : BitVec 64), s.vars.phase c ≠ .exited →
      (∑ c', if Function.update s.vars.phase c next c' = .exited then Function.update s.vars.localSum c x c' else 0) =
        s.vars.sum + if next = .exited then x else 0 := by
    intro c next x hc
    rw [h.sum]
    exact sum_left hc
  cases ht with
  | @keeps c op value hd =>
    simp only [moves .first _ (h.stays (c := c) (by simp [hd]))]
    simp
  | @looks c op hd _ =>
    have hsum := moves .reading (s.vars.localSum c) (h.stays (c := c) (by simp [hd]))
    rw [Function.update_eq_self, if_neg (by simp), add_zero] at hsum
    exact hsum.symm
  | @leaves c op hd _ =>
    have hsum := moves .exited (s.vars.localSum c) (h.stays (c := c) (by simp [hd]))
    rw [Function.update_eq_self, if_pos rfl] at hsum
    exact hsum.symm
  | @loads c next _ hreading hnext =>
    have hsum := moves next (s.vars.localSum c) (c := c) (by simp [hreading])
    rw [Function.update_eq_self, if_neg (loads_stays hnext), add_zero] at hsum
    exact hsum.symm
  | _ => exact h.sum

theorem Inv.step (h : Inv key pushes s) (hs : (routine key pushes).Steps (Fifo.object T capacity) s a s') :
    Inv key pushes s' := by
  obtain ⟨t, v, f, d, j, i, -, rfl, ht⟩ := h.turn hs
  refine ⟨fun u => ?_, ht.joined h, ht.count h, h.flows ht.goes, ht.added h, ht.sum h⟩
  show Part v f u (Function.update s.object.doing t d u)
  by_cases hu : u = t
  · subst hu
    rw [Function.update_self]
    exact ht.part h
  · rw [Function.update_of_ne hu]
    exact (h.parts u).other (ht.elsewhere h hu)

omit [DecidableEq P] [DecidableEq C] in
theorem Inv.start (key : T → BitVec 64) (pushes : P → List T) :
    Inv key pushes ⟨(Vars.start pushes : Vars P C T), Fifo.empty, fun _ => .nothing⟩ where
  parts u := by rcases u with p | c | u <;> simp [Part, Vars.start, Fifo.empty]
  joined h := by cases h
  count := by simp [Vars.start]
  flow := by simp [unsent, got, taken, Vars.start, Fifo.empty]
  added c := rfl
  sum := by simp [Vars.start]

theorem inv_reachable (hr : ((routine (C := C) key pushes).onObject (Fifo.object T capacity)).Reachable s) : Inv key pushes s :=
  hr.invariant (I := fun s => Inv key pushes s) (Inv.start key pushes) fun _ _ _ _ h hs => h.step (Routine.step_iff.mp hs)

/-! ## What has been consumed -/

omit [DecidableEq P] [DecidableEq C] in
theorem Inv.sent (h : Inv key pushes s) (hall : s.vars.allCounted) (p : P) :
    s.object.doing (.inl p) = .nothing ∧ s.vars.left p = [] := by
  have hpart := h.parts (.inl p)
  cases hd : s.object.doing (.inl p) with
  | nothing =>
    rw [hd] at hpart
    exact ⟨rfl, hpart (hall p)⟩
  | calling op =>
    rw [hd] at hpart
    cases hpart.1.symm.trans (hall p)
  | returning op r =>
    rw [hd] at hpart
    cases hpart.1.symm.trans (hall p)

omit [DecidableEq P] [DecidableEq C] in
theorem Inv.left (h : Inv key pushes s) {c : C} (hc : s.vars.phase c = .exited) :
    s.object.doing (.inr (.inl c)) = .nothing ∧ s.vars.allCounted ∧ s.object.value.items = [] := by
  have hd : s.object.doing (.inr (.inl c)) = .nothing := by
    by_contra hd
    exact h.stays hd hc
  have hpart := h.parts (.inr (.inl c))
  rw [hd] at hpart
  exact ⟨hd, hpart.1 (.inr hc), hpart.2 hc⟩

omit [DecidableEq P] [DecidableEq C] in
theorem Inv.once (h : Inv key pushes s) : ∑ c, (s.vars.out c : Multiset T) ≤ ∑ p, (pushes p : Multiset T) := by
  have hgot : ∑ c, (s.vars.out c : Multiset T) ≤ ∑ c, (got s.vars s.object.doing c : Multiset T) := by
    refine Finset.sum_le_sum fun c _ => ?_
    unfold got
    rw [← Multiset.coe_add]
    exact Multiset.le_add_right ..
  rw [← h.flow]
  exact hgot.trans (Multiset.le_add_left ..)

omit [DecidableEq P] [DecidableEq C] in
theorem Inv.consumed [Nonempty C] (h : Inv key pushes s) (hexit : ∀ c, s.vars.phase c = .exited) :
    s.object.value.items = [] ∧ ∑ c, (s.vars.out c : Multiset T) = ∑ p, (pushes p : Multiset T) ∧
      s.vars.sum = ∑ p, ((pushes p).map key).sum := by
  obtain ⟨c₀⟩ := ‹Nonempty C›
  obtain ⟨-, hall, hitems⟩ := h.left (hexit c₀)
  have hunsent : ∀ p, unsent s.vars s.object.doing p = [] := by
    intro p
    obtain ⟨hd, hleft⟩ := h.sent hall p
    simp only [unsent, hd, hleft]
  have hgot : ∀ c, got s.vars s.object.doing c = s.vars.out c := by
    intro c
    simp only [got, (h.left (hexit c)).1, taken, List.append_nil]
  have hflow := h.flow
  simp only [hunsent, hgot, hitems, Multiset.coe_nil, Finset.sum_const_zero, zero_add] at hflow
  refine ⟨hitems, hflow, ?_⟩
  have hsum := congrArg (Multiset.sumAddMonoidHom.comp (Multiset.mapAddMonoidHom key)) hflow
  rw [map_sum, map_sum] at hsum
  rw [h.sum]
  simp only [hexit, if_true, h.added]
  exact hsum

end

end Retry

open Retry

variable {P C T : Type} [Fintype P] [Fintype C] [DecidableEq P] [DecidableEq C] [Elem T]

/-- **The benchmark of a ring counts every value once.** -/
theorem ring_retry_complete [Nonempty C] (version : RingVersion) (requested : Nat) (key : T → BitVec 64) (pushes : P → List T)
    {s : Running (Vars P C T) (Monitor.State (Party P C) (Ring T) (RingOp T) Cv (Res T))}
    (hr : ((routine key pushes).onMonitor (version.monitor T requested)).Reachable s) :
    (∑ c, (s.vars.out c : Multiset T) ≤ ∑ p, (pushes p : Multiset T)) ∧
    ((∀ c, s.vars.phase c = .exited) → s.object.data.size = 0 ∧
      ∑ c, (s.vars.out c : Multiset T) = ∑ p, (pushes p : Multiset T) ∧ s.vars.sum = ∑ p, ((pushes p).map key).sum) := by
  obtain ⟨-, himage⟩ := Routine.image_reachable (ring_realizes version requested) hr
  have hinv := inv_reachable himage
  refine ⟨hinv.once, fun hexit => ?_⟩
  obtain ⟨hitems, hout, hsum⟩ := hinv.consumed hexit
  refine ⟨?_, hout, hsum⟩
  have hlength : s.object.data.abs.items.length = 0 := congrArg List.length hitems
  rwa [abs_length] at hlength

def retryOne : List (Routine.Move (Party Unit Unit)) :=
  [.call (.inl ()), .acquire (.inl ()) none, .ret (.inl ()), .own (.inl ()), .call (.inr (.inl ())),
    .acquire (.inr (.inl ())) none, .ret (.inr (.inl ())), .call (.inr (.inl ())), .acquire (.inr (.inl ())) none,
    .ret (.inr (.inl ())), .own (.inr (.inl ())), .call (.inr (.inl ())), .acquire (.inr (.inl ())) none,
    .ret (.inr (.inl ()))]

theorem ring_retry_complete_one : ∃ s,
    ((routine (C := Unit) (BitVec.ofNat 64) fun _ : Unit => [7]).onMonitor (RingVersion.V3.monitor Nat 1)).exec retryOne = some s ∧
      s.object.data.size = 0 ∧ ∑ c : Unit, (s.vars.out c : Multiset Nat) = ∑ _p : Unit, ([7] : Multiset Nat) := by
  have hrun : (((routine (C := Unit) (BitVec.ofNat 64) fun _ : Unit => [7]).onMonitor (RingVersion.V3.monitor Nat 1)).exec
      retryOne).map (fun s => s.vars.phase ()) = some .exited := by decide
  obtain ⟨s, hs, hphase⟩ := Option.map_eq_some_iff.mp hrun
  have hdone := (ring_retry_complete .V3 1 (BitVec.ofNat 64) _ (Machine.exec_reachable _ hs)).2 fun _ => hphase
  exact ⟨s, hs, hdone.1, hdone.2.1⟩

end Yutil
