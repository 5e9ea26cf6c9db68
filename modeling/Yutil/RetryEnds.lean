import Yutil.Retry

/-!
# The benchmark of the rings ends

While a value is in the queue, the program waits for a consumer that has not
left; else for a producer that is not done; then for the consumers to leave,
and for main. Each turn of that thread brings it nearer to a push, a pop or an
end, and these are counted.
-/

namespace Yutil

open Interleave

namespace Retry

variable {P C T : Type}

/-! ## What the program waits for -/

noncomputable section
open Classical

def someone {X : Type} (q : X → Prop) : Option X := if h : ∃ x, q x then some h.choose else none

def waitsLeaving (v : Vars P C T) : Party P C :=
  match someone fun c => v.phase c ≠ .exited with
  | some c => .inr (.inl c)
  | none => .inr (.inr ())

def waits (s : State P C T) : Party P C :=
  match s.object.value.items, someone fun p => s.vars.counted p = false with
  | [], some p => .inl p
  | _, _ => waitsLeaving s.vars

end

/-- The thread that the program waits for, and why. -/
inductive Waited (s : State P C T) : Party P C → Prop
  | take {c : C} : s.object.value.items ≠ [] → s.vars.phase c ≠ .exited → Waited s (.inr (.inl c))
  | push {p : P} : s.object.value.items = [] → s.vars.counted p = false → Waited s (.inl p)
  | leave {c : C} : s.object.value.items = [] → s.vars.allCounted → s.vars.phase c ≠ .exited → Waited s (.inr (.inl c))
  | shut : s.vars.allCounted → (∀ c, s.vars.phase c = .exited) → Waited s (.inr (.inr ()))

/-! ## How near the end is -/

def toPush {Op R : Type} : Doing Op R → Nat
  | .calling _ => 1
  | .nothing => 2
  | .returning _ _ => 3

def toTake {Op R : Type} (phase : Phase) : Doing Op R → Nat
  | .calling _ => 1
  | .nothing => if phase = .reading then 3 else 2
  | .returning _ _ => 4

def toLeave {Op : Type} : Phase → Doing Op (Res T) → Nat
  | .last, .returning _ (.popped none) => 1
  | .last, .calling _ => 2
  | .last, .nothing => 3
  | .reading, .nothing => 4
  | _, .returning _ (.popped none) => 5
  | _, .calling _ => 6
  | _, .nothing => 7
  | _, .returning _ _ => 8

def toShut {Op R : Type} (shut : Bool) : Doing Op R → Nat
  | .nothing => if shut then 0 else 3
  | .calling _ => 2
  | .returning _ _ => 1

def stage (s : State P C T) : Party P C → Nat
  | .inl p => toPush (s.object.doing (.inl p))
  | .inr (.inl c) =>
    if s.object.value.items.isEmpty then toLeave (s.vars.phase c) (s.object.doing (.inr (.inl c)))
    else toTake (s.vars.phase c) (s.object.doing (.inr (.inl c)))
  | .inr (.inr _) => toShut s.vars.shut (s.object.doing (.inr (.inr ())))

theorem toLeave_le {Op : Type} (phase : Phase) (d : Doing Op (Res T)) : toLeave phase d ≤ 8 := by
  unfold toLeave
  split <;> decide

theorem stage_le (s : State P C T) (u : Party P C) : stage s u ≤ 8 := by
  rcases u with p | c | u
  · show toPush (s.object.doing (.inl p)) ≤ 8
    unfold toPush
    split <;> decide
  · simp only [stage]
    split
    · exact toLeave_le _ _
    · unfold toTake
      split
      · decide
      · split <;> decide
      · decide
  · show toShut s.vars.shut (s.object.doing (.inr (.inr ()))) ≤ 8
    unfold toShut
    split
    · split <;> decide
    · decide
    · decide

section
variable [Fintype P] [Fintype C]

/-- The pushes, the pops and the ends that are to come. -/
def toCome (s : State P C T) : Nat :=
  2 * ∑ p, (unsent s.vars s.object.doing p).length + s.object.value.items.length +
    ((Finset.univ.filter fun p => s.vars.counted p = false).card +
      (Finset.univ.filter fun c => s.vars.phase c ≠ .exited).card)

noncomputable def rank (s : State P C T) : Nat := 9 * toCome s + stage s (waits s)

def Done (s : State P C T) : Prop := s.vars.shut = true ∧ s.object.doing (.inr (.inr ())) = .nothing

variable {key : T → BitVec 64} {capacity : Nat} {pushes : P → List T} {s s' : State P C T} {a : Routine.Label (Party P C)}

theorem waits_spec [Nonempty C] (h : Inv key pushes s) : Waited s (waits s) := by
  have someone_spec : ∀ {X : Type} (q : X → Prop), (∃ x, someone q = some x ∧ q x) ∨ someone q = none ∧ ∀ x, ¬ q x := by
    intro X q
    unfold someone
    split
    · rename_i hq
      exact .inl ⟨_, rfl, hq.choose_spec⟩
    · rename_i hq
      exact .inr ⟨rfl, not_exists.mp hq⟩
  have leaving : s.vars.allCounted ∨ s.object.value.items ≠ [] → Waited s (waitsLeaving s.vars) := by
    intro hwhy
    unfold waitsLeaving
    rcases someone_spec fun c => s.vars.phase c ≠ .exited with ⟨c, hc, hphase⟩ | ⟨hnone, hall⟩
    · rw [hc]
      by_cases hitems : s.object.value.items = []
      · exact .leave hitems (hwhy.resolve_right fun h => h hitems) hphase
      · exact .take hitems hphase
    · rw [hnone]
      have hexit : ∀ c, s.vars.phase c = .exited := fun c => not_not.mp (hall c)
      obtain ⟨c₀⟩ := ‹Nonempty C›
      exact .shut (h.left (hexit c₀)).2.1 hexit
  unfold waits
  rcases someone_spec fun p => s.vars.counted p = false with ⟨p, hp, hcounted⟩ | ⟨hnone, hall⟩
  · rw [hp]
    cases hitems : s.object.value.items with
    | nil => exact .push hitems hcounted
    | cons x xs => exact leaving (.inr (by rw [hitems]; simp))
  · rw [hnone]
    have hall : s.vars.allCounted := fun p => by simpa using hall p
    cases hitems : s.object.value.items with
    | nil => exact leaving (.inl hall)
    | cons x xs => exact leaving (.inl hall)

/-! ## What a turn does to it -/

variable [DecidableEq P] [DecidableEq C] {t : Party P C} {v : Vars P C T} {f : Fifo T} {d : Doing (RingOp T) (Res T)} {i j : Nat}

omit [Fintype C] [DecidableEq C] in
theorem Goes.values {d : Party P C → Doing (RingOp T) (Res T)} (hg : Goes s v f d j) :
    2 * ∑ p, (unsent v d p).length + f.items.length + j =
      2 * ∑ p, (unsent s.vars s.object.doing p).length + s.object.value.items.length := by
  cases hg with
  | stays hj hunsent hitems _ =>
    have hunsent : unsent v d = unsent s.vars s.object.doing := funext hunsent
    rw [hunsent, hitems, hj, Nat.add_zero]
  | @pushed p value hj hother hp hitems _ =>
    have hsum : ∑ q, (unsent v d q).length + 1 = ∑ q, (unsent s.vars s.object.doing q).length :=
      sum_gives p (fun q hq => by rw [hother q hq]) (by rw [hp]; rfl)
    rw [hitems, List.length_append, List.length_singleton, hj]
    omega
  | popped hj hunsent hitems _ _ =>
    have hunsent : unsent v d = unsent s.vars s.object.doing := funext hunsent
    rw [hunsent, hitems, hj, List.length_cons, Nat.add_assoc]

omit [Fintype C] in
theorem staying (phase : C → Phase) (next : Phase) (c : C) (hc : phase c ≠ .exited) (hnext : next ≠ .exited) (c' : C) :
    Function.update phase c next c' ≠ .exited ↔ phase c' ≠ .exited := by
  by_cases h : c' = c
  · subst h
    simp [hc, hnext]
  · rw [Function.update_of_ne h]

theorem Turns.lasts (h : Inv key pushes s) (ht : Turns key capacity s t v f d j 0) :
    v.counted = s.vars.counted ∧ ∀ c, v.phase c ≠ .exited ↔ s.vars.phase c ≠ .exited := by
  cases ht with
  | @keeps c op value hd => exact ⟨rfl, staying _ _ c (h.stays (by simp [hd])) (by simp)⟩
  | @looks c op hd _ => exact ⟨rfl, staying _ _ c (h.stays (by simp [hd])) (by simp)⟩
  | @loads c next _ hreading hnext => exact ⟨rfl, staying _ _ c (by simp [hreading]) (loads_stays hnext)⟩
  | _ => exact ⟨rfl, fun _ => Iff.rfl⟩

theorem Turns.ends (h : Inv key pushes s) (ht : Turns key capacity s t v f d j i) :
    (Finset.univ.filter fun p => v.counted p = false).card + (Finset.univ.filter fun c => v.phase c ≠ .exited).card + i =
      (Finset.univ.filter fun p => s.vars.counted p = false).card +
        (Finset.univ.filter fun c => s.vars.phase c ≠ .exited).card := by
  have lasts : i = 0 → (Finset.univ.filter fun p => v.counted p = false).card +
      (Finset.univ.filter fun c => v.phase c ≠ .exited).card + i = (Finset.univ.filter fun p => s.vars.counted p = false).card +
        (Finset.univ.filter fun c => s.vars.phase c ≠ .exited).card := by
    intro hi
    subst hi
    obtain ⟨hcounted, hphase⟩ := ht.lasts h
    simp only [hcounted, hphase, Nat.add_zero]
  cases ht with
  | @counts p _ _ hp =>
    have hcard : (Finset.univ.filter fun q => Function.update s.vars.counted p true q = false).card + 1 =
        (Finset.univ.filter fun q => s.vars.counted q = false).card :=
      card_gives p (fun q hq => by rw [Function.update_of_ne hq]) (by simp) hp
    rw [Nat.add_right_comm]
    exact congrArg (· + _) hcard
  | @leaves c op hd hlast =>
    have hcard : (Finset.univ.filter fun c' => Function.update s.vars.phase c .exited c' ≠ .exited).card + 1 =
        (Finset.univ.filter fun c' => s.vars.phase c' ≠ .exited).card :=
      card_gives c (fun c' hc' => by rw [Function.update_of_ne hc']) (by simp) (by simp [hlast])
    rw [Nat.add_assoc]
    exact congrArg (_ + ·) hcard
  | _ => exact lasts rfl

theorem Turns.toCome (h : Inv key pushes s) (ht : Turns key capacity s t v f d j i) :
    toCome ⟨v, f, Function.update s.object.doing t d⟩ + (j + i) = toCome s := by
  unfold Retry.toCome
  rw [← ht.ends h, ← ht.goes.values]
  exact Nat.add_add_add_comm ..

omit [Fintype P] [Fintype C] in
theorem Turns.same (ht : Turns key capacity s t v f d 0 i) : f.items = s.object.value.items := by
  cases ht <;> rfl

theorem Turns.waits (h : Inv key pushes s) (ht : Turns key capacity s t v f d 0 0) :
    waits ⟨v, f, Function.update s.object.doing t d⟩ = waits s := by
  have hitems := ht.same
  obtain ⟨hcounted, hphase⟩ := ht.lasts h
  have hphase : (fun c => v.phase c ≠ .exited) = fun c => s.vars.phase c ≠ .exited := funext fun c => propext (hphase c)
  unfold Retry.waits waitsLeaving
  simp only [hitems, hcounted, hphase]

theorem Turns.stage_other (h : Inv key pushes s) (ht : Turns key capacity s t v f d 0 0) {u : Party P C} (hu : u ≠ t) :
    stage ⟨v, f, Function.update s.object.doing t d⟩ u = stage s u := by
  have hk := ht.elsewhere h hu
  have hitems := ht.same
  rcases u with p | c | u
  · simp only [stage, Function.update_of_ne hu]
  · have hphase : v.phase c = s.vars.phase c := hk.1
    simp only [stage, Function.update_of_ne hu, hphase, hitems]
  · have hshut : v.shut = s.vars.shut := hk.1
    simp only [stage, Function.update_of_ne hu, hshut]

theorem Turns.stage_own (h : Inv key pushes s) (hcap : 0 < capacity) (ht : Turns key capacity s t v f d 0 0)
    (hw : Waited s t) : stage ⟨v, f, Function.update s.object.doing t d⟩ t < stage s t := by
  have hitems := ht.same
  cases hw with
  | @push p hnone hp =>
    simp only [stage, Function.update_self]
    cases ht with
    | tries hd _ => simp [toPush, hd]
    | refused hd hfull =>
      -- an empty queue has room
      rw [hnone] at hfull
      exact absurd hfull (Nat.not_le.mpr hcap)
    | sent hd | again hd => simp [toPush, hd]
  | @take c hsome hc =>
    have hempty : s.object.value.items.isEmpty = false := by simpa using hsome
    simp only [stage, Function.update_self, hitems, hempty, Bool.false_eq_true, if_false]
    cases ht with
    | asks hd hphase => rcases hphase with hphase | hphase <;> simp [toTake, hd, hphase]
    | missed hd hnone => exact absurd hnone hsome
    | keeps hd => simp [toTake, hd]
    | looks hd _ => simp [toTake, hd]
    | loads hd hreading hnext => rcases hnext with ⟨rfl, -⟩ | ⟨rfl, -⟩ <;> simp [toTake, hd, hreading]
  | @leave c hnone hall hc =>
    have hempty : s.object.value.items.isEmpty = true := by simpa using hnone
    simp only [stage, Function.update_self, hitems, hempty, if_true]
    cases ht with
    | asks hd hphase => rcases hphase with hphase | hphase <;> simp [toLeave, hd, hphase]
    | missed hd _ =>
      have hpart := h.parts (.inr (.inl c))
      rw [hd] at hpart
      rcases hpart.2 with hphase | ⟨hphase, -⟩ <;> simp [toLeave, hd, hphase]
    | keeps hd =>
      have hpart := h.parts (.inr (.inl c))
      rw [hd] at hpart
      obtain ⟨o, -, hphase⟩ := hpart
      rcases hphase with hphase | ⟨hphase, -⟩ <;> simp [toLeave, hd, hphase]
    | looks hd hfirst => simp [toLeave, hd, hfirst]
    | loads hd hreading hnext =>
      rcases hnext with ⟨rfl, -⟩ | ⟨-, hnot⟩
      · simp [toLeave, hd, hreading]
      · exact absurd hall hnot
  | shut hall hexit =>
    simp only [stage, Function.update_self]
    cases ht with
    | shuts hd hshut _ _ => simp [toShut, hd, hshut]
    | closes hd _ => simp [toShut, hd]
    | joins hd hshut => simp [toShut, hd, hshut]

/-- A turn of the thread that the program waits for brings it nearer to its end. -/
theorem Inv.nears [Nonempty C] (h : Inv key pushes s) (hcap : 0 < capacity)
    (hs : (routine key pushes).Steps (Fifo.object T capacity) s a s') : Nears rank waits a.thread s s' := by
  obtain ⟨t, v, f, d, j, i, ht', rfl, ht⟩ := h.turn hs
  subst ht'
  have hcome := ht.toCome h
  by_cases hji : j + i = 0
  · obtain ⟨rfl, rfl⟩ := Nat.add_eq_zero_iff.mp hji
    have hwaits := ht.waits h
    unfold Nears rank
    rw [hwaits, ← hcome, hji, Nat.add_zero]
    by_cases htw : a.thread = waits s
    · have hown := ht.stage_own h hcap (htw ▸ waits_spec h)
      rw [← htw]
      exact .inl (Nat.add_lt_add_left hown _)
    · exact .inr ⟨htw, congrArg (_ + ·) (ht.stage_other h (Ne.symm htw)), rfl⟩
  · -- a push, a pop or an end outweighs every stage
    have hstage := stage_le (⟨v, f, Function.update s.object.doing a.thread d⟩ : State P C T)
      (waits ⟨v, f, Function.update s.object.doing a.thread d⟩)
    unfold Nears rank
    left
    omega

omit [DecidableEq P] [DecidableEq C] in
theorem Inv.answered (capacity : Nat) (h : Inv key pushes s) {op : RingOp T} (hd : s.object.doing t = .calling op) :
    (Fifo.object T capacity).answer op s.object.value ≠ none := by
  have hpart := h.parts t
  rw [hd] at hpart
  rcases t with p | c | u
  · obtain ⟨-, value, rest, -, rfl⟩ := hpart
    simp only [Fifo.object, Fifo.call]
    split <;> simp
  · obtain ⟨rfl, -⟩ := hpart
    simp [Fifo.object, Fifo.call]
  · obtain ⟨rfl, -⟩ := hpart
    simp [Fifo.object, Fifo.call]

theorem Inv.moves (capacity : Nat) (h : Inv key pushes s) (hw : Waited s t) (hdone : ¬ Done s) :
    ∃ a s', a.thread = t ∧ (routine key pushes).Steps (Fifo.object T capacity) s a s' := by
  cases hd : s.object.doing t with
  | calling op =>
    obtain ⟨⟨f, r⟩, ha⟩ := Option.ne_none_iff_exists'.mp (h.answered capacity hd)
    exact ⟨_, _, rfl, .act hd ha⟩
  | returning op r => exact ⟨_, _, rfl, .ret hd⟩
  | nothing =>
    have calls : ∀ {op : RingOp T} {v : Vars P C T}, Retry.calls s.vars t = some (op, v) →
        ∃ a s', a.thread = t ∧ (routine key pushes).Steps (Fifo.object T capacity) s a s' :=
      fun hcalls => ⟨_, _, rfl, .call hd hcalls⟩
    have turns : ∀ {v : Vars P C T}, Retry.turns s.vars t = some v →
        ∃ a s', a.thread = t ∧ (routine key pushes).Steps (Fifo.object T capacity) s a s' :=
      fun hturns => ⟨_, _, rfl, .own hd hturns⟩
    have loops : ∀ c, t = .inr (.inl c) → s.vars.phase c ≠ .exited →
        ∃ a s', a.thread = t ∧ (routine key pushes).Steps (Fifo.object T capacity) s a s' := by
      intro c ht hc
      subst ht
      cases hphase : s.vars.phase c with
      | first => exact calls (if_pos (.inl hphase))
      | last => exact calls (if_pos (.inr hphase))
      | reading => exact turns (if_pos hphase)
      | exited => exact absurd hphase hc
    cases hw with
    | @push p _ hp =>
      cases hleft : s.vars.left p with
      | nil => exact turns (if_pos ⟨by rw [hleft]; rfl, hp⟩)
      | cons value rest => exact calls (by simp only [Retry.calls, hleft]; rfl)
    | @take c _ hc => exact loops c rfl hc
    | @leave c _ _ hc => exact loops c rfl hc
    | shut hall hexit =>
      have hshut : s.vars.shut = false := by
        by_contra hshut
        exact hdone ⟨by simpa using hshut, hd⟩
      exact calls (if_pos ⟨hshut, hall, hexit⟩)

theorem ending [Nonempty C] (hcap : 0 < capacity) :
    ((routine (C := C) key pushes).onObject (Fifo.object T capacity)).Ending Routine.Label.thread Done rank waits where
  moves := by
    intro s hr hdone
    have h := inv_reachable hr
    obtain ⟨a, s', ha, hs⟩ := h.moves capacity (waits_spec h) hdone
    exact ⟨a, s', ha, Routine.step_iff.mpr hs⟩
  nears hr _ hs := (inv_reachable hr).nears hcap (Routine.step_iff.mp hs)

theorem Inv.over (h : Inv key pushes s) (hdone : Done s) (u : Party P C) :
    s.object.doing u = .nothing ∧ calls s.vars u = none ∧ turns s.vars u = none := by
  obtain ⟨hall, hexit⟩ := h.joined hdone.1
  rcases u with p | c | u
  · obtain ⟨hd, hleft⟩ := h.sent hall p
    exact ⟨hd, by simp [calls, hleft], by simp [turns, hall p]⟩
  · exact ⟨(h.left (hexit c)).1, by simp [calls, hexit], by simp [turns, hexit]⟩
  · exact ⟨hdone.2, by simp [calls, hdone.1], rfl⟩

end

end Retry

open Retry

variable {P C T : Type} [Fintype P] [Fintype C] [DecidableEq P] [DecidableEq C] [Elem T]

/-- **On every fair schedule the benchmark of a ring ends**, with every value counted once. -/
theorem ring_retry_ends [Nonempty C] (version : RingVersion) (requested : Nat) (key : T → BitVec 64) (pushes : P → List T)
    {turns : Nat → Party P C} {st : Nat → Running (Vars P C T) (Monitor.State (Party P C) (Ring T) (RingOp T) Cv (Res T))}
    (hfair : Fair turns)
    (hst : ((routine key pushes).onMonitor (version.monitor T requested)).Follows Routine.Move.thread turns st) :
    ∃ n, (∀ m, n ≤ m → st m = st n) ∧ (∀ u, (st n).object.pc u = .idle) ∧ (st n).object.data.closed = true ∧
      (st n).object.data.size = 0 ∧ (∀ p, (st n).vars.counted p = true) ∧ (∀ c, (st n).vars.phase c = .exited) ∧
      ∑ c, ((st n).vars.out c : Multiset T) = ∑ p, (pushes p : Multiset T) ∧
      (st n).vars.sum = ∑ p, ((pushes p).map key).sum := by
  have hM := ring_realizes (T := T) version requested
  have hanswered : (routine (C := C) key pushes).Answered (Fifo.object T (Ring.new (T := T) requested).capacity) :=
    fun hr _ _ hd => (inv_reachable hr).answered _ hd
  obtain ⟨n, hdone⟩ := (Routine.ends_on hM hanswered (ending (new_capacity_pos requested))).ends hfair hst
  have h := inv_reachable (Routine.image_reachable hM (hst.reachable n)).2
  have hidle : ∀ u, (st n).object.pc u = .idle := fun u => Pc.idle_of_nothing (h.over hdone u).1
  have hlast : ∀ a, ((routine key pushes).onMonitor (version.monitor T requested)).step (st n) a = none :=
    Routine.halts hidle (fun u => (h.over hdone u).2.1) fun u => (h.over hdone u).2.2
  have hmain := h.parts (.inr (.inr ()))
  rw [hdone.2] at hmain
  obtain ⟨hall, hexit⟩ := h.joined hdone.1
  obtain ⟨hitems, hout, hsum⟩ := h.consumed hexit
  have hlength : (st n).object.data.abs.items.length = 0 := congrArg List.length hitems
  rw [abs_length] at hlength
  exact ⟨n, fun m hm => hst.stays hlast hm, hidle, hmain.trans hdone.1, hlength, hall, hexit, hout, hsum⟩

def inTurn (n : Nat) : Party Unit Unit := if n % 3 = 0 then .inl () else if n % 3 = 1 then .inr (.inl ()) else .inr (.inr ())

theorem ring_retry_ends_one : ∃ st, ((routine (C := Unit) (BitVec.ofNat 64) fun _ : Unit => [7, 8]).onMonitor
    (RingVersion.V1.monitor Nat 1)).Follows Routine.Move.thread inTurn st ∧ ∃ n, (st n).vars.sum = 15 := by
  have hfair : Fair inTurn := by
    intro u m
    rcases u with p | c | u
    · exact ⟨3 * m, by omega, by simp [inTurn]⟩
    · exact ⟨3 * m + 1, by omega, by simp [inTurn, Nat.add_mod]⟩
    · exact ⟨3 * m + 2, by omega, by simp [inTurn, Nat.add_mod]⟩
  obtain ⟨st, hst⟩ := Machine.follows_exists ((routine (C := Unit) (BitVec.ofNat 64) fun _ : Unit => [7, 8]).onMonitor
    (RingVersion.V1.monitor Nat 1)) Routine.Move.thread inTurn
  obtain ⟨n, -, -, -, -, -, -, -, hsum⟩ := ring_retry_ends .V1 1 (BitVec.ofNat 64) _ hfair hst
  exact ⟨st, hst, n, hsum.trans (by decide)⟩

end Yutil
