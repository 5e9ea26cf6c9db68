import Yutil.Monitor
import Yutil.Service

/-!
# A monitor with one call at a time

A call that is made while nobody else is in the monitor, and that does not go
to sleep, is one critical section: there is nobody to notify.
-/

namespace Interleave.Monitor

variable {Tid D Op Cv R : Type} [DecidableEq Tid] [Fintype Tid] [DecidableEq Cv]

def ownSteps (t : Tid) : Label Tid Op → Bool
  | .acquire u _ | .notify u _ => decide (u = t)
  | _ => false

def service (Tid : Type) [DecidableEq Tid] [Fintype Tid] (M : Monitor D Op Cv R) :
    Service (State Tid D Op Cv R) (Tid × Op) R where
  start := ⟨M.start, fun _ => .idle⟩
  answers s call r s' := ∃ as s₁, (∀ a ∈ as, ownSteps call.1 a = true) ∧
    (M.machine fun _ _ => true).execFrom s (.call call.1 call.2 :: as) = some s₁ ∧
    s₁.pc call.1 = .leaving call.2 [] r ∧ (M.machine fun _ _ => true).step s₁ (.ret call.1) = some s'

variable {M : Monitor D Op Cv R} {s s' : State Tid D Op Cv R} {t : Tid} {op : Op} {r : R}

def lone (t : Tid) (d : D) (p : Pc Op Cv R) : State Tid D Op Cv R := ⟨d, Function.update (fun _ => .idle) t p⟩

omit [Fintype Tid] [DecidableEq Cv] in
@[simp] theorem lone_pc (t : Tid) (d : D) (p : Pc Op Cv R) : (lone t d p).pc t = p := by
  simp only [lone, Function.update_self]

omit [Fintype Tid] [DecidableEq Cv] in
theorem lone_update (t : Tid) (d d' : D) (p p' : Pc Op Cv R) :
    (⟨d', Function.update (lone t d p).pc t p'⟩ : State Tid D Op Cv R) = lone t d' p' :=
  congrArg (State.mk d') (Function.update_idem ..)

omit [Fintype Tid] [DecidableEq Cv] in
theorem lone_idle (t : Tid) (d : D) : lone t d (Pc.idle : Pc Op Cv R) = ⟨d, fun _ => Pc.idle⟩ :=
  congrArg (State.mk d) (Function.update_eq_self ..)

/-! ## Nobody to notify -/

omit [Fintype Tid] in
theorem lone_awake {d : D} {p : Pc Op Cv R} (hp : ∀ cv, p.sleepsOn cv = false) (u : Tid) (cv : Cv) :
    ((lone t d p).pc u).sleepsOn cv = false := by
  by_cases hu : u = t
  · rw [hu, lone_pc]
    exact hp cv
  · show (Function.update (fun _ => Pc.idle) t p u).sleepsOn cv = false
    rw [Function.update_of_ne hu]
    rfl

omit [Fintype Tid] in
theorem delivers_lone {d : D} {p : Pc Op Cv R} (hp : ∀ cv, p.sleepsOn cv = false) {n : Notify Cv} {pc : Tid → Pc Op Cv R}
    (h : Delivers (lone t d p).pc n pc) : pc = (lone t d p).pc := by
  funext u
  apply h.same
  exact lone_awake hp u

omit [Fintype Tid] in
theorem deliversHeld_lone {d : D} {p : Pc Op Cv R} (hp : ∀ cv, p.sleepsOn cv = false) {n : Option (Notify Cv)}
    {pc : Tid → Pc Op Cv R} (h : DeliversHeld (lone t d p).pc n pc) : pc = (lone t d p).pc := by
  cases h with
  | none => rfl
  | some h => exact delivers_lone hp h

theorem deliver_lone {d : D} {p : Pc Op Cv R} (hp : ∀ cv, p.sleepsOn cv = false) (n : Notify Cv) :
    deliver (lone t d p).pc none n = some (lone t d p).pc := by
  cases n with
  | one cv => exact if_pos fun u => lone_awake hp u cv
  | all cv =>
    refine congrArg some (funext fun u => ?_)
    exact wake_of_not_asleep (lone_awake hp u cv)

/-! ## A call is a section -/

/-- Where a call is, when it began with the data `d`. -/
inductive Alone (M : Monitor D Op Cv R) (t : Tid) (op : Op) (d : D) : State Tid D Op Cv R → Prop
  | enters : Alone M t op d (lone t d (.entry op))
  | sleeps {d' : D} {cv : Cv} : M.sect op false d = .sleep d' cv → Alone M t op d (lone t d' (.asleep op cv))
  | leaves {d' : D} {held : Option (Notify Cv)} {later todo : List (Notify Cv)} {r : R} :
      M.sect op false d = .leave d' held later r → Alone M t op d (lone t d' (.leaving op todo r))

theorem Alone.step {d : D} {a : Label Tid Op} (h : Alone M t op d s) (hown : ownSteps t a = true)
    (hs : M.step (fun _ _ => true) s a = some s') : Alone M t op d s' := by
  cases step_spec hs with
  | @sleep u pick op' w d' cv hready hx =>
    obtain rfl : u = t := of_decide_eq_true hown
    cases h with
    | enters =>
      rw [lone_pc] at hready
      cases hready
      rw [lone_update]
      exact .sleeps hx
    | sleeps _ | leaves _ =>
      rw [lone_pc] at hready
      cases hready
  | @leave u pick op' w d' held later r pc hready hx hd =>
    obtain rfl : u = t := of_decide_eq_true hown
    cases h with
    | enters =>
      rw [lone_pc] at hready
      cases hready
      rw [deliversHeld_lone (fun _ => rfl) hd, lone_update]
      exact .leaves hx
    | sleeps _ | leaves _ =>
      rw [lone_pc] at hready
      cases hready
  | @notify u pick op' n todo r pc hpc hd =>
    obtain rfl : u = t := of_decide_eq_true hown
    cases h with
    | leaves hx =>
      rw [lone_pc] at hpc
      cases hpc
      rw [delivers_lone (fun _ => rfl) hd, lone_update]
      exact .leaves hx
    | enters | sleeps _ =>
      rw [lone_pc] at hpc
      cases hpc
  | _ => cases hown

theorem notifies_lone (M : Monitor D Op Cv R) (t : Tid) (op : Op) (d : D) (todo : List (Notify Cv)) (r : R) :
    (M.machine fun _ _ => true).execFrom (lone t d (.leaving op todo r)) (List.replicate todo.length (.notify t none)) =
      some (lone t d (.leaving op [] r)) := by
  induction todo with
  | nil => rfl
  | cons n todo ih =>
    have hs : (M.machine fun _ _ => true).step (lone t d (.leaving op (n :: todo) r)) (.notify t none) =
        some (lone t d (.leaving op todo r)) := by
      have hd := deliver_lone (t := t) (d := d) (p := .leaving op (n :: todo) r) (fun _ => rfl) n
      simp only [machine, step, lone_pc, hd, Option.map_some]
      exact congrArg some (lone_update ..)
    rw [List.length_cons, List.replicate_succ, Machine.execFrom_cons hs]
    exact ih

/-- A call that does not wait has the effect and the result of its section. -/
theorem service_answers {d : D} : (service Tid M).answers ⟨d, fun _ => .idle⟩ (t, op) r s' ↔
    ∃ d' held later, M.sect op false d = .leave d' held later r ∧ s' = ⟨d', fun _ => .idle⟩ := by
  have hcall : (M.machine fun _ _ => true).step ⟨d, fun _ => .idle⟩ (.call t op) = some (lone t d (.entry op)) := rfl
  constructor
  · rintro ⟨as, s₁, has, hexec, hpc, hret⟩
    obtain ⟨s₀, hs₀, hexec⟩ := Machine.execFrom_cons_some hexec
    obtain rfl : lone t d (.entry op) = s₀ := Option.some.inj (hcall.symm.trans hs₀)
    have hthrough : (M.machine fun _ _ => true).Through (Alone M t op d) (lone t d (.entry op)) as s₁ :=
      Machine.Through.of_invariant (A := fun a => ownSteps t a = true) (fun _ _ _ ha h hs => h.step ha hs) .enters has hexec
    have hret : M.step (fun _ _ => true) s₁ (.ret t) = some s' := hret
    cases hthrough.final with
    | enters | sleeps _ =>
      rw [lone_pc] at hpc
      cases hpc
    | @leaves d' held later todo r' hx =>
      rw [lone_pc] at hpc
      cases hpc
      cases step_spec hret with
      | ret _ => exact ⟨d', held, later, hx, (lone_update ..).trans (lone_idle t d')⟩
  · rintro ⟨d', held, later, hx, rfl⟩
    have hacquire : (M.machine fun _ _ => true).step (lone t d (.entry op)) (.acquire t none) =
        some (lone t d' (.leaving op later r)) := by
      have hheld : deliverHeld (lone t d (.entry op : Pc Op Cv R)).pc none held = some (lone t d (.entry op : Pc Op Cv R)).pc := by
        cases held with
        | none => rfl
        | some n => exact deliver_lone (fun _ => rfl) n
      simp only [machine, step, lone_pc, Pc.ready]
      rw [show (lone t d (.entry op) : State Tid D Op Cv R).data = d from rfl, hx]
      simp only [hheld, Option.map_some, lone_update]
    refine ⟨.acquire t none :: List.replicate later.length (.notify t none), lone t d' (.leaving op [] r), fun a ha => ?_, ?_,
      lone_pc .., ?_⟩
    · rcases List.mem_cons.mp ha with rfl | ha
      · exact decide_eq_true rfl
      · rw [List.eq_of_mem_replicate ha]
        exact decide_eq_true rfl
    · rw [Machine.execFrom_cons hcall, Machine.execFrom_cons hacquire]
      exact notifies_lone M t op d' later r
    · simp only [machine, step, lone_pc]
      exact congrArg some ((lone_update ..).trans (lone_idle t d'))

def Quiet (Sim : D → D → Prop) (s s' : State Tid D Op Cv R) : Prop :=
  ∃ d d', Sim d d' ∧ s = ⟨d, fun _ => .idle⟩ ∧ s' = ⟨d', fun _ => .idle⟩

/-- The rule for monitors: failing sections are erased as the calls are. -/
theorem erases (Sim : D → D → Prop) {failed : R → Bool} (hstart : Sim M.start M.start)
    (hfails : ∀ op d d' e held later r, Sim d e → M.sect op false d = .leave d' held later r → failed r = true → Sim d' e)
    (hanswers : ∀ op d d' e held later r, Sim d e → M.sect op false d = .leave d' held later r → failed r = false →
      ∃ e' held' later', M.sect op false e = .leave e' held' later' r ∧ Sim d' e') :
    Service.Erases (service Tid M) (service Tid M) failed (Quiet Sim) := by
  constructor
  · exact ⟨_, _, hstart, rfl, rfl⟩
  · rintro s s' t ⟨u, op⟩ r ⟨d, e, hde, rfl, rfl⟩ ha hf
    obtain ⟨d', held, later, hx, rfl⟩ := service_answers.mp ha
    exact ⟨d', e, hfails _ _ _ _ _ _ _ hde hx hf, rfl, rfl⟩
  · rintro s s' t ⟨u, op⟩ r ⟨d, e, hde, rfl, rfl⟩ ha hf
    obtain ⟨d', held, later, hx, rfl⟩ := service_answers.mp ha
    obtain ⟨e', held', later', he, -⟩ := hanswers _ _ _ _ _ _ _ hde hx hf
    exact ⟨r, _, service_answers.mpr ⟨e', held', later', he, rfl⟩⟩
  · rintro s s' t t' ⟨u, op⟩ r r' ⟨d, e, hde, rfl, rfl⟩ ha hf ha'
    obtain ⟨d', held, later, hx, rfl⟩ := service_answers.mp ha
    obtain ⟨e', held', later', he, hsim⟩ := hanswers _ _ _ _ _ _ _ hde hx hf
    obtain ⟨e₂, held₂, later₂, he₂, rfl⟩ := service_answers.mp ha'
    obtain ⟨rfl, -, -, rfl⟩ := Exit.leave.inj (he.symm.trans he₂)
    exact ⟨rfl, d', e', hsim, rfl, rfl⟩

end Interleave.Monitor
