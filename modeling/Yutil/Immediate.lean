import Yutil.Linearizable

/-!
# Monitors as objects that answer at once

An object answers a call in one instant, as soon as it can. A monitor whose
sections leave exactly where the object answers looks the same from outside:
whatever it does about sleeping and waking, the two have the same histories of
calls, effects and replies.
-/

namespace Interleave

def Machine.Shows {σ ε α : Type} (M : Machine (σ × List ε) α) (log : List ε) : Prop := ∃ s, M.Reachable (s, log)

structure Immediate (S Op R : Type) where
  start : S
  answer : Op → S → Option (S × R)

namespace Immediate

structure State (Tid S Op R : Type) where
  value : S
  doing : Tid → Doing Op R

inductive Label (Tid Op : Type)
  | call (t : Tid) (op : Op)
  | act (t : Tid)
  | ret (t : Tid)
  deriving DecidableEq, Repr

variable {Tid S Op R : Type}

def moments (O : Immediate S Op R) (s : State Tid S Op R) : Label Tid Op → List (Tid × Moment Op (Op × R) R)
  | .call t op => [(t, .call op)]
  | .act t =>
    match s.doing t with
    | .calling op => ((O.answer op s.value).map fun x => (t, .effect (op, x.2))).toList
    | _ => []
  | .ret t =>
    match s.doing t with
    | .returning _ r => [(t, .reply r)]
    | _ => []

variable [DecidableEq Tid]

def step (O : Immediate S Op R) (calls : Tid → Op → Bool) (s : State Tid S Op R) : Label Tid Op → Option (State Tid S Op R)
  | .call t op =>
    match s.doing t with
    | .nothing => if calls t op then some { s with doing := Function.update s.doing t (.calling op) } else none
    | _ => none
  | .act t =>
    match s.doing t with
    | .calling op => (O.answer op s.value).map fun x => ⟨x.1, Function.update s.doing t (.returning op x.2)⟩
    | _ => none
  | .ret t =>
    match s.doing t with
    | .returning _ _ => some { s with doing := Function.update s.doing t .nothing }
    | _ => none

def machine (O : Immediate S Op R) (calls : Tid → Op → Bool) : Machine (State Tid S Op R) (Label Tid Op) where
  start := ⟨O.start, fun _ => .nothing⟩
  step := O.step calls

def observed (O : Immediate S Op R) (calls : Tid → Op → Bool) :
    Machine (State Tid S Op R × List (Tid × Moment Op (Op × R) R)) (Label Tid Op) :=
  (O.machine calls).logged O.moments

inductive Steps (O : Immediate S Op R) (calls : Tid → Op → Bool) (s : State Tid S Op R) :
    Label Tid Op → List (Tid × Moment Op (Op × R) R) → State Tid S Op R → Prop
  | call {t : Tid} {op : Op} : s.doing t = .nothing → calls t op = true →
      Steps O calls s (.call t op) [(t, .call op)] ⟨s.value, Function.update s.doing t (.calling op)⟩
  | act {t : Tid} {op : Op} {v : S} {r : R} : s.doing t = .calling op → O.answer op s.value = some (v, r) →
      Steps O calls s (.act t) [(t, .effect (op, r))] ⟨v, Function.update s.doing t (.returning op r)⟩
  | ret {t : Tid} {op : Op} {r : R} : s.doing t = .returning op r →
      Steps O calls s (.ret t) [(t, .reply r)] ⟨s.value, Function.update s.doing t .nothing⟩

variable {O : Immediate S Op R} {calls : Tid → Op → Bool} {s s' : State Tid S Op R} {a : Label Tid Op}

theorem step_spec (h : O.step calls s a = some s') : Steps O calls s a (O.moments s a) s' := by
  cases a with
  | call t op =>
    simp only [step] at h
    split at h
    · rename_i hd
      split at h
      · rename_i hc
        cases h
        exact .call hd hc
      · cases h
    · cases h
  | act t =>
    simp only [step] at h
    split at h
    · rename_i op hd
      obtain ⟨⟨v, r⟩, ha, he⟩ := Option.map_eq_some_iff.mp h
      cases he
      simp only [moments, hd, ha]
      exact .act hd ha
    · cases h
  | ret t =>
    simp only [step] at h
    split at h
    · rename_i op r hd
      cases h
      simp only [moments, hd]
      exact .ret hd
    · cases h

theorem Steps.step {l : List (Tid × Moment Op (Op × R) R)} (h : Steps O calls s a l s') :
    O.step calls s a = some s' ∧ O.moments s a = l := by
  cases h with
  | call hd hc => simp [Immediate.step, moments, hd, hc]
  | act hd ha => simp [Immediate.step, moments, hd, ha]
  | ret hd => simp [Immediate.step, moments, hd]

theorem Steps.reachable {l log : List (Tid × Moment Op (Op × R) R)} (h : Steps O calls s a l s')
    (hr : (O.observed calls).Reachable (s, log)) : (O.observed calls).Reachable (s', log ++ l) := by
  obtain ⟨hs, hl⟩ := h.step
  exact hr.step (Machine.logged_step.mpr ⟨hs, congrArg (log ++ ·) hl.symm⟩)

end Immediate

/-! ## Monitors that realize an object -/

namespace Monitor

variable {Tid D Op Cv R S : Type}

/-- The sections leave exactly where the object answers, and do as it does. -/
structure Realizes (M : Monitor D Op Cv R) (O : Immediate S Op R) (I : D → Prop) (f : D → S) : Prop where
  start : I M.start
  value : f M.start = O.start
  sleep : ∀ {op w d d' cv}, I d → M.sect op w d = .sleep d' cv → I d' ∧ f d' = f d ∧ O.answer op (f d) = none
  leave : ∀ {op w d d' held later r}, I d → M.sect op w d = .leave d' held later r →
    I d' ∧ O.answer op (f d) = some (f d', r)

variable [DecidableEq Tid] [Fintype Tid] [DecidableEq Cv] {M : Monitor D Op Cv R} {O : Immediate S Op R} {I : D → Prop}
  {f : D → S} {calls : Tid → Op → Bool} {s : State Tid D Op Cv R} {log : List (Tid × Moment Op (Op × R) R)}

def Matches (I : D → Prop) (f : D → S) (s : State Tid D Op Cv R) (o : Immediate.State Tid S Op R) : Prop :=
  I s.data ∧ o.value = f s.data ∧ ∀ u, o.doing u = (s.pc u).doing

omit [Fintype Tid] [DecidableEq Cv] in
theorem Matches.update {s s' : State Tid D Op Cv R} {o : Immediate.State Tid S Op R} (h : Matches I f s o) {t : Tid} {g : Doing Op R}
    {v : S} (hI : I s'.data) (hv : v = f s'.data)
    (hall : ∀ u, (s'.pc u).doing = Function.update (fun v => (s.pc v).doing) t g u) :
    Matches I f s' ⟨v, Function.update o.doing t g⟩ := by
  refine ⟨hI, hv, fun u => ?_⟩
  show Function.update o.doing t g u = (s'.pc u).doing
  rw [hall u]
  by_cases hu : u = t
  · subst hu
    rw [Function.update_self, Function.update_self]
  · rw [Function.update_of_ne hu, Function.update_of_ne hu]
    exact h.2.2 u

theorem Realizes.followed (hM : M.Realizes O I f) (hr : (M.observed calls).Reachable (s, log)) :
    ∃ o, (O.observed calls).Reachable (o, log) ∧ Matches I f s o := by
  refine hr.invariant (I := fun x => ∃ o, (O.observed calls).Reachable (o, x.2) ∧ Matches I f x.1 o)
    ⟨⟨O.start, fun _ => .nothing⟩, .start, hM.start, hM.value.symm, fun _ => rfl⟩ ?_
  intro x a x' _ ih hs
  obtain ⟨o, ho, hm⟩ := ih
  obtain ⟨hs, hlog⟩ := Machine.logged_step.mp hs
  obtain ⟨hI, hv, hdoing⟩ := hm
  -- a step that is not seen
  have quiet : M.moments x.1 a = [] → I x'.1.data → f x'.1.data = f x.1.data → (∀ u, (x'.1.pc u).doing = (x.1.pc u).doing) →
      ∃ o, (O.observed calls).Reachable (o, x'.2) ∧ Matches I f x'.1 o := by
    intro hnone hI' hf hall
    rw [hlog, hnone, List.append_nil]
    exact ⟨o, ho, hI', hv.trans hf.symm, fun u => (hdoing u).trans (hall u).symm⟩
  rw [hlog] at quiet ⊢
  have hcalls : ∀ t op, a = .call t op → calls t op = true := by
    intro t op ha
    subst ha
    have hs : M.step calls x.1 (.call t op) = some x'.1 := hs
    generalize x'.1 = s' at hs
    cases step_spec hs with
    | call _ hc => exact hc
  cases (step_spec hs).turns with
  | @calls t op hidle hd hall =>
    have hstep : O.Steps calls o (.call t op) [(t, .call op)] ⟨o.value, Function.update o.doing t (.calling op)⟩ :=
      .call ((hdoing t).trans hidle) (hcalls t op rfl)
    exact ⟨_, hstep.reachable ho, Matches.update ⟨hI, hv, hdoing⟩ (hd ▸ hI) (hd ▸ hv) hall⟩
  | @ends t pick op w held later r hready hx hall =>
    obtain ⟨hI', ha⟩ := hM.leave hI hx
    have hstep : O.Steps calls o (.act t) [(t, .effect (op, r))] ⟨f x'.1.data, Function.update o.doing t (.returning op r)⟩ :=
      .act ((hdoing t).trans (ready_doing hready)) (hv ▸ ha)
    rw [moments_ends hready hx]
    exact ⟨_, hstep.reachable ho, Matches.update ⟨hI, hv, hdoing⟩ hI' rfl hall⟩
  | @returns t op r hpc hd hall =>
    have hstep : O.Steps calls o (.ret t) [(t, .reply r)] ⟨o.value, Function.update o.doing t .nothing⟩ :=
      .ret ((hdoing t).trans (by rw [hpc]; rfl))
    rw [moments_returns hpc]
    exact ⟨_, hstep.reachable ho, Matches.update ⟨hI, hv, hdoing⟩ (hd ▸ hI) (hd ▸ hv) hall⟩
  | sleeps hready hx hall =>
    obtain ⟨hI', hf, -⟩ := hM.sleep hI hx
    exact quiet (moments_sleeps hready hx) hI' hf hall
  | notifies hd hall => exact quiet rfl (hd ▸ hI) (congrArg f hd) hall
  | stirs hd hall => exact quiet rfl (hd ▸ hI) (congrArg f hd) hall

/-! ### The monitor follows the object -/

theorem quiet_step {s' : State Tid D Op Cv R} {a : Label Tid Op} (hr : (M.observed calls).Reachable (s, log))
    (hs : M.step calls s a = some s') (he : M.moments s a = []) : (M.observed calls).Reachable (s', log) := by
  refine hr.step (Machine.logged_step.mpr ⟨hs, ?_⟩)
  rw [he]
  exact (List.append_nil log).symm

theorem stirred (hr : (M.observed calls).Reachable (s, log)) {t : Tid} {op : Op} (hd : (s.pc t).doing = .calling op) :
    ∃ s' w, (M.observed calls).Reachable (s', log) ∧ s'.data = s.data ∧ (∀ u, (s'.pc u).doing = (s.pc u).doing) ∧
      (s'.pc t).ready = some (op, w) := by
  cases hpc : s.pc t with
  | idle | leaving op todo r =>
    rw [hpc] at hd
    cases hd
  | entry op' =>
    rw [hpc] at hd
    cases hd
    exact ⟨s, false, hr, rfl, fun _ => rfl, by rw [hpc]; rfl⟩
  | woken op' cv =>
    rw [hpc] at hd
    cases hd
    exact ⟨s, true, hr, rfl, fun _ => rfl, by rw [hpc]; rfl⟩
  | asleep op' cv =>
    rw [hpc] at hd
    cases hd
    have hs : M.step calls s (.spurious t) = some ⟨s.data, Function.update s.pc t (.woken op cv)⟩ := by simp only [step, hpc]
    refine ⟨_, true, quiet_step hr hs rfl, rfl, ?_, ?_⟩
    · cases (step_spec hs).turns with
      | stirs _ hall => exact hall
    · show (Function.update s.pc t (.woken op cv) t).ready = some (op, true)
      rw [Function.update_self]
      rfl

theorem notified {t : Tid} {op : Op} {r : R} (todo : List (Notify Cv)) (hr : (M.observed calls).Reachable (s, log))
    (hpc : s.pc t = .leaving op todo r) :
    ∃ s', (M.observed calls).Reachable (s', log) ∧ s'.data = s.data ∧ (∀ u, (s'.pc u).doing = (s.pc u).doing) ∧
      s'.pc t = .leaving op [] r := by
  induction todo generalizing s with
  | nil => exact ⟨s, hr, rfl, fun _ => rfl, hpc⟩
  | cons n todo ih =>
    obtain ⟨pick, pc, hdeliver⟩ := deliver_exists s.pc n
    have hs : M.step calls s (.notify t pick) = some ⟨s.data, Function.update pc t (.leaving op todo r)⟩ := by
      simp only [step, hpc, hdeliver, Option.map_some]
    obtain ⟨s', hr', hd, hall, hpc'⟩ := ih (quiet_step hr hs rfl) (Function.update_self ..)
    refine ⟨s', hr', hd, fun u => (hall u).trans ?_, hpc'⟩
    cases (step_spec hs).turns with
    | notifies _ hall => exact hall u

/-- The monitor follows the object: a sleeper that can be answered wakes up by itself. -/
theorem Realizes.follows (hM : M.Realizes O I f) {o : Immediate.State Tid S Op R} (ho : (O.observed calls).Reachable (o, log)) :
    ∃ s, (M.observed calls).Reachable (s, log) ∧ Matches I f s o := by
  refine ho.invariant (I := fun x => ∃ s, (M.observed calls).Reachable (s, x.2) ∧ Matches I f s x.1)
    ⟨⟨M.start, fun _ => .idle⟩, .start, hM.start, hM.value.symm, fun _ => rfl⟩ ?_
  intro x a x' _ ih hs
  obtain ⟨s, hr, hI, hv, hdoing⟩ := ih
  obtain ⟨hs, hlog⟩ := Machine.logged_step.mp hs
  have hs : O.step calls x.1 a = some x'.1 := hs
  have hsteps := Immediate.step_spec hs
  -- the last step is the one that is seen
  have last : ∀ {s₁ s₂ : State Tid D Op Cv R} {b : Label Tid Op}, (M.observed calls).Reachable (s₁, x.2) →
      M.step calls s₁ b = some s₂ → M.moments s₁ b = O.moments x.1 a → (M.observed calls).Reachable (s₂, x'.2) := by
    intro s₁ s₂ b hr hs hl
    exact hr.step (Machine.logged_step.mpr ⟨hs, hlog.trans (congrArg (x.2 ++ ·) hl.symm)⟩)
  generalize O.moments x.1 a = l at hsteps last
  generalize x'.1 = o' at hsteps ⊢
  cases hsteps with
  | @call t op hd hc =>
    have hpc : s.pc t = .idle := by
      have := (hdoing t).symm.trans hd
      cases hpc : s.pc t with
      | idle => rfl
      | _ =>
        rw [hpc] at this
        cases this
    have hs : M.step calls s (.call t op) = some ⟨s.data, Function.update s.pc t (.entry op)⟩ := by
      simp only [step, hpc, hc, if_true]
    refine ⟨_, last hr hs rfl, Matches.update ⟨hI, hv, hdoing⟩ hI hv ?_⟩
    cases (step_spec hs).turns with
    | calls _ _ hall => exact hall
  | @act t op v r hd ha =>
    obtain ⟨s₁, w, hr₁, hdata, hall, hready⟩ := stirred hr ((hdoing t).symm.trans hd)
    rw [hv, ← hdata] at ha
    cases hx : M.sect op w s₁.data with
    | sleep d cv =>
      obtain ⟨-, -, hnone⟩ := hM.sleep (hdata ▸ hI) hx
      cases hnone.symm.trans ha
    | leave d held later r' =>
      obtain ⟨hI', hsome⟩ := hM.leave (hdata ▸ hI) hx
      obtain ⟨rfl, rfl⟩ := Prod.mk.inj (Option.some.inj (hsome.symm.trans ha))
      obtain ⟨pick, pc, hheld⟩ := deliverHeld_exists s₁.pc held
      have hs : M.step calls s₁ (.acquire t pick) = some ⟨d, Function.update pc t (.leaving op later r')⟩ := by
        simp only [step, hready, hx, hheld, Option.map_some]
      refine ⟨_, last hr₁ hs (moments_ends hready hx), Matches.update ⟨hI, hv, hdoing⟩ hI' rfl fun u => ?_⟩
      rw [← funext hall]
      cases (step_spec hs).turns with
      | ends hready' hx' hall' =>
        obtain ⟨rfl, rfl⟩ := Prod.mk.inj (Option.some.inj (hready.symm.trans hready'))
        cases hx.symm.trans hx'
        exact hall' u
      | sleeps hready' hx' _ =>
        obtain ⟨rfl, rfl⟩ := Prod.mk.inj (Option.some.inj (hready.symm.trans hready'))
        cases hx.symm.trans hx'
  | @ret t op r hd =>
    obtain ⟨todo, hpc⟩ : ∃ todo, s.pc t = .leaving op todo r := by
      have := (hdoing t).symm.trans hd
      cases hpc : s.pc t with
      | leaving op' todo r' =>
        rw [hpc] at this
        cases this
        exact ⟨todo, rfl⟩
      | _ =>
        rw [hpc] at this
        cases this
    obtain ⟨s₁, hr₁, hdata, hall, hpc₁⟩ := notified todo hr hpc
    have hs : M.step calls s₁ (.ret t) = some ⟨s₁.data, Function.update s₁.pc t .idle⟩ := by simp only [step, hpc₁]
    refine ⟨_, last hr₁ hs (moments_returns hpc₁), Matches.update ⟨hI, hv, hdoing⟩ (hdata ▸ hI) (hdata ▸ hv) fun u => ?_⟩
    cases (step_spec hs).turns with
    | returns _ _ hall' =>
      rw [← funext hall]
      exact hall' u

/-- **A monitor that realizes an object has its histories.** -/
theorem Realizes.shows (hM : M.Realizes O I f) : (M.observed calls).Shows log ↔ (O.observed calls).Shows log := by
  constructor
  · rintro ⟨s, hr⟩
    obtain ⟨o, ho, -⟩ := hM.followed hr
    exact ⟨o, ho⟩
  · rintro ⟨o, ho⟩
    obtain ⟨s, hr, -⟩ := hM.follows ho
    exact ⟨s, hr⟩

end Monitor

end Interleave
