import Yutil.Machine

/-!
# Calls that take effect once

A run shows three moments of a call: it is made, it takes effect, it is
answered. A run is linearized when every thread goes through the three in
turn, each answer the one its effect calls for, and the effects of all threads
in the order of the run are a legal sequential history.
-/

namespace Interleave

inductive Moment (Op Ev R : Type)
  | call (op : Op)
  | effect (e : Ev)
  | reply (r : R)

/-- Where a thread is between its calls and their answers. -/
inductive Stage (Op R : Type)
  | idle
  | called (op : Op)
  | owed (r : R)

section
variable {Op Ev R : Type} {answers : Op → Ev → R → Prop} {g h k : Stage Op R}

inductive Advances (answers : Op → Ev → R → Prop) : Stage Op R → List (Moment Op Ev R) → Stage Op R → Prop
  | nil {g : Stage Op R} : Advances answers g [] g
  | call {op : Op} {log : List (Moment Op Ev R)} {g : Stage Op R} : Advances answers (.called op) log g →
      Advances answers .idle (.call op :: log) g
  | effect {op : Op} {e : Ev} {r : R} {log : List (Moment Op Ev R)} {g : Stage Op R} : answers op e r →
      Advances answers (.owed r) log g → Advances answers (.called op) (.effect e :: log) g
  | reply {r : R} {log : List (Moment Op Ev R)} {g : Stage Op R} : Advances answers .idle log g →
      Advances answers (.owed r) (.reply r :: log) g

theorem Advances.append {l₁ l₂ : List (Moment Op Ev R)} (h₁ : Advances answers g l₁ h) (h₂ : Advances answers h l₂ k) :
    Advances answers g (l₁ ++ l₂) k := by
  induction h₁ with
  | nil => exact h₂
  | call _ ih => exact .call (ih h₂)
  | effect ha _ ih => exact .effect ha (ih h₂)
  | reply _ ih => exact .reply (ih h₂)

theorem Advances.split {l₁ l₂ : List (Moment Op Ev R)} (hl : Advances answers g (l₁ ++ l₂) k) :
    ∃ h, Advances answers g l₁ h ∧ Advances answers h l₂ k := by
  induction l₁ generalizing g with
  | nil => exact ⟨g, .nil, hl⟩
  | cons m l₁ ih =>
    cases hl with
    | call hl =>
      obtain ⟨h, h₁, h₂⟩ := ih hl
      exact ⟨h, .call h₁, h₂⟩
    | effect ha hl =>
      obtain ⟨h, h₁, h₂⟩ := ih hl
      exact ⟨h, .effect ha h₁, h₂⟩
    | reply hl =>
      obtain ⟨h, h₁, h₂⟩ := ih hl
      exact ⟨h, .reply h₁, h₂⟩

theorem Advances.one {e : Option Ev} (h : Advances answers g (e.map Moment.effect).toList k) :
    e = none ∧ k = g ∨ ∃ x op r, e = some x ∧ g = .called op ∧ answers op x r ∧ k = .owed r := by
  cases e with
  | none => cases h; exact .inl ⟨rfl, rfl⟩
  | some x =>
    cases h with
    | effect ha h => cases h; exact .inr ⟨x, _, _, rfl, rfl, ha, rfl⟩

/-- Between a call and its answer there is the effect, and nothing else of the thread. -/
theorem Advances.between {op : Op} {r : R} {before during after : List (Moment Op Ev R)}
    (hl : Advances answers g (before ++ .call op :: during ++ .reply r :: after) k)
    (hfirst : ∀ r', .reply r' ∉ during) : ∃ e, during = [.effect e] ∧ answers op e r := by
  rw [List.append_assoc] at hl
  obtain ⟨h, -, hl⟩ := hl.split
  rw [List.cons_append] at hl
  cases hl with
  | call hl =>
    cases during with
    | nil => cases hl
    | cons m during =>
      rw [List.cons_append] at hl
      cases hl with
      | effect ha hl =>
        cases during with
        | nil => cases hl; exact ⟨_, rfl, ha⟩
        | cons m during =>
          cases hl with
          | reply hl => exact absurd (List.mem_cons_of_mem _ (List.mem_cons_self ..)) (hfirst _)

end

section
variable {Tid Op Ev R : Type} [DecidableEq Tid] {answers : Op → Ev → R → Prop}

def momentsOf (t : Tid) (log : List (Tid × Moment Op Ev R)) : List (Moment Op Ev R) :=
  log.filterMap fun m => if m.1 = t then some m.2 else none

omit [DecidableEq Tid] in
def effects (log : List (Tid × Moment Op Ev R)) : List (Tid × Ev) :=
  log.filterMap fun m => match m.2 with | .effect e => some (m.1, e) | _ => none

theorem momentsOf_append (t : Tid) (l₁ l₂ : List (Tid × Moment Op Ev R)) :
    momentsOf t (l₁ ++ l₂) = momentsOf t l₁ ++ momentsOf t l₂ := List.filterMap_append

theorem momentsOf_self (t : Tid) (m : Moment Op Ev R) : momentsOf t [(t, m)] = [m] := by simp [momentsOf]

theorem momentsOf_ne {t u : Tid} (h : t ≠ u) (m : Moment Op Ev R) : momentsOf t [(u, m)] = [] := by
  simp [momentsOf, h.symm]

omit [DecidableEq Tid] in
theorem effects_append (l₁ l₂ : List (Tid × Moment Op Ev R)) : effects (l₁ ++ l₂) = effects l₁ ++ effects l₂ :=
  List.filterMap_append

structure Linearized (answers : Op → Ev → R → Prop) (legal : List (Tid × Ev) → Prop)
    (log : List (Tid × Moment Op Ev R)) : Prop where
  each : ∀ t, ∃ g, Advances answers .idle (momentsOf t log) g
  legal : legal (effects log)

/-- The rule of stages: when the stage of every thread can be read off the
state and every step takes it as its moments say, so does every run. -/
theorem advances_reachable {σ α : Type} {M : Machine σ α} {emit : σ → α → List (Tid × Moment Op Ev R)}
    (stage : σ → Tid → Stage Op R) (h0 : ∀ t, stage M.start t = .idle)
    (hs : ∀ s a s' t, M.step s a = some s' → Advances answers (stage s t) (momentsOf t (emit s a)) (stage s' t))
    {x : σ × List (Tid × Moment Op Ev R)} (hx : (M.logged emit).Reachable x) (t : Tid) :
    Advances answers .idle (momentsOf t x.2) (stage x.1 t) := by
  refine hx.invariant (I := fun x => Advances answers .idle (momentsOf t x.2) (stage x.1 t)) ?_ ?_
  · show Advances answers .idle [] (stage M.start t)
    rw [h0]
    exact .nil
  · intro x a x' _ h hstep
    obtain ⟨h1, h2⟩ := Machine.logged_step.mp hstep
    rw [h2, momentsOf_append]
    exact h.append (hs _ _ _ t h1)

end

end Interleave
