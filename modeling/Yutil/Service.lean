import Mathlib.Data.List.Basic

/-!
# Objects that answer calls

An object with calls one after the other: a state, and which answers a call may
have there. It implements a function of the calls when a relation to the
function's states is kept by every answer, which is then the function's. Calls
that fail and leave nothing behind can be cut out of a sequence of calls.
-/

namespace Interleave

structure Service (σ Op R : Type) where
  start : σ
  answers : σ → Op → R → σ → Prop

namespace Service

variable {σ φ Op R : Type}

inductive Runs (S : Service σ Op R) : σ → List Op → List R → σ → Prop
  | nil {s : σ} : Runs S s [] [] s
  | cons {s t u : σ} {op : Op} {r : R} {ops : List Op} {rs : List R} : S.answers s op r t → Runs S t ops rs u →
      Runs S s (op :: ops) (r :: rs) u

def results (call : φ → Op → φ × R) : φ → List Op → List R
  | _, [] => []
  | f, op :: ops => (call f op).2 :: results call (call f op).1 ops

structure Implements (S : Service σ Op R) (call : φ → Op → φ × R) (f₀ : φ) (Rel : σ → φ → Prop) : Prop where
  start : Rel S.start f₀
  total : ∀ s f op, Rel s f → ∃ r t, S.answers s op r t
  answers : ∀ s f op r t, Rel s f → S.answers s op r t → r = (call f op).2 ∧ Rel t (call f op).1

variable {S : Service σ Op R} {call : φ → Op → φ × R} {f₀ : φ} {Rel : σ → φ → Prop}

theorem Implements.runs (h : S.Implements call f₀ Rel) {s t : σ} {f : φ} {ops : List Op} {rs : List R} (hf : Rel s f)
    (hr : S.Runs s ops rs t) : rs = results call f ops ∧ ∃ g, Rel t g := by
  induction hr generalizing f with
  | nil => exact ⟨rfl, f, hf⟩
  | @cons s t u op r ops rs ha _ ih =>
    obtain ⟨h1, h2⟩ := h.answers s f op r t hf ha
    obtain ⟨h3, h4⟩ := ih h2
    refine ⟨?_, h4⟩
    rw [h1, h3]
    rfl

theorem Implements.exists_runs (h : S.Implements call f₀ Rel) {s : σ} {f : φ} (hf : Rel s f) (ops : List Op) :
    ∃ rs t, S.Runs s ops rs t := by
  induction ops generalizing s f with
  | nil => exact ⟨[], s, .nil⟩
  | cons op ops ih =>
    obtain ⟨r, t, ha⟩ := h.total s f op hf
    obtain ⟨rs, u, hr⟩ := ih (h.answers s f op r t hf ha).2
    exact ⟨r :: rs, u, .cons ha hr⟩

theorem Implements.correct (h : S.Implements call f₀ Rel) (ops : List Op) :
    (∃ rs t, S.Runs S.start ops rs t) ∧ ∀ rs t, S.Runs S.start ops rs t → rs = results call f₀ ops ∧ ∃ g, Rel t g :=
  ⟨h.exists_runs h.start ops, fun _ _ hr => h.runs h.start hr⟩

/-! ## Calls that fail -/

section
variable {τ : Type} {failed : R → Bool}

def kept (failed : R → Bool) (ops : List Op) (rs : List R) : List (Op × R) := (ops.zip rs).filter fun x => !failed x.2

/-- A failing call leaves nothing behind that `Sim` sees, and every other call
is answered, and answered the same, from the state without it. -/
structure Erases (S : Service σ Op R) (S' : Service τ Op R) (failed : R → Bool) (Sim : σ → τ → Prop) : Prop where
  start : Sim S.start S'.start
  fails : ∀ s s' t op r, Sim s t → S.answers s op r s' → failed r = true → Sim s' t
  total : ∀ s s' t op r, Sim s t → S.answers s op r s' → failed r = false → ∃ r' t', S'.answers t op r' t'
  answers : ∀ s s' t t' op r r', Sim s t → S.answers s op r s' → failed r = false → S'.answers t op r' t' →
    r' = r ∧ Sim s' t'

/-- The failing calls of a sequence can be cut out of it: the other calls can be
made without them, and are then answered as they were. -/
def Erased (S : Service σ Op R) (S' : Service τ Op R) (failed : R → Bool) (Alike : σ → τ → Prop) : Prop :=
  ∀ ops rs s, S.Runs S.start ops rs s →
    (∃ t, S'.Runs S'.start ((kept failed ops rs).map Prod.fst) ((kept failed ops rs).map Prod.snd) t) ∧
    ∀ rs' t, S'.Runs S'.start ((kept failed ops rs).map Prod.fst) rs' t →
      rs' = (kept failed ops rs).map Prod.snd ∧ Alike s t

variable {S' : Service τ Op R} {Sim Alike : σ → τ → Prop}

theorem kept_cons (failed : R → Bool) (op : Op) (r : R) (ops : List Op) (rs : List R) : kept failed (op :: ops) (r :: rs) =
    if failed r = true then kept failed ops rs else (op, r) :: kept failed ops rs := by
  unfold kept
  rw [List.zip_cons_cons, List.filter_cons]
  by_cases h : failed r = true
  · simp [h]
  · simp [h]

theorem Erases.runs (h : Erases S S' failed Sim) {s u : σ} {t : τ} {ops : List Op} {rs : List R} (hst : Sim s t)
    (hr : S.Runs s ops rs u) :
    (∃ v, S'.Runs t ((kept failed ops rs).map Prod.fst) ((kept failed ops rs).map Prod.snd) v) ∧
    ∀ rs' v, S'.Runs t ((kept failed ops rs).map Prod.fst) rs' v → rs' = (kept failed ops rs).map Prod.snd ∧ Sim u v := by
  induction hr generalizing t with
  | nil =>
    refine ⟨⟨t, .nil⟩, fun rs' v hv => ?_⟩
    cases hv
    exact ⟨rfl, hst⟩
  | @cons s s' u op r ops rs ha _ ih =>
    rw [kept_cons]
    by_cases hf : failed r = true
    · rw [if_pos hf]
      exact ih (h.fails _ _ _ _ _ hst ha hf)
    · rw [if_neg hf]
      have hf : failed r = false := Bool.eq_false_iff.mpr hf
      constructor
      · obtain ⟨r', t', ha'⟩ := h.total _ _ _ _ _ hst ha hf
        obtain ⟨rfl, hst'⟩ := h.answers _ _ _ _ _ _ _ hst ha hf ha'
        obtain ⟨v, hv⟩ := (ih hst').1
        exact ⟨v, .cons ha' hv⟩
      · intro rs' v hv
        cases hv with
        | cons ha' hv =>
          obtain ⟨rfl, hst'⟩ := h.answers _ _ _ _ _ _ _ hst ha hf ha'
          obtain ⟨rfl, hsim⟩ := (ih hst').2 _ _ hv
          exact ⟨rfl, hsim⟩

theorem Erases.erased (h : Erases S S' failed Sim) (hA : ∀ s t, Sim s t → Alike s t) : Erased S S' failed Alike := by
  intro ops rs s hr
  obtain ⟨h1, h2⟩ := h.runs h.start hr
  refine ⟨h1, fun rs' t ht => ?_⟩
  obtain ⟨h3, h4⟩ := h2 rs' t ht
  exact ⟨h3, hA _ _ h4⟩

end

end Service

end Interleave
