import Mathlib.Logic.Function.Basic
import Mathlib.Data.List.Basic

/-!
# Labelled machines and their runs

A machine answers a label with its next state, or refuses it. A label names
the thread that moves and settles whatever that thread leaves open, so an
interleaving is a list of labels. Invariants are proved once over the states
a machine can reach, and statements about an interval of an execution are
read off a `Run`, where a property that becomes true does so at some step
(`Run.crossing`).
-/

namespace Interleave

structure Machine (σ α : Type) where
  start : σ
  step : σ → α → Option σ

namespace Machine

variable {σ τ α ε : Type}

def execFrom (M : Machine σ α) : σ → List α → Option σ
  | s, [] => some s
  | s, a :: as => (M.step s a).bind fun s' => M.execFrom s' as

def exec (M : Machine σ α) (as : List α) : Option σ := M.execFrom M.start as

inductive Reachable (M : Machine σ α) : σ → Prop
  | start : Reachable M M.start
  | step {s s' : σ} {a : α} : Reachable M s → M.step s a = some s' → Reachable M s'

theorem execFrom_append (M : Machine σ α) (as bs : List α) (s : σ) :
    M.execFrom s (as ++ bs) = (M.execFrom s as).bind fun s' => M.execFrom s' bs := by
  induction as generalizing s with
  | nil => rfl
  | cons a as ih =>
    simp only [List.cons_append, execFrom]
    cases M.step s a with
    | none => rfl
    | some s' => exact ih s'

theorem execFrom_cons {M : Machine σ α} {s s' : σ} {a : α} {as : List α} (h : M.step s a = some s') :
    M.execFrom s (a :: as) = M.execFrom s' as := by
  simp only [execFrom, h, Option.bind_some]

theorem execFrom_cons_some {M : Machine σ α} {s u : σ} {a : α} {as : List α}
    (h : M.execFrom s (a :: as) = some u) : ∃ t, M.step s a = some t ∧ M.execFrom t as = some u := by
  simp only [execFrom, Option.bind_eq_some_iff] at h
  exact h

theorem execFrom_reachable {M : Machine σ α} {s t : σ} (hs : M.Reachable s) (as : List α)
    (h : M.execFrom s as = some t) : M.Reachable t := by
  induction as generalizing s with
  | nil => cases h; exact hs
  | cons a as ih =>
    obtain ⟨u, hu, hr⟩ := execFrom_cons_some h
    exact ih (.step hs hu) hr

theorem execFrom_invariant {M : Machine σ α} {I : σ → Prop} (hs : ∀ s a s', I s → M.step s a = some s' → I s')
    {s t : σ} {as : List α} (h0 : I s) (h : M.execFrom s as = some t) : I t := by
  induction as generalizing s with
  | nil => cases h; exact h0
  | cons a as ih =>
    obtain ⟨u, hu, hr⟩ := execFrom_cons_some h
    exact ih (hs _ _ _ h0 hu) hr

theorem exec_reachable {M : Machine σ α} {t : σ} (as : List α) (h : M.exec as = some t) : M.Reachable t :=
  execFrom_reachable .start as h

/-- The invariant rule: what holds at the start and is kept by every step from
a reachable state holds in every reachable state. -/
theorem Reachable.invariant {M : Machine σ α} {I : σ → Prop} (h0 : I M.start)
    (hs : ∀ s a s', M.Reachable s → I s → M.step s a = some s' → I s') {s : σ} (h : M.Reachable s) : I s := by
  induction h with
  | start => exact h0
  | step hr hstep ih => exact hs _ _ _ hr ih hstep

/-- The simulation rule: a relation that holds between the starts and that
every step of `M` keeps by some steps of `N` holds at every reachable state. -/
theorem Reachable.simulation {M : Machine σ α} {β : Type} {N : Machine τ β} {R : σ → τ → Prop}
    (h0 : R M.start N.start)
    (hs : ∀ s a s' t, M.Reachable s → N.Reachable t → R s t → M.step s a = some s' →
      ∃ bs t', N.execFrom t bs = some t' ∧ R s' t') {s : σ} (h : M.Reachable s) :
    ∃ t, N.Reachable t ∧ R s t := by
  induction h with
  | start => exact ⟨_, .start, h0⟩
  | step hr hstep ih =>
    obtain ⟨t, ht, hR⟩ := ih
    obtain ⟨bs, t', hbs, hR'⟩ := hs _ _ _ _ hr ht hR hstep
    exact ⟨t', execFrom_reachable ht bs hbs, hR'⟩

/-! ## Executions through good states -/

inductive Through (M : Machine σ α) (Q : σ → Prop) : σ → List α → σ → Prop
  | nil {s : σ} : Q s → Through M Q s [] s
  | cons {s t u : σ} {a : α} {as : List α} : Q s → M.step s a = some t → Through M Q t as u → Through M Q s (a :: as) u

namespace Through

variable {M : Machine σ α} {Q R : σ → Prop} {s t u : σ} {as bs : List α}

theorem exec (h : M.Through Q s as u) : M.execFrom s as = some u := by
  induction h with
  | nil _ => rfl
  | cons _ hs _ ih => exact (execFrom_cons hs).trans ih

theorem final (h : M.Through Q s as u) : Q u := by
  induction h with
  | nil hq => exact hq
  | cons _ _ _ ih => exact ih

theorem append (h : M.Through Q s as t) (h' : M.Through Q t bs u) : M.Through Q s (as ++ bs) u := by
  induction h with
  | nil _ => exact h'
  | cons hq hs _ ih => exact .cons hq hs (ih h')

theorem mono (hQ : ∀ v, Q v → R v) (h : M.Through Q s as u) : M.Through R s as u := by
  induction h with
  | nil hq => exact .nil (hQ _ hq)
  | cons hq hs _ ih => exact .cons (hQ _ hq) hs ih

theorem of_invariant {A : α → Prop} (hI : ∀ s a s', A a → Q s → M.step s a = some s' → Q s') (h0 : Q s)
    (hA : ∀ a ∈ as, A a) (h : M.execFrom s as = some u) : M.Through Q s as u := by
  induction as generalizing s with
  | nil => cases h; exact .nil h0
  | cons a as ih =>
    obtain ⟨t, ht, hr⟩ := execFrom_cons_some h
    exact .cons h0 ht (ih (hI _ _ _ (hA a (List.mem_cons_self ..)) h0 ht) (fun b hb => hA b (List.mem_cons_of_mem _ hb)) hr)

theorem take (h : M.Through Q s as u) (i : Nat) : ∃ t, M.execFrom s (as.take i) = some t ∧ Q t := by
  induction h generalizing i with
  | nil hq => exact ⟨_, by rw [List.take_nil]; rfl, hq⟩
  | @cons s t u a as hq hs _ ih =>
    cases i with
    | zero => exact ⟨s, rfl, hq⟩
    | succ i =>
      obtain ⟨v, hv, hqv⟩ := ih i
      exact ⟨v, (execFrom_cons hs).trans hv, hqv⟩

end Through

/-! ## Histories -/

/-- The machine that also keeps what each step emits, oldest first. -/
def logged (M : Machine σ α) (emit : σ → α → List ε) : Machine (σ × List ε) α where
  start := (M.start, [])
  step := fun s a => (M.step s.1 a).map fun s' => (s', s.2 ++ emit s.1 a)

theorem logged_step {M : Machine σ α} {emit : σ → α → List ε} {s s' : σ × List ε} {a : α} :
    (M.logged emit).step s a = some s' ↔ M.step s.1 a = some s'.1 ∧ s'.2 = s.2 ++ emit s.1 a := by
  simp only [logged, Option.map_eq_some_iff]
  constructor
  · rintro ⟨t, ht, rfl⟩; exact ⟨ht, rfl⟩
  · rintro ⟨ht, hl⟩; exact ⟨s'.1, ht, by rw [← hl]⟩

theorem logged_reachable {M : Machine σ α} {emit : σ → α → List ε} {s : σ × List ε}
    (h : (M.logged emit).Reachable s) : M.Reachable s.1 := by
  induction h with
  | start => exact .start
  | step _ hs ih => exact .step ih (logged_step.mp hs).1

theorem reachable_logged {M : Machine σ α} (emit : σ → α → List ε) {s : σ} (h : M.Reachable s) :
    ∃ l, (M.logged emit).Reachable (s, l) := by
  induction h with
  | start => exact ⟨[], .start⟩
  | @step s s' a _ hs ih =>
    obtain ⟨l, hl⟩ := ih
    exact ⟨l ++ emit s a, .step hl (logged_step.mpr ⟨hs, rfl⟩)⟩

theorem logged_exec {M : Machine σ α} (emit : σ → α → List ε) {s s' : σ} {as : List α} (l : List ε)
    (h : M.execFrom s as = some s') : ∃ l', (M.logged emit).execFrom (s, l) as = some (s', l') := by
  induction as generalizing s l with
  | nil => cases h; exact ⟨l, rfl⟩
  | cons a as ih =>
    obtain ⟨t, ht, hr⟩ := execFrom_cons_some h
    obtain ⟨l', hl'⟩ := ih (l ++ emit s a) hr
    have hs : (M.logged emit).step (s, l) a = some (t, l ++ emit s a) := logged_step.mpr ⟨ht, rfl⟩
    exact ⟨l', (execFrom_cons hs).trans hl'⟩

theorem Through.logged {M : Machine σ α} (emit : σ → α → List ε) {Q : σ → Prop} {s u : σ} {as : List α} (l : List ε)
    (h : M.Through Q s as u) : ∃ l', (M.logged emit).Through (fun x => Q x.1) (s, l) as (u, l') := by
  induction h generalizing l with
  | nil hq => exact ⟨l, .nil hq⟩
  | @cons s t u a as hq hs _ ih =>
    obtain ⟨l', hl'⟩ := ih (l ++ emit s a)
    exact ⟨l', .cons hq (logged_step.mpr ⟨hs, rfl⟩) hl'⟩

end Machine

/-! ## Runs -/

/-- An execution of `n` steps: the states `0 … n` and the labels between them. -/
structure Run {σ α : Type} (M : Machine σ α) (n : Nat) where
  st : Nat → σ
  lab : Nat → α
  start : st 0 = M.start
  step : ∀ i, i < n → M.step (st i) (lab i) = some (st (i + 1))

namespace Run

variable {σ α : Type} {M : Machine σ α} {n : Nat} (r : Run M n)

theorem reachable (i : Nat) (hi : i ≤ n) : M.Reachable (r.st i) := by
  induction i with
  | zero => rw [r.start]; exact .start
  | succ i ih => exact .step (ih (by omega)) (r.step i (by omega))

theorem crossing (Q : σ → Prop) {a b : Nat} (hab : a ≤ b) (ha : ¬ Q (r.st a)) (hb : Q (r.st b)) :
    ∃ j, a ≤ j ∧ j < b ∧ ¬ Q (r.st j) ∧ Q (r.st (j + 1)) := by
  induction hab with
  | refl => exact absurd hb ha
  | @step b hab ih =>
    have hab := Nat.le_of_lt_succ (Nat.lt_succ_of_le hab)
    by_cases h : Q (r.st b)
    · obtain ⟨j, h1, h2, h3⟩ := ih h
      exact ⟨j, h1, by omega, h3⟩
    · exact ⟨b, hab, by omega, h, hb⟩

theorem persists (Q : σ → Prop) {a b : Nat} (hab : a ≤ b)
    (hs : ∀ j, a ≤ j → j < b → Q (r.st j) → Q (r.st (j + 1))) (ha : Q (r.st a)) : Q (r.st b) := by
  induction hab with
  | refl => exact ha
  | @step b hab ih => exact hs b hab (by omega) (ih fun j h1 h2 => hs j h1 (by omega))

theorem log_prefix {ε : Type} {emit : σ → α → List ε} (r : Run (M.logged emit) n) {i j : Nat} (hij : i ≤ j) (hj : j ≤ n) :
    (r.st i).2 <+: (r.st j).2 := by
  refine r.persists (fun s => (r.st i).2 <+: s.2) hij (fun k _ hk hp => ?_) (List.prefix_refl _)
  rw [(Machine.logged_step.mp (r.step k (Nat.lt_of_lt_of_le hk hj))).2]
  exact hp.trans (List.prefix_append _ _)

/-- The run of another machine under the same labels, when one step of it follows each step of this one. -/
theorem lift {τ : Type} {N : Machine τ α} {f : τ → σ} (I : Nat → τ → Prop) (h0 : f N.start = M.start) (hI : I 0 N.start)
    (hs : ∀ i y, i < n → I i y → r.st i = f y → ∃ y', N.step y (r.lab i) = some y' ∧ r.st (i + 1) = f y' ∧ I (i + 1) y') :
    ∃ r' : Run N n, r'.lab = r.lab ∧ ∀ i, i ≤ n → r.st i = f (r'.st i) ∧ I i (r'.st i) := by
  let st : Nat → τ := fun i => Nat.rec N.start (fun j y => (N.step y (r.lab j)).getD y) i
  have next : ∀ i y', N.step (st i) (r.lab i) = some y' → st (i + 1) = y' := fun i y' h => by
    show (N.step (st i) (r.lab i)).getD (st i) = y'
    rw [h]
    rfl
  have follows : ∀ i, i ≤ n → r.st i = f (st i) ∧ I i (st i) := by
    intro i
    induction i with
    | zero => exact fun _ => ⟨r.start.trans h0.symm, hI⟩
    | succ i ih =>
      intro hi
      obtain ⟨h1, h2⟩ := ih (by omega)
      obtain ⟨y', hy, h3, h4⟩ := hs i (st i) (by omega) h2 h1
      rw [next i y' hy]
      exact ⟨h3, h4⟩
  refine ⟨⟨st, r.lab, rfl, fun i hi => ?_⟩, rfl, follows⟩
  obtain ⟨h1, h2⟩ := follows i (by omega)
  obtain ⟨y', hy, -⟩ := hs i (st i) hi h2 h1
  rw [next i y' hy]
  exact hy

def count (p : σ → α → Bool) (a b : Nat) : Nat := (List.range' a (b - a)).countP fun j => p (r.st j) (r.lab j)

theorem count_self (p : σ → α → Bool) (a : Nat) : r.count p a a = 0 := by
  unfold count
  rw [Nat.sub_self]
  rfl

theorem count_succ (p : σ → α → Bool) {a b : Nat} (h : a ≤ b) :
    r.count p a (b + 1) = r.count p a b + if p (r.st b) (r.lab b) = true then 1 else 0 := by
  unfold count
  rw [Nat.succ_sub h, List.range'_1_concat, List.countP_append, List.countP_singleton, Nat.add_sub_cancel' h]

def ofExec (M : Machine σ α) (a₀ : α) (as : List α) (h : (M.exec as).isSome) : Run M as.length where
  st i := (M.exec (as.take i)).getD M.start
  lab i := as.getD i a₀
  start := rfl
  step i hi := by
    have hsplit : as = as.take i ++ as[i] :: as.drop (i + 1) := by
      rw [← List.drop_eq_getElem_cons hi, List.take_append_drop]
    obtain ⟨t, ht⟩ := Option.isSome_iff_exists.mp h
    unfold Machine.exec at *
    rw [hsplit, Machine.execFrom_append, Option.bind_eq_some_iff] at ht
    obtain ⟨u, hu, hr⟩ := ht
    obtain ⟨v, hv, -⟩ := Machine.execFrom_cons_some hr
    have hnext : M.execFrom M.start (as.take (i + 1)) = some v := by
      rw [List.take_succ_eq_append_getElem hi, Machine.execFrom_append, hu]
      simp only [Option.bind_some, Machine.execFrom, hv]
    rw [hu, hnext]
    simpa [hi] using hv

theorem ofExec_st {a₀ : α} {as : List α} (h : (M.exec as).isSome) {i : Nat} {s : σ} (hs : M.exec (as.take i) = some s) :
    (ofExec M a₀ as h).st i = s := by
  show (M.exec (as.take i)).getD M.start = s
  rw [hs]
  rfl

theorem ofExec_through {a₀ : α} {Q : σ → Prop} {before during after : List α} {s u : σ} (hs : M.exec before = some s)
    (ht : M.Through Q s during u) (h : (M.exec (before ++ (during ++ after))).isSome) {i : Nat} (h1 : before.length ≤ i)
    (h2 : i ≤ before.length + during.length) : Q ((ofExec M a₀ _ h).st i) := by
  obtain ⟨t, htake, hq⟩ := ht.take (i - before.length)
  have hlist : (before ++ (during ++ after)).take i = before ++ during.take (i - before.length) := by
    rw [List.take_append, List.take_of_length_le h1, List.take_append_of_le_length (by omega)]
  have hst : M.exec ((before ++ (during ++ after)).take i) = some t := by
    unfold Machine.exec at hs ⊢
    rw [hlist, Machine.execFrom_append, hs]
    exact htake
  rw [ofExec_st h hst]
  exact hq

end Run

end Interleave
