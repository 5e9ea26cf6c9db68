import Yutil.Machine
import Mathlib.Order.RelClasses

/-!
# Fair schedules

A schedule is fair when every thread has a turn again and again. It brings a
program to its end when every state waits for some thread whose turn brings it
nearer, and the turns of the others leave it as near and waiting for the same.
-/

namespace Interleave

variable {Tid S R : Type} [LT R]

def Fair (turns : Nat → Tid) : Prop := ∀ t n, ∃ m, n ≤ m ∧ turns m = t

/-- A turn of `t` brings the program nearer, or it is not the turn that was waited for. -/
def Nears (rank : S → R) (waits : S → Tid) (t : Tid) (s s' : S) : Prop :=
  rank s' < rank s ∨ t ≠ waits s ∧ rank s' = rank s ∧ waits s' = waits s

variable {turns : Nat → Tid} {st : Nat → S} {rank : S → R} {waits : S → Tid} {done : S → Prop}

theorem nearer_by (hstep : ∀ n, ¬ done (st n) → Nears rank waits (turns n) (st n) (st (n + 1))) (hdone : ∀ n, ¬ done (st n))
    {n m : Nat} (hle : n ≤ m) :
    (∃ k, n ≤ k ∧ k ≤ m ∧ rank (st k) < rank (st n)) ∨ rank (st m) = rank (st n) ∧ waits (st m) = waits (st n) := by
  induction hle with
  | refl => exact .inr ⟨rfl, rfl⟩
  | @step m hle ih =>
    rcases ih with ⟨k, h1, h2, h3⟩ | ⟨h1, h2⟩
    · exact .inl ⟨k, h1, Nat.le_succ_of_le h2, h3⟩
    · rcases hstep m (hdone m) with h | ⟨-, h3, h4⟩
      · exact .inl ⟨m + 1, Nat.le_succ_of_le hle, Nat.le_refl _, h1 ▸ h⟩
      · exact .inr ⟨h3.trans h1, h4.trans h2⟩

/-- **The rule of fair schedules.** -/
theorem Fair.ends [WellFoundedLT R] (hfair : Fair turns) (hstep : ∀ n, ¬ done (st n) → Nears rank waits (turns n) (st n) (st (n + 1))) :
    ∃ n, done (st n) := by
  by_contra hnever
  have hdone : ∀ n, ¬ done (st n) := fun n hn => hnever ⟨n, hn⟩
  -- every state has a nearer one after it
  have nearer : ∀ n, ∃ k, rank (st k) < rank (st n) := by
    intro n
    obtain ⟨m, hm, hturn⟩ := hfair (waits (st n)) n
    rcases nearer_by hstep hdone hm with ⟨k, -, -, hk⟩ | ⟨h1, h2⟩
    · exact ⟨k, hk⟩
    · rcases hstep m (hdone m) with h | ⟨hne, -, -⟩
      · exact ⟨m + 1, h1 ▸ h⟩
      · exact absurd (hturn.trans h2.symm) hne
  have none : ∀ r n, rank (st n) = r → False := by
    intro r
    induction r using WellFoundedLT.induction with
    | ind r ih =>
      intro n hn
      obtain ⟨k, hk⟩ := nearer n
      exact ih (rank (st k)) (hn ▸ hk) k rfl
  exact none _ 0 rfl

/-! ## Machines -/

section
variable {σ α : Type} {M : Machine σ α} {thread : α → Tid}

def Machine.Follows (M : Machine σ α) (thread : α → Tid) (turns : Nat → Tid) (st : Nat → σ) : Prop :=
  st 0 = M.start ∧ ∀ n, (∃ a, thread a = turns n ∧ M.step (st n) a = some (st (n + 1))) ∨
    (∀ a, thread a = turns n → M.step (st n) a = none) ∧ st (n + 1) = st n

/-- What brings a machine to its end on every fair schedule. -/
structure Machine.Ending (M : Machine σ α) (thread : α → Tid) (done : σ → Prop) (rank : σ → R) (waits : σ → Tid) : Prop where
  moves : ∀ {s}, M.Reachable s → ¬ done s → ∃ a s', thread a = waits s ∧ M.step s a = some s'
  nears : ∀ {s a s'}, M.Reachable s → ¬ done s → M.step s a = some s' → Nears rank waits (thread a) s s'

theorem Machine.follows_exists (M : Machine σ α) (thread : α → Tid) (turns : Nat → Tid) : ∃ st, M.Follows thread turns st := by
  have next : ∀ n s, ∃ s', (∃ a, thread a = turns n ∧ M.step s a = some s') ∨
      (∀ a, thread a = turns n → M.step s a = none) ∧ s' = s := by
    intro n s
    by_cases h : ∃ a s', thread a = turns n ∧ M.step s a = some s'
    · obtain ⟨a, s', ha⟩ := h
      exact ⟨s', .inl ⟨a, ha⟩⟩
    · refine ⟨s, .inr ⟨fun a ha => ?_, rfl⟩⟩
      by_contra hs
      obtain ⟨s', hs⟩ := Option.ne_none_iff_exists'.mp hs
      exact h ⟨a, s', ha, hs⟩
  choose f hf using next
  exact ⟨fun n => Nat.rec M.start f n, rfl, fun n => hf n _⟩

theorem Machine.Follows.reachable {turns : Nat → Tid} {st : Nat → σ} (h : M.Follows thread turns st) (n : Nat) :
    M.Reachable (st n) := by
  induction n with
  | zero =>
    rw [h.1]
    exact .start
  | succ n ih =>
    rcases h.2 n with ⟨a, -, hs⟩ | ⟨-, hs⟩
    · exact .step ih hs
    · rw [hs]
      exact ih

theorem Machine.Follows.stays {turns : Nat → Tid} {st : Nat → σ} (h : M.Follows thread turns st) {n : Nat}
    (hn : ∀ a, M.step (st n) a = none) {m : Nat} (hm : n ≤ m) : st m = st n := by
  induction hm with
  | refl => rfl
  | @step m _ ih =>
    rcases h.2 m with ⟨a, -, hs⟩ | ⟨-, hs⟩
    · rw [ih, hn a] at hs
      cases hs
    · exact hs.trans ih

theorem Machine.Ending.ends [WellFoundedLT R] {done : σ → Prop} {rank : σ → R} {waits : σ → Tid}
    (h : M.Ending thread done rank waits) {turns : Nat → Tid} {st : Nat → σ} (hfair : Fair turns)
    (hst : M.Follows thread turns st) : ∃ n, done (st n) := by
  refine @Fair.ends Tid σ R _ turns st rank waits done _ hfair fun n hn => ?_
  rcases hst.2 n with ⟨a, ha, hs⟩ | ⟨hnone, hs⟩
  · rw [← ha]
    exact h.nears (hst.reachable n) hn hs
  · -- the thread that is waited for would have moved
    refine .inr ⟨fun hturn => ?_, by rw [hs], by rw [hs]⟩
    obtain ⟨a, s', ha, hs'⟩ := h.moves (hst.reachable n) hn
    rw [hnone a (ha.trans hturn.symm)] at hs'
    cases hs'

end

end Interleave
