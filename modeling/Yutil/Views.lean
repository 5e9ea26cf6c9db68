import Yutil.Machine
import Mathlib.Order.Lattice
import Mathlib.Order.Nat
import Mathlib.Data.Sum.Basic

/-!
# Release and acquire

The stores to an atomic have one order, but a load may answer with any of them
that is not older than what its thread has seen. A release store carries what
its thread has seen by then, an acquire load of it hands that on, and so do the
updates that follow the store. An access to a plain location races unless its
thread has seen every access before it. A program runs on such a memory, or on
one where every step sees the last store; the second runs are some of the first.
-/

namespace Interleave

/-- How many of the stores to each atomic and of the accesses to each plain location have been seen. -/
abbrev View (A L : Type) := A ⊕ L → Nat

inductive Action {A : Type} (V : A → Type) (L X σ : Type)
  | load (acquire : Bool) (a : A) (next : V a → σ)
  | store (release : Bool) (a : A) (value : V a) (next : σ)
  | update (release : Bool) (a : A) (f : V a → Option (V a)) (done failed : V a → σ)
  | access (l : L) (f : X → X) (next : X → σ)

/-- Threads with their own states: `env` is what happens to a thread from outside, `act` its next access. -/
structure Program {A : Type} (Tid : Type) (V : A → Type) (L X σ ε μ : Type) where
  initial : ∀ a, V a
  blank : X
  start : Tid → σ
  env : Tid → ε → σ → Option σ
  act : Tid → μ → σ → Option (Action V L X σ)

inductive Program.Label (Tid ε μ : Type)
  | env (t : Tid) (e : ε)
  | move (t : Tid) (m : μ)
  deriving DecidableEq, Repr

/-! ## Every step sees the last store -/

section
variable {A Tid L X σ ε μ : Type} {V : A → Type} [DecidableEq A] [DecidableEq L] [DecidableEq Tid]

structure Shared {A : Type} (V : A → Type) (L X : Type) where
  value : ∀ a, V a
  plain : L → X

def Shared.run {τ : Type} (m : Shared V L X) : Action V L X τ → Shared V L X × τ
  | .load _ a next => (m, next (m.value a))
  | .store _ a value next => ({ m with value := Function.update m.value a value }, next)
  | .update _ a f done failed =>
    match f (m.value a) with
    | some value => ({ m with value := Function.update m.value a value }, done (m.value a))
    | none => (m, failed (m.value a))
  | .access l f next => ({ m with plain := Function.update m.plain l (f (m.plain l)) }, next (m.plain l))

namespace Program

structure Interleaved {A : Type} (Tid : Type) (V : A → Type) (L X σ : Type) where
  mem : Shared V L X
  pc : Tid → σ

def interleaved (P : Program Tid V L X σ ε μ) : Machine (Interleaved Tid V L X σ) (Label Tid ε μ) where
  start := ⟨⟨P.initial, fun _ => P.blank⟩, P.start⟩
  step s
    | .env t e => (P.env t e (s.pc t)).map fun f => { s with pc := Function.update s.pc t f }
    | .move t m => (P.act t m (s.pc t)).map fun x => ⟨(s.mem.run x).1, Function.update s.pc t (s.mem.run x).2⟩

end Program

end

/-! ## The memory of views -/

structure Message (A L V : Type) where
  value : V
  view : View A L

/-- The stores to each atomic, from the initial one to that number `last`, and
how often each plain location was accessed. -/
structure Memory {A : Type} (V : A → Type) (L X : Type) where
  stores : ∀ a, Nat → Message A L (V a)
  last : A → Nat
  plain : L → X
  accesses : L → Nat

namespace Memory

variable {A L X τ : Type} {V : A → Type}

def top (m : Memory V L X) : View A L := Sum.elim m.last m.accesses

@[simp] theorem top_inl (m : Memory V L X) (a : A) : m.top (.inl a) = m.last a := rfl
@[simp] theorem top_inr (m : Memory V L X) (l : L) : m.top (.inr l) = m.accesses l := rfl

def latest (m : Memory V L X) : Shared V L X := ⟨fun a => (m.stores a (m.last a)).value, m.plain⟩

/-- No race: a plain location whose accesses have all been seen, or an atomic
whose last store has been seen, so that a store to it goes behind the others. -/
def Ordered (m : Memory V L X) (v : View A L) : Action V L X τ → Prop
  | .store _ a _ _ => m.last a ≤ v (.inl a)
  | .access l _ _ => m.accesses l ≤ v (.inr l)
  | _ => True

section
variable [DecidableEq A]

def seeing (L : Type) (a : A) (i : Nat) : View A L := Sum.elim (Function.update ⊥ a i) ⊥

def append (m : Memory V L X) (a : A) (value : V a) (view : View A L) : Memory V L X :=
  { m with
    stores := Function.update m.stores a (Function.update (m.stores a) (m.last a + 1) ⟨value, view⟩)
    last := Function.update m.last a (m.last a + 1) }

def loaded (m : Memory V L X) (v : View A L) (acquire : Bool) (a : A) (i : Nat) : View A L :=
  v ⊔ seeing L a i ⊔ if acquire then (m.stores a i).view else ⊥

def stored (m : Memory V L X) (v : View A L) (a : A) : View A L := v ⊔ seeing L a (m.last a + 1)

def carried (m : Memory V L X) (v : View A L) (release : Bool) (a : A) : View A L :=
  if release then m.stored v a else seeing L a (m.last a + 1)

@[simp] theorem seeing_self (a : A) (i : Nat) : seeing L a i (.inl a) = i := Function.update_self ..

theorem seeing_ne {a b : A} (h : b ≠ a) (i : Nat) : seeing L a i (.inl b) = 0 := Function.update_of_ne h ..

@[simp] theorem seeing_inr (a : A) (i : Nat) (l : L) : seeing L a i (.inr l) = 0 := rfl

variable (m : Memory V L X) (a : A) (x : V a) (w : View A L)

@[simp] theorem append_plain : (m.append a x w).plain = m.plain := rfl
@[simp] theorem append_accesses : (m.append a x w).accesses = m.accesses := rfl
@[simp] theorem append_last : (m.append a x w).last a = m.last a + 1 := Function.update_self ..

theorem append_last_ne {b : A} (h : b ≠ a) : (m.append a x w).last b = m.last b := Function.update_of_ne h ..

@[simp] theorem append_stores : (m.append a x w).stores a (m.last a + 1) = ⟨x, w⟩ := by
  simp [append]

theorem append_stores_ne {b : A} (h : b ≠ a) : (m.append a x w).stores b = m.stores b := Function.update_of_ne h ..

theorem append_stores_old {b : A} {j : Nat} (hj : j ≤ m.last b) : (m.append a x w).stores b j = m.stores b j := by
  by_cases hb : b = a
  · subst hb
    simp only [append, Function.update_self]
    rw [Function.update_of_ne (by omega)]
  · simp only [append, Function.update_of_ne hb]

theorem append_latest : (m.append a x w).latest = { m.latest with value := Function.update m.latest.value a x } := by
  have h : (fun b => ((m.append a x w).stores b ((m.append a x w).last b)).value) = Function.update m.latest.value a x := by
    funext b
    by_cases hb : b = a
    · subst hb
      rw [append_last, append_stores, Function.update_self]
    · rw [append_last_ne m a x w hb, append_stores_old m a x w (Nat.le_refl _), Function.update_of_ne hb]
      rfl
  exact congrArg (fun value => Shared.mk value m.plain) h

end

section
variable [DecidableEq L]

def touch (m : Memory V L X) (l : L) (x : X) : Memory V L X :=
  { m with
    plain := Function.update m.plain l x
    accesses := Function.update m.accesses l (m.accesses l + 1) }

def touched (m : Memory V L X) (v : View A L) (l : L) : View A L :=
  Sum.elim (fun a => v (.inl a)) (Function.update (fun k => v (.inr k)) l (m.accesses l + 1))

variable (m : Memory V L X) (l : L) (x : X)

@[simp] theorem touch_stores : (m.touch l x).stores = m.stores := rfl
@[simp] theorem touch_last : (m.touch l x).last = m.last := rfl
@[simp] theorem touch_plain : (m.touch l x).plain = Function.update m.plain l x := rfl
@[simp] theorem touch_accesses : (m.touch l x).accesses l = m.accesses l + 1 := Function.update_self ..

theorem touch_accesses_ne {k : L} (h : k ≠ l) : (m.touch l x).accesses k = m.accesses k := Function.update_of_ne h ..

omit x in
@[simp] theorem touched_self (v : View A L) : m.touched v l (.inr l) = m.accesses l + 1 := by
  simp [touched]

omit x in
theorem touched_ne (v : View A L) {k : L} (h : k ≠ l) : m.touched v l (.inr k) = v (.inr k) := by
  simp [touched, Function.update_of_ne h]

end

variable [DecidableEq A] [DecidableEq L]

/-- An access of a thread with view `v` that reads the store number `i`, if it
reads. An update that writes does so right behind the store it reads. -/
def run (m : Memory V L X) (v : View A L) (i : Nat) : Action V L X τ → Option (Memory V L X × View A L × τ)
  | .load acquire a next =>
    if v (.inl a) ≤ i ∧ i ≤ m.last a then some (m, m.loaded v acquire a i, next (m.stores a i).value) else none
  | .store release a value next => some (m.append a value (m.carried v release a), m.stored v a, next)
  | .update release a f done failed =>
    if v (.inl a) ≤ i ∧ i ≤ m.last a then
      match f (m.stores a i).value with
      | some value =>
        if i = m.last a then
          some (m.append a value ((m.stores a i).view ⊔ m.carried v release a), m.stored v a, done (m.stores a i).value)
        else none
      | none => some (m, m.loaded v false a i, failed (m.stores a i).value)
    else none
  | .access l f next => some (m.touch l (f (m.plain l)), m.touched v l, next (m.plain l))

inductive Runs (m : Memory V L X) (v : View A L) (i : Nat) : Action V L X τ → Memory V L X → View A L → τ → Prop
  | load {acquire : Bool} {a : A} {next : V a → τ} : v (.inl a) ≤ i → i ≤ m.last a →
      Runs m v i (.load acquire a next) m (m.loaded v acquire a i) (next (m.stores a i).value)
  | store {release : Bool} {a : A} {value : V a} {next : τ} :
      Runs m v i (.store release a value next) (m.append a value (m.carried v release a)) (m.stored v a) next
  | wrote {release : Bool} {a : A} {f : V a → Option (V a)} {done failed : V a → τ} {value : V a} :
      v (.inl a) ≤ m.last a → f (m.stores a (m.last a)).value = some value → i = m.last a →
      Runs m v i (.update release a f done failed)
        (m.append a value ((m.stores a (m.last a)).view ⊔ m.carried v release a)) (m.stored v a)
        (done (m.stores a (m.last a)).value)
  | failed {release : Bool} {a : A} {f : V a → Option (V a)} {done failed : V a → τ} : v (.inl a) ≤ i → i ≤ m.last a →
      f (m.stores a i).value = none →
      Runs m v i (.update release a f done failed) m (m.loaded v false a i) (failed (m.stores a i).value)
  | access {l : L} {f : X → X} {next : X → τ} :
      Runs m v i (.access l f next) (m.touch l (f (m.plain l))) (m.touched v l) (next (m.plain l))

variable {m m' : Memory V L X} {v v' : View A L} {i : Nat} {x : Action V L X τ} {f : τ}

theorem run_spec (h : m.run v i x = some (m', v', f)) : m.Runs v i x m' v' f := by
  cases x with
  | load acquire a next =>
    simp only [run] at h
    split at h <;> cases h
    rename_i hi
    exact .load hi.1 hi.2
  | store release a value next => cases h; exact .store
  | update release a g done failed =>
    simp only [run] at h
    split at h
    · rename_i hi
      split at h
      · rename_i value hg
        split at h <;> cases h
        rename_i he
        subst he
        exact .wrote hi.1 hg rfl
      · rename_i hg
        cases h
        exact .failed hi.1 hi.2 hg
    · cases h
  | access l g next => cases h; exact .access

/-- An access that sees the last store is one of the interleaved memory. -/
theorem run_latest (hv : v ≤ m.top) (x : Action V L X τ) : ∃ i m' v', m.run v i x = some (m', v', (m.latest.run x).2) ∧
    m'.latest = (m.latest.run x).1 := by
  cases x with
  | load acquire a next =>
    refine ⟨m.last a, m, m.loaded v acquire a (m.last a), ?_, rfl⟩
    rw [run, if_pos ⟨hv (.inl a), Nat.le_refl _⟩]
    rfl
  | store release a value next => exact ⟨0, _, _, rfl, append_latest ..⟩
  | update release a g done failed =>
    have hi : v (.inl a) ≤ m.last a ∧ m.last a ≤ m.last a := ⟨hv (.inl a), Nat.le_refl _⟩
    cases hg : g (m.stores a (m.last a)).value with
    | some value =>
      have hrun : m.latest.run (.update release a g done failed) =
          ({ m.latest with value := Function.update m.latest.value a value }, done (m.stores a (m.last a)).value) := by
        simp only [Shared.run, latest, hg]
      rw [hrun]
      refine ⟨m.last a, m.append a value ((m.stores a (m.last a)).view ⊔ m.carried v release a), m.stored v a, ?_,
        append_latest ..⟩
      simp only [run, if_pos hi, hg, if_true]
    | none =>
      have hrun : m.latest.run (.update release a g done failed) = (m.latest, failed (m.stores a (m.last a)).value) := by
        simp only [Shared.run, latest, hg]
      rw [hrun]
      refine ⟨m.last a, m, m.loaded v false a (m.last a), ?_, rfl⟩
      simp only [run, if_pos hi, hg]
  | access l g next => exact ⟨0, _, _, rfl, rfl⟩

/-! ## Views stay within what there is to see -/

/-- No message knows more than there is, and none more of its own atomic than itself. -/
structure Wf (m : Memory V L X) : Prop where
  le : ∀ a i, i ≤ m.last a → (m.stores a i).view ≤ m.top
  own : ∀ a i, i ≤ m.last a → (m.stores a i).view (.inl a) ≤ i

omit [DecidableEq L] in
theorem loaded_self (hw : m.Wf) {a : A} (h1 : v (.inl a) ≤ i) (h2 : i ≤ m.last a) (acquire : Bool) :
    m.loaded v acquire a i (.inl a) = i := by
  have hself : m.loaded v acquire a i (.inl a) = max (max (v (.inl a)) i) ((if acquire then (m.stores a i).view else ⊥) (.inl a)) := by
    show max (max _ (seeing L a i (.inl a))) _ = _
    rw [seeing_self]
  have hown := hw.own a i h2
  rw [hself]
  cases acquire with
  | true => simp only [if_true]; omega
  | false => simp; omega

omit [DecidableEq L] in
theorem loaded_le (hw : m.Wf) (hv : v ≤ m.top) {a : A} (hi : i ≤ m.last a) (acquire : Bool) : m.loaded v acquire a i ≤ m.top := by
  refine sup_le (sup_le hv ?_) ?_
  · rintro (b | l)
    · by_cases hb : b = a
      · subst hb
        rwa [seeing_self]
      · rw [seeing_ne hb]
        exact Nat.zero_le _
    · exact Nat.zero_le _
  · cases acquire with
    | true => exact hw.le a i hi
    | false => exact bot_le

omit [DecidableEq L] in
theorem top_append (a : A) (value : V a) (w : View A L) : m.top ⊔ seeing L a (m.last a + 1) = (m.append a value w).top := by
  funext y
  rcases y with b | l
  · by_cases hb : b = a
    · subst hb
      show max (m.last b) (seeing L b _ (.inl b)) = _
      rw [seeing_self, top_inl, append_last]
      omega
    · show max (m.last b) (seeing L a _ (.inl b)) = _
      rw [seeing_ne hb, top_inl, append_last_ne _ _ _ _ hb]
      omega
  · exact Nat.max_eq_left (Nat.zero_le _)

omit [DecidableEq A] in
theorem top_touch (l : L) (y : X) : m.touched m.top l = (m.touch l y).top := by
  funext k
  rcases k with a | k
  · rfl
  · rfl

theorem Runs.top_le (h : m.Runs v i x m' v' f) : m.top ≤ m'.top := by
  cases h with
  | store => rw [← top_append]; exact le_sup_left
  | wrote _ _ _ => rw [← top_append]; exact le_sup_left
  | @access l g next =>
    rintro (a | k)
    · exact Nat.le_refl _
    · by_cases hk : k = l
      · subst hk
        rw [top_inr, top_inr, touch_accesses]
        exact Nat.le_succ _
      · rw [top_inr, top_inr, touch_accesses_ne _ _ _ hk]
  | _ => exact le_refl _

theorem Runs.view_le (h : m.Runs v i x m' v' f) (hv : v ≤ m.top) : v ≤ v' := by
  cases h with
  | store => exact le_sup_left
  | wrote _ _ _ => exact le_sup_left
  | @access l g next =>
    rintro (a | k)
    · exact Nat.le_refl _
    · by_cases hk : k = l
      · subst hk
        rw [touched_self]
        exact Nat.le_succ_of_le (hv (.inr k))
      · rw [touched_ne _ _ _ hk]
  | _ => exact le_sup_left.trans le_sup_left

omit [DecidableEq L] in
theorem stored_self (hv : v ≤ m.top) (a : A) : m.stored v a (.inl a) = m.last a + 1 := by
  show max (v (.inl a)) (seeing L a _ (.inl a)) = _
  have hle : v (.inl a) ≤ m.last a := hv (.inl a)
  rw [seeing_self]
  exact Nat.max_eq_right (by omega)

omit [DecidableEq L] in
theorem stored_ne {a b : A} (hb : b ≠ a) : m.stored v a (.inl b) = v (.inl b) := by
  show max (v (.inl b)) (seeing L a _ (.inl b)) = _
  rw [seeing_ne hb]
  exact Nat.max_eq_left (Nat.zero_le _)

theorem Runs.seen (h : m.Runs v i x m' v' f) (hv : v ≤ m.top) (y : A ⊕ L) : m'.top y = m.top y ∨ m'.top y = v' y := by
  have appended : ∀ (a : A) (value : V a) (w : View A L),
      (m.append a value w).top y = m.top y ∨ (m.append a value w).top y = m.stored v a y := by
    intro a value w
    rcases y with b | l
    · by_cases hb : b = a
      · subst hb
        exact .inr (by rw [stored_self hv, top_inl, append_last])
      · exact .inl (append_last_ne _ _ _ _ hb)
    · exact .inl rfl
  cases h with
  | store => exact appended _ _ _
  | wrote _ _ _ => exact appended _ _ _
  | @access l g next =>
    rcases y with a | k
    · exact .inl rfl
    · by_cases hk : k = l
      · subst hk
        refine .inr ?_
        rw [top_inr, touch_accesses, touched_self]
      · exact .inl (touch_accesses_ne _ _ _ hk)
  | _ => exact .inl rfl

omit [DecidableEq L] in
theorem Wf.append (hw : m.Wf) {a : A} {value : V a} {w : View A L} (h1 : w ≤ (m.append a value w).top)
    (h2 : w (.inl a) ≤ m.last a + 1) : (m.append a value w).Wf := by
  have hle : m.top ≤ (m.append a value w).top := by rw [← top_append]; exact le_sup_left
  have split : ∀ b j, j ≤ (m.append a value w).last b → j ≤ m.last b ∨ b = a ∧ j = m.last b + 1 := by
    intro b j hj
    by_cases hb : b = a
    · subst hb
      rw [append_last] at hj
      exact (Nat.le_succ_iff.mp hj).imp_right fun hj => ⟨rfl, hj⟩
    · rw [append_last_ne _ _ _ _ hb] at hj
      exact .inl hj
  constructor
  · intro b j hj
    rcases split b j hj with hj | ⟨rfl, rfl⟩
    · rw [append_stores_old _ _ _ _ hj]
      exact (hw.le b j hj).trans hle
    · rw [append_stores]
      exact h1
  · intro b j hj
    rcases split b j hj with hj | ⟨rfl, rfl⟩
    · rw [append_stores_old _ _ _ _ hj]
      exact hw.own b j hj
    · rw [append_stores]
      exact h2

theorem Runs.wf (h : m.Runs v i x m' v' f) (hw : m.Wf) (hv : v ≤ m.top) : m'.Wf ∧ v' ≤ m'.top := by
  have hstored : ∀ (a : A) (value : V a) (w : View A L), m.stored v a ≤ (m.append a value w).top := by
    intro a value w
    rw [← top_append]
    exact sup_le_sup_right hv _
  have hcarried : ∀ (release : Bool) (a : A), m.carried v release a ≤ m.stored v a := by
    intro release a
    cases release with
    | true => exact le_refl _
    | false => exact le_sup_right
  cases h with
  | load _ hi => exact ⟨hw, loaded_le hw hv hi _⟩
  | failed _ hi _ => exact ⟨hw, loaded_le hw hv hi _⟩
  | @store release a value _ =>
    exact ⟨hw.append ((hcarried release a).trans (hstored a value _))
      ((hcarried release a (.inl a)).trans (Nat.le_of_eq (stored_self hv a))), hstored a value _⟩
  | @wrote release a _ _ _ value _ _ _ =>
    have hold := hw.le a (m.last a) (Nat.le_refl _)
    refine ⟨hw.append (sup_le ?_ ((hcarried release a).trans (hstored a value _))) (Nat.max_le.mpr ⟨?_, ?_⟩), hstored a value _⟩
    · rw [← top_append]
      exact hold.trans le_sup_left
    · exact Nat.le_succ_of_le (hw.own a (m.last a) (Nat.le_refl _))
    · exact (hcarried release a (.inl a)).trans (Nat.le_of_eq (stored_self hv a))
  | @access l g _ =>
    have haccess : m.Runs v i (.access l g fun _ => ()) (m.touch l (g (m.plain l))) (m.touched v l) () := .access
    have hle := haccess.top_le
    refine ⟨⟨fun a j hj => (hw.le a j hj).trans hle, hw.own⟩, ?_⟩
    rw [← top_touch]
    rintro (a | k)
    · exact hv (.inl a)
    · by_cases hk : k = l
      · subst hk
        rw [touched_self, touched_self]
      · rw [touched_ne _ _ _ hk, touched_ne _ _ _ hk]
        exact hv (.inr k)

omit [DecidableEq L] in
theorem loaded_seen {a : A} (h : v (.inl a) = i) : m.loaded v false a i = v := by
  have hsee : seeing L a i ≤ v := by
    rintro (b | l)
    · by_cases hb : b = a
      · subst hb
        rw [seeing_self, h]
      · rw [seeing_ne hb]
        exact Nat.zero_le _
    · exact Nat.zero_le _
  show v ⊔ seeing L a i ⊔ ⊥ = v
  rw [sup_eq_left.mpr hsee, sup_eq_left.mpr bot_le]

/-! ## Handing a plain location over -/

def Knows (m : Memory V L X) (v : View A L) (l : L) : Prop := m.accesses l ≤ v (.inr l)

/-- To have seen every access to `l`, as every store behind the number `n` has. -/
structure Hands (m : Memory V L X) (v : View A L) (a : A) (n : Nat) (l : L) : Prop where
  knows : m.Knows v l
  carried : ∀ j, n < j → j ≤ m.last a → m.Knows (m.stores a j).view l

variable {a b : A} {n : Nat} {l k : L}

omit [DecidableEq A] [DecidableEq L] in
theorem Knows.mono (h : m.Knows v l) (hle : v ≤ v') : m.Knows v' l := h.trans (hle (.inr l))

omit [DecidableEq A] in
theorem Knows.touched (y : X) : (m.touch l y).Knows (m.touched v l) l := by
  unfold Knows
  rw [touch_accesses, touched_self]

omit [DecidableEq A] in
theorem Knows.touch (h : m.Knows v k) (hne : k ≠ l) (y : X) : (m.touch l y).Knows v k := by
  unfold Knows
  rw [touch_accesses_ne _ _ _ hne]
  exact h

omit [DecidableEq A] in
theorem Knows.other (h : m.Knows v k) (hne : k ≠ l) (y : X) : (m.touch l y).Knows (m.touched v l) k := by
  unfold Knows
  rw [touch_accesses_ne _ _ _ hne, touched_ne _ _ _ hne]
  exact h

omit [DecidableEq A] in
theorem Hands.touch (h : m.Hands v a n k) (hne : k ≠ l) (y : X) : (m.touch l y).Hands v a n k :=
  ⟨h.knows.touch hne y, fun j h1 h2 => (h.carried j h1 h2).touch hne y⟩

omit [DecidableEq A] in
theorem Hands.other (h : m.Hands v a n k) (hne : k ≠ l) (y : X) : (m.touch l y).Hands (m.touched v l) a n k :=
  ⟨h.knows.other hne y, fun j h1 h2 => (h.carried j h1 h2).touch hne y⟩

omit [DecidableEq A] [DecidableEq L] in
theorem Hands.mono (h : m.Hands v a n l) (hle : v ≤ v') : m.Hands v' a n l := ⟨h.knows.mono hle, h.carried⟩

omit [DecidableEq L] in
/-- Who acquires a store behind the number has seen the accesses. -/
theorem Hands.acquired (h : m.Hands v a n l) (h1 : n < i) (h2 : i ≤ m.last a) (w : View A L) :
    m.Knows (m.loaded w true a i) l := (h.carried i h1 h2).mono le_sup_right

omit [DecidableEq L] in
theorem Hands.stored (h : m.Hands v a n l) (y : V a) :
    (m.append a y (m.carried v true a)).Hands (m.stored v a) a n l := by
  have hknows : m.Knows (m.stored v a) l := h.knows.mono le_sup_left
  refine ⟨hknows, fun j h1 h2 => ?_⟩
  by_cases hj : j ≤ m.last a
  · rw [append_stores_old _ _ _ _ hj]
    exact h.carried j h1 hj
  · rw [append_last] at h2
    obtain rfl : j = m.last a + 1 := by omega
    rw [append_stores]
    exact hknows

omit [DecidableEq L] in
theorem Knows.stored (h : m.Knows v l) (y : V a) :
    (m.append a y (m.carried v true a)).Hands (m.stored v a) a (m.last a) l := by
  refine Hands.stored ⟨h, fun j h1 h2 => ?_⟩ y
  omega

omit [DecidableEq L] in
theorem Hands.append (h : m.Hands v b n l) (hne : b ≠ a) (y : V a) (w : View A L) : (m.append a y w).Hands v b n l := by
  refine ⟨h.knows, fun j h1 h2 => ?_⟩
  rw [append_last_ne _ _ _ _ hne] at h2
  rw [append_stores_old _ _ _ _ h2]
  exact h.carried j h1 h2

/-! ## Two threads with a counter each

A thread stores its own counter only. It knows the slots of the positions from
there to where it has seen the other counter, `ahead` on, and its last stores
hand over the slots that the other thread has not yet seen it leave.
-/

structure Side (m : Memory V L X) (slot : Nat → L) (own other : A) (ahead : Nat) (v w : View A L) : Prop where
  seen : v (.inl own) = m.last own
  knows : ∀ k, m.last own ≤ k → k < v (.inl other) + ahead → m.Knows v (slot k)
  hands : ∀ k, w (.inl own) ≤ k → k < m.last own → m.Hands v own k (slot k)

variable {slot : Nat → L} {own other : A} {ahead behind : Nat} {w : View A L}

section
variable (h : m.Side slot own other ahead v w) (g : m.Side slot other own behind w v)

include h

omit [DecidableEq L] in
theorem Side.reads_own (h1 : v (.inl own) ≤ i) (h2 : i ≤ m.last own) : i = m.last own ∧ m.loaded v false own i = v := by
  have hi : i = m.last own := by
    have := h.seen
    omega
  exact ⟨hi, loaded_seen (h.seen.trans hi.symm)⟩

include g

omit [DecidableEq L] in
theorem Side.acquires (hw : m.Wf) (hv : v ≤ m.top) (hslot : ∀ k, slot (k + ahead) = slot k) (h1 : v (.inl other) ≤ i)
    (h2 : i ≤ m.last other) : m.Side slot own other ahead (m.loaded v true other i) w ∧
      m.Side slot other own behind w (m.loaded v true other i) := by
  have hle : v ≤ m.loaded v true other i := le_sup_left.trans le_sup_left
  have hself := loaded_self hw h1 h2 true
  refine ⟨⟨?_, fun k h3 h4 => ?_, fun k h3 h4 => (h.hands k h3 h4).mono hle⟩, ⟨g.seen, g.knows, fun k h3 h4 => ?_⟩⟩
  · refine Nat.le_antisymm (loaded_le hw hv h2 true (.inl own)) ?_
    rw [← h.seen]
    exact hle (.inl own)
  · rw [hself] at h4
    by_cases hk : k < v (.inl other) + ahead
    · exact (h.knows k h3 hk).mono hle
    · obtain ⟨n, rfl⟩ : ∃ n, k = n + ahead := ⟨k - ahead, by omega⟩
      rw [hslot]
      exact (g.hands n (by omega) (by omega)).acquired (by omega) h2 v
  · rw [hself] at h3
    exact g.hands k (h1.trans h3) h4

omit [DecidableEq A] in
theorem Side.touches (pos : Nat) (y : X)
    (hne : ∀ k, (m.last own ≤ k ∧ k < v (.inl other) + ahead ∨ w (.inl own) ≤ k ∧ k < m.last own ∨
      m.last other ≤ k ∧ k < w (.inl own) + behind ∨ v (.inl other) ≤ k ∧ k < m.last other) → k ≠ pos → slot k ≠ slot pos)
    (hpos : pos = m.last own) (hout : ∀ k, (m.last other ≤ k ∧ k < w (.inl own) + behind) ∨
      (v (.inl other) ≤ k ∧ k < m.last other) → k ≠ pos) :
    (m.touch (slot pos) y).Side slot own other ahead (m.touched v (slot pos)) w ∧
      (m.touch (slot pos) y).Side slot other own behind w (m.touched v (slot pos)) := by
  have hinl : ∀ a, m.touched v (slot pos) (.inl a) = v (.inl a) := fun _ => rfl
  refine ⟨⟨h.seen, fun k h3 h4 => ?_, fun k h3 h4 => ?_⟩, ⟨g.seen, fun k h3 h4 => ?_, fun k h3 h4 => ?_⟩⟩
  · by_cases hk : k = pos
    · rw [hk]
      exact Knows.touched y
    · exact (h.knows k h3 h4).other (hne k (.inl ⟨h3, h4⟩) hk) y
  · have h4 : k < m.last own := h4
    exact (h.hands k h3 h4).other (hne k (.inr (.inl ⟨h3, h4⟩)) (by omega)) y
  · exact (g.knows k h3 h4).touch (hne k (.inr (.inr (.inl ⟨h3, h4⟩))) (hout k (.inl ⟨h3, h4⟩))) y
  · exact (g.hands k h3 h4).touch (hne k (.inr (.inr (.inr ⟨h3, h4⟩))) (hout k (.inr ⟨h3, h4⟩))) y

omit [DecidableEq L] in
theorem Side.stores (hne : other ≠ own) (y : V own) (hv : v ≤ m.top) (hlt : m.last own < v (.inl other) + ahead) :
    (m.append own y (m.carried v true own)).Side slot own other ahead (m.stored v own) w ∧
      (m.append own y (m.carried v true own)).Side slot other own behind w (m.stored v own) := by
  have hle : v ≤ m.stored v own := le_sup_left
  have hother := stored_ne (m := m) (v := v) hne
  refine ⟨⟨?_, fun k h3 h4 => ?_, fun k h3 h4 => ?_⟩, ⟨?_, fun k h3 h4 => ?_, fun k h3 h4 => ?_⟩⟩
  · rw [stored_self hv, append_last]
  · rw [append_last] at h3
    rw [hother] at h4
    exact (h.knows k (by omega) h4).mono hle
  · rw [append_last] at h4
    by_cases hk : k = m.last own
    · rw [hk]
      exact (h.knows _ (Nat.le_refl _) hlt).stored y
    · exact (h.hands k h3 (by omega)).stored y
  · rw [append_last_ne _ _ _ _ hne]
    exact g.seen
  · rw [append_last_ne _ _ _ _ hne] at h3
    exact g.knows k h3 h4
  · rw [append_last_ne _ _ _ _ hne] at h4
    rw [hother] at h3
    exact (g.hands k h3 h4).append hne y _

end

end Memory

/-! ## Programs on a memory of views -/

namespace Program

structure Viewed {A : Type} (Tid : Type) (V : A → Type) (L X σ : Type) where
  mem : Memory V L X
  view : Tid → View A L
  pc : Tid → σ

variable {A Tid L X σ ε μ : Type} {V : A → Type} [DecidableEq A] [DecidableEq L] [DecidableEq Tid]
  (P : Program Tid V L X σ ε μ)

def viewed : Machine (Viewed Tid V L X σ) (Label Tid ε (μ × Nat)) where
  start := ⟨⟨fun a _ => ⟨P.initial a, ⊥⟩, fun _ => 0, fun _ => P.blank, fun _ => 0⟩, fun _ => ⊥, P.start⟩
  step s
    | .env t e => (P.env t e (s.pc t)).map fun f => { s with pc := Function.update s.pc t f }
    | .move t (m, i) =>
      (P.act t m (s.pc t)).bind fun x => (s.mem.run (s.view t) i x).map fun y =>
        ⟨y.1, Function.update s.view t y.2.1, Function.update s.pc t y.2.2⟩

inductive Steps (s : Viewed Tid V L X σ) : Label Tid ε (μ × Nat) → Viewed Tid V L X σ → Prop
  | env {t : Tid} {e : ε} {f : σ} : P.env t e (s.pc t) = some f →
      Steps s (.env t e) { s with pc := Function.update s.pc t f }
  | move {t : Tid} {m : μ} {i : Nat} {x : Action V L X σ} {mem : Memory V L X} {v : View A L} {f : σ} :
      P.act t m (s.pc t) = some x → s.mem.Runs (s.view t) i x mem v f →
      Steps s (.move t (m, i)) ⟨mem, Function.update s.view t v, Function.update s.pc t f⟩

variable {P} {s s' : Viewed Tid V L X σ} {a : Label Tid ε (μ × Nat)}

theorem step_spec (h : P.viewed.step s a = some s') : P.Steps s a s' := by
  cases a with
  | env t e =>
    obtain ⟨f, hf, rfl⟩ := Option.map_eq_some_iff.mp h
    exact .env hf
  | move t m =>
    obtain ⟨m, i⟩ := m
    obtain ⟨x, hx, h⟩ := Option.bind_eq_some_iff.mp h
    obtain ⟨y, hy, rfl⟩ := Option.map_eq_some_iff.mp h
    exact .move hx (Memory.run_spec hy)

namespace Viewed

structure Wf (s : Viewed Tid V L X σ) : Prop where
  mem : s.mem.Wf
  le : ∀ t, s.view t ≤ s.mem.top

theorem Wf.step (h : s.Wf) (hs : P.Steps s a s') : s'.Wf ∧ s.mem.top ≤ s'.mem.top ∧ ∀ t, s.view t ≤ s'.view t := by
  cases hs with
  | env _ => exact ⟨⟨h.mem, h.le⟩, le_refl _, fun _ => le_refl _⟩
  | @move t m i x mem v f _ hr =>
    obtain ⟨hmem, hv⟩ := hr.wf h.mem (h.le t)
    refine ⟨⟨hmem, fun u => ?_⟩, hr.top_le, fun u => ?_⟩
    · by_cases hu : u = t
      · subst hu
        simpa only [Function.update_self] using hv
      · simpa only [Function.update_of_ne hu] using (h.le u).trans hr.top_le
    · by_cases hu : u = t
      · subst hu
        simpa only [Function.update_self] using hr.view_le (h.le u)
      · simp only [Function.update_of_ne hu, le_refl]

theorem wf_reachable (h : P.viewed.Reachable s) : s.Wf := by
  refine h.invariant (I := Wf) ?_ fun s a s' _ hw hs => (hw.step (step_spec hs)).1
  exact ⟨⟨fun _ _ _ => bot_le, fun _ _ _ => Nat.zero_le _⟩, fun _ => bot_le⟩

/-- Whoever joins all threads has seen everything. -/
theorem joined (h : P.viewed.Reachable s) {w : View A L} (hw : ∀ t, s.view t ≤ w) : s.mem.top ≤ w := by
  have known : ∀ y, s.mem.top y = 0 ∨ ∃ t, s.mem.top y ≤ s.view t y := by
    refine h.invariant (I := fun s => ∀ y, s.mem.top y = 0 ∨ ∃ t, s.mem.top y ≤ s.view t y) ?_ ?_
    · rintro (a | l) <;> exact .inl rfl
    · intro s a s' hr hI hs y
      obtain ⟨-, -, hmono⟩ := (wf_reachable hr).step (step_spec hs)
      have same : s'.mem.top y = s.mem.top y → s'.mem.top y = 0 ∨ ∃ t, s'.mem.top y ≤ s'.view t y := by
        intro he
        rw [he]
        exact (hI y).imp_right fun ⟨t, ht⟩ => ⟨t, ht.trans (hmono t y)⟩
      cases step_spec hs with
      | env _ => exact same rfl
      | @move t m i x mem v f _ hx =>
        rcases hx.seen ((wf_reachable hr).le t) y with he | he
        · exact same he
        · exact .inr ⟨t, Nat.le_of_eq (he.trans (congrFun (Function.update_self t v s.view) y).symm)⟩
  intro y
  rcases known y with h0 | ⟨t, ht⟩
  · rw [h0]
    exact Nat.zero_le _
  · exact ht.trans (hw t y)

def RaceFree (P : Program Tid V L X σ ε μ) (s : Viewed Tid V L X σ) : Prop :=
  ∀ t m x, P.act t m (s.pc t) = some x → s.mem.Ordered (s.view t) x

def latest (s : Viewed Tid V L X σ) : Interleaved Tid V L X σ := ⟨s.mem.latest, s.pc⟩

end Viewed

/-- An access that does as in the interleaved memory is a step there. -/
theorem Viewed.move_latest {t : Tid} {m : μ} {x : Action V L X σ} {mem : Memory V L X} {v : View A L} {f : σ}
    (hx : P.act t m (s.pc t) = some x) (hrun : s.mem.latest.run x = (mem.latest, f)) :
    P.interleaved.step s.latest (.move t m) =
      some (latest ⟨mem, Function.update s.view t v, Function.update s.pc t f⟩) := by
  have hx : P.act t m (s.latest.pc t) = some x := hx
  have hrun : s.latest.mem.run x = (mem.latest, f) := hrun
  simp only [interleaved, hx, Option.map_some, hrun]
  rfl

theorem Viewed.env_latest {t : Tid} {e : ε} {f : σ} (he : P.env t e (s.pc t) = some f) :
    P.interleaved.step s.latest (.env t e) = some (latest { s with pc := Function.update s.pc t f }) := by
  have he : P.env t e (s.latest.pc t) = some f := he
  simp only [interleaved, he, Option.map_some]
  rfl

def Label.forget : Label Tid ε (μ × Nat) → Label Tid ε μ
  | .env t e => .env t e
  | .move t m => .move t m.1

/-- The runs that always see the last store are those of the interleaved memory. -/
theorem of_interleaved {τ : Type} (emit : Interleaved Tid V L X σ → Label Tid ε μ → List τ) {y : Interleaved Tid V L X σ}
    {log : List τ} (h : (P.interleaved.logged emit).Reachable (y, log)) :
    ∃ s, (P.viewed.logged fun s a => emit s.latest a.forget).Reachable (s, log) ∧ s.latest = y := by
  obtain ⟨x, hx, h1, h2⟩ := h.simulation (N := P.viewed.logged fun s a => emit s.latest a.forget)
    (R := fun y x => x.1.latest = y.1 ∧ x.2 = y.2) ⟨rfl, rfl⟩ (by
      rintro ⟨y, log⟩ a ⟨y', log'⟩ ⟨s, _⟩ hy hs ⟨rfl, rfl⟩ hstep
      obtain ⟨hstep, hlog⟩ := Machine.logged_step.mp hstep
      suffices h : ∃ b s', b.forget = a ∧ P.viewed.step s b = some s' ∧ s'.latest = y' by
        obtain ⟨b, s', hb, hs', hy'⟩ := h
        exact ⟨[b], (s', log'), Machine.execFrom_cons (Machine.logged_step.mpr ⟨hs', by rw [hlog, ← hb]⟩), hy', rfl⟩
      cases a with
      | env t e =>
        obtain ⟨f, hf, rfl⟩ := Option.map_eq_some_iff.mp hstep
        have hf : P.env t e (s.pc t) = some f := hf
        refine ⟨.env t e, { s with pc := Function.update s.pc t f }, rfl, ?_, rfl⟩
        simp only [viewed, hf, Option.map_some]
      | move t m =>
        obtain ⟨x, hx, rfl⟩ := Option.map_eq_some_iff.mp hstep
        obtain ⟨i, mem, v, hrun, hmem⟩ := Memory.run_latest ((Viewed.wf_reachable (Machine.logged_reachable hs)).le t) x
        have hx : P.act t m (s.pc t) = some x := hx
        refine ⟨.move t (m, i), ⟨mem, Function.update s.view t v, Function.update s.pc t (s.mem.latest.run x).2⟩, rfl, ?_, ?_⟩
        · simp only [viewed, hx, hrun, Option.map_some, Option.bind_some]
        · exact congrArg (fun mem => Interleaved.mk mem _) hmem)
  obtain ⟨s, log'⟩ := x
  obtain rfl : log' = log := h2
  exact ⟨s, hx, h1⟩

end Program

end Interleave
