import Yutil.Linear
import Yutil.Turns

/-!
# Linearizability

A history shows the calls and replies of the threads. It is linearizable when
some sequential history of the same calls is legal, gives every thread the
replies that it got, and keeps two calls in their order when one was answered
before the other was made. A run whose calls take effect once, in a legal
order, has such a history: the one of its effects.
-/

namespace Interleave

inductive External (Op R : Type)
  | call (op : Op)
  | reply (r : R)

section
variable {Tid X : Type} [DecidableEq Tid]

def entriesOf (t : Tid) (l : List (Tid × X)) : List X := l.filterMap fun x => if x.1 = t then some x.2 else none

theorem entriesOf_append (t : Tid) (l₁ l₂ : List (Tid × X)) :
    entriesOf t (l₁ ++ l₂) = entriesOf t l₁ ++ entriesOf t l₂ := List.filterMap_append

theorem entriesOf_self (t : Tid) (x : X) : entriesOf t [(t, x)] = [x] := by simp [entriesOf]

theorem entriesOf_ne {t u : Tid} (h : u ≠ t) (x : X) : entriesOf t [(u, x)] = [] := by simp [entriesOf, h]

theorem length_entriesOf_le (t : Tid) {l₁ l₂ : List (Tid × X)} (h : l₁ <+: l₂) : (entriesOf t l₁).length ≤ (entriesOf t l₂).length := by
  obtain ⟨l, rfl⟩ := h
  rw [entriesOf_append, List.length_append]
  exact Nat.le_add_right ..

end

section
variable {Op R : Type}

/-- What a thread sees, its calls with their answers, and where it is. A call
that has no reply yet may already have its answer. -/
inductive Answered : List (External Op R) → List (Op × R) → Stage Op R → Prop
  | nil : Answered [] [] .idle
  | call {h : List (External Op R)} {s : List (Op × R)} (op : Op) : Answered h s .idle → Answered (h ++ [.call op]) s (.called op)
  | answer {h : List (External Op R)} {s : List (Op × R)} {op : Op} (r : R) : Answered h s (.called op) →
      Answered h (s ++ [(op, r)]) (.owed r)
  | reply {h : List (External Op R)} {s : List (Op × R)} {r : R} : Answered h s (.owed r) → Answered (h ++ [.reply r]) s .idle

def External.isCall : External Op R → Bool
  | .call _ => true
  | .reply _ => false

def External.isReply : External Op R → Bool
  | .call _ => false
  | .reply _ => true

theorem Answered.count {h : List (External Op R)} {s : List (Op × R)} {g : Stage Op R} (ha : Answered h s g) :
    h.countP External.isReply ≤ s.length ∧ s.length ≤ h.countP External.isCall := by
  have hexact : match g with
      | .idle => h.countP External.isReply = s.length ∧ s.length = h.countP External.isCall
      | .called _ => h.countP External.isReply = s.length ∧ s.length + 1 = h.countP External.isCall
      | .owed _ => h.countP External.isReply + 1 = s.length ∧ s.length = h.countP External.isCall := by
    induction ha with
    | nil => exact ⟨rfl, rfl⟩
    | call op _ ih => simpa [External.isReply, External.isCall] using ih
    | answer r _ ih => simpa using ih
    | reply _ ih => simpa [External.isReply, External.isCall] using ih
  cases g with
  | idle => exact ⟨Nat.le_of_eq hexact.1, Nat.le_of_eq hexact.2⟩
  | called op => exact ⟨Nat.le_of_eq hexact.1, Nat.le_of_succ_le (Nat.le_of_eq hexact.2)⟩
  | owed r => exact ⟨Nat.le_of_succ_le (Nat.le_of_eq hexact.1), Nat.le_of_eq hexact.2⟩

end

/-! ## Histories -/

section
variable {Tid Op R S : Type}

/-- A sequential history of the object with the operations `allows`. -/
inductive Serial (allows : S → Op → R → S → Prop) : S → List (Tid × Op × R) → S → Prop
  | nil {f : S} : Serial allows f [] f
  | cons {f g h : S} {t : Tid} {op : Op} {r : R} {s : List (Tid × Op × R)} : allows f op r g → Serial allows g s h →
      Serial allows f ((t, op, r) :: s) h

variable [DecidableEq Tid]

def calls (t : Tid) (h : List (Tid × External Op R)) : Nat := (entriesOf t h).countP External.isCall

def replies (t : Tid) (h : List (Tid × External Op R)) : Nat := (entriesOf t h).countP External.isReply

/-- Call `i` of thread `t` is answered before thread `u` makes its call `j`. -/
def Precedes (h : List (Tid × External Op R)) (t : Tid) (i : Nat) (u : Tid) (j : Nat) : Prop :=
  ∃ before after, h = before ++ after ∧ i < replies t before ∧ calls u before ≤ j

def Ordered (s : List (Tid × Op × R)) (t : Tid) (i : Nat) (u : Tid) (j : Nat) : Prop :=
  ∀ before after, s = before ++ after → j < (entriesOf u before).length → i < (entriesOf t before).length

structure Linearizes (allows : S → Op → R → S → Prop) (start : S) (h : List (Tid × External Op R))
    (s : List (Tid × Op × R)) : Prop where
  legal : ∃ f, Serial allows start s f
  answers : ∀ t, ∃ g, Answered (entriesOf t h) (entriesOf t s) g
  order : ∀ t i u j, Precedes h t i u j → Ordered s t i u j

def Linearizable (allows : S → Op → R → S → Prop) (start : S) (h : List (Tid × External Op R)) : Prop :=
  ∃ s, Linearizes allows start h s

end

/-! ## From effects to histories -/

section
variable {Tid Op Ev R S : Type}

def Moment.external : Moment Op Ev R → Option (External Op R)
  | .call op => some (.call op)
  | .effect _ => none
  | .reply r => some (.reply r)

def visible (log : List (Tid × Moment Op Ev R)) : List (Tid × External Op R) :=
  log.filterMap fun m => m.2.external.map (m.1, ·)

theorem visible_append (l₁ l₂ : List (Tid × Moment Op Ev R)) : visible (l₁ ++ l₂) = visible l₁ ++ visible l₂ :=
  List.filterMap_append

theorem mem_visible [DecidableEq Tid] {log : List (Tid × Moment Op Ev R)} {t : Tid} {op : Op}
    (h : .call op ∈ entriesOf t (visible log)) : (t, .call op) ∈ log := by
  obtain ⟨x, hx, ht⟩ := List.mem_filterMap.mp h
  obtain ⟨m, hm, hv⟩ := List.mem_filterMap.mp hx
  obtain ⟨a, ha, rfl⟩ := Option.map_eq_some_iff.mp hv
  split at ht
  · rename_i he
    cases ht
    obtain ⟨u, m⟩ := m
    cases m <;> cases ha
    exact he ▸ hm
  · cases ht

def Effected (answers : Op → Ev → R → Prop) (x : Tid × Op × R) (e : Tid × Ev) : Prop := x.1 = e.1 ∧ answers x.2.1 e.2 x.2.2

variable [DecidableEq Tid]

/-- Each part of a history goes with a part of the sequential one, which has
the calls that were answered and none that were not made. -/
def Paced (h : List (Tid × External Op R)) (s : List (Tid × Op × R)) : Prop :=
  ∀ before, before <+: h → ∃ first, first <+: s ∧
    ∀ t, replies t before ≤ (entriesOf t first).length ∧ (entriesOf t first).length ≤ calls t before

theorem Paced.order {h : List (Tid × External Op R)} {s : List (Tid × Op × R)} (hp : Paced h s) {t u : Tid} {i j : Nat}
    (hprec : Precedes h t i u j) : Ordered s t i u j := by
  obtain ⟨before, after, rfl, hi, hj⟩ := hprec
  obtain ⟨first, hfirst, hcount⟩ := hp before (List.prefix_append ..)
  intro before' after' hs hj'
  rcases List.prefix_or_prefix_of_prefix hfirst ⟨after', hs.symm⟩ with hle | hle
  · exact Nat.lt_of_lt_of_le hi (Nat.le_trans (hcount t).1 (length_entriesOf_le t hle))
  · have := length_entriesOf_le u hle
    have := (hcount u).2
    omega

theorem Paced.grow {h h' : List (Tid × External Op R)} {s s' : List (Tid × Op × R)} (hp : Paced h s) (hs : s <+: s')
    (hh : ∀ before, before <+: h' → before <+: h ∨ before = h')
    (ha : ∀ t, ∃ g, Answered (entriesOf t h') (entriesOf t s') g) : Paced h' s' := by
  intro before hbefore
  rcases hh before hbefore with hb | rfl
  · obtain ⟨first, hfirst, hcount⟩ := hp before hb
    exact ⟨first, hfirst.trans hs, hcount⟩
  · refine ⟨s', List.prefix_rfl, fun t => ?_⟩
    obtain ⟨g, hg⟩ := ha t
    exact hg.count

theorem prefix_snoc {X : Type} {l before : List X} {x : X} (h : before <+: l ++ [x]) : before <+: l ∨ before = l ++ [x] := by
  rcases List.prefix_concat_iff.mp h with h | h
  · exact .inr h
  · exact .inl h

variable {answers : Op → Ev → R → Prop}

theorem serialize {log : List (Tid × Moment Op Ev R)} {stage : Tid → Stage Op R}
    (hl : ∀ t, Advances answers .idle (momentsOf t log) (stage t)) :
    ∃ s, List.Forall₂ (Effected answers) s (effects log) ∧
      (∀ t, Answered (entriesOf t (visible log)) (entriesOf t s) (stage t)) ∧ Paced (visible log) s := by
  induction log using List.reverseRecOn generalizing stage with
  | nil =>
    have hidle : ∀ t, stage t = .idle := by
      intro t
      have ht := hl t
      generalize stage t = g at ht
      cases ht
      rfl
    refine ⟨[], .nil, fun t => hidle t ▸ .nil, fun before hb => ⟨[], List.prefix_rfl, fun t => ?_⟩⟩
    rw [List.prefix_nil.mp hb]
    exact ⟨Nat.le_refl 0, Nat.le_refl 0⟩
  | append_singleton log x ih =>
    obtain ⟨t, m⟩ := x
    have hlast := hl t
    rw [momentsOf_append, momentsOf_self] at hlast
    obtain ⟨g, hbefore, hlast⟩ := hlast.split
    obtain ⟨s, hs, ha, hp⟩ := @ih (Function.update stage t g) (by
      intro u
      by_cases hu : u = t
      · subst hu
        rwa [Function.update_self]
      · have := hl u
        rw [momentsOf_append, momentsOf_ne hu, List.append_nil] at this
        rwa [Function.update_of_ne hu])
    have hself := ha t
    rw [Function.update_self] at hself
    -- the other threads see nothing
    have others : ∀ {h' : List (Tid × External Op R)} {s' : List (Tid × Op × R)},
        (∀ u, u ≠ t → entriesOf u h' = entriesOf u (visible log) ∧ entriesOf u s' = entriesOf u s) →
        Answered (entriesOf t h') (entriesOf t s') (stage t) → ∀ u, Answered (entriesOf u h') (entriesOf u s') (stage u) := by
      intro h' s' hother ht u
      by_cases hu : u = t
      · subst hu
        exact ht
      · have := ha u
        rw [Function.update_of_ne hu] at this
        rw [(hother u hu).1, (hother u hu).2]
        exact this
    have seen : ∀ a : External Op R, (∀ u, u ≠ t → entriesOf u (visible log ++ [(t, a)]) = entriesOf u (visible log)) ∧
        entriesOf t (visible log ++ [(t, a)]) = entriesOf t (visible log) ++ [a] := by
      intro a
      refine ⟨fun u hu => ?_, ?_⟩
      · rw [entriesOf_append, entriesOf_ne (Ne.symm hu), List.append_nil]
      · rw [entriesOf_append, entriesOf_self]
    rw [effects_append, visible_append]
    cases hlast with
    | @call op _ _ hrest =>
      have hstage : stage t = .called op := by
        generalize stage t = k at hrest
        cases hrest
        rfl
      have hall : ∀ u, Answered (entriesOf u (visible log ++ [(t, .call op)])) (entriesOf u s) (stage u) := by
        apply others fun u hu => ⟨(seen _).1 u hu, rfl⟩
        rw [(seen _).2, hstage]
        exact .call op hself
      refine ⟨s, ?_, hall, hp.grow List.prefix_rfl (fun _ => prefix_snoc) fun u => ⟨_, hall u⟩⟩
      rw [show effects [(t, (Moment.call op : Moment Op Ev R))] = [] from rfl, List.append_nil]
      exact hs
    | @effect op e r _ _ hans hrest =>
      have hstage : stage t = .owed r := by
        generalize stage t = k at hrest
        cases hrest
        rfl
      have hall : ∀ u, Answered (entriesOf u (visible log)) (entriesOf u (s ++ [(t, op, r)])) (stage u) := by
        apply others
        · intro u hu
          rw [entriesOf_append, entriesOf_ne (Ne.symm hu), List.append_nil]
          exact ⟨rfl, rfl⟩
        · rw [entriesOf_append, entriesOf_self, hstage]
          exact .answer r hself
      rw [show visible [(t, (Moment.effect e : Moment Op Ev R))] = [] from rfl, List.append_nil]
      refine ⟨s ++ [(t, op, r)], ?_, hall, hp.grow (List.prefix_append ..) (fun _ => .inl) fun u => ⟨_, hall u⟩⟩
      exact List.rel_append hs (.cons ⟨rfl, hans⟩ .nil)
    | @reply r _ _ hrest =>
      have hstage : stage t = .idle := by
        generalize stage t = k at hrest
        cases hrest
        rfl
      have hall : ∀ u, Answered (entriesOf u (visible log ++ [(t, .reply r)])) (entriesOf u s) (stage u) := by
        apply others fun u hu => ⟨(seen _).1 u hu, rfl⟩
        rw [(seen _).2, hstage]
        exact .reply hself
      refine ⟨s, ?_, hall, hp.grow List.prefix_rfl (fun _ => prefix_snoc) fun u => ⟨_, hall u⟩⟩
      rw [show effects [(t, (Moment.reply r : Moment Op Ev R))] = [] from rfl, List.append_nil]
      exact hs

/-- The rule of linearization points. -/
theorem Linearized.linearizable {legal : List (Tid × Ev) → Prop} {log : List (Tid × Moment Op Ev R)}
    {allows : S → Op → R → S → Prop} {start : S} (hl : Linearized answers legal log)
    (hlegal : ∀ s, legal (effects log) → List.Forall₂ (Effected answers) s (effects log) → ∃ f, Serial allows start s f) :
    Linearizable allows start (visible log) := by
  obtain ⟨stage, hstage⟩ := Classical.axiomOfChoice hl.each
  obtain ⟨s, hs, ha, hp⟩ := serialize hstage
  exact ⟨s, hlegal s hl.legal hs, fun t => ⟨_, ha t⟩, fun _ _ _ _ => hp.order⟩

end

/-! ## Calls that take effect with their answer -/

section
variable {Tid Op R S : Type} {allows : S → Op → R → S → Prop}

theorem Serial.append {f g h : S} {l₁ l₂ : List (Tid × Op × R)} (h₁ : Serial allows f l₁ g) (h₂ : Serial allows g l₂ h) :
    Serial allows f (l₁ ++ l₂) h := by
  induction h₁ with
  | nil => exact h₂
  | cons ha _ ih => exact .cons ha (ih h₂)

def Itself (op : Op) (e : Op × R) (r : R) : Prop := e = (op, r)

theorem effected_itself {s : List (Tid × Op × R)} {es : List (Tid × Op × R)} (h : List.Forall₂ (Effected Itself) s es) : s = es := by
  induction h with
  | nil => rfl
  | cons hx _ ih =>
    obtain ⟨h1, h2⟩ := hx
    rw [ih, Prod.ext h1 h2.symm]

variable [DecidableEq Tid]

theorem linearizable_of_effects {log : List (Tid × Moment Op (Op × R) R)} {start f : S}
    (each : ∀ t, ∃ g, Advances Itself .idle (momentsOf t log) g) (hlegal : Serial allows start (effects log) f) :
    Linearizable allows start (visible log) := by
  have hl : Linearized Itself (fun es => Serial allows start es f) log := ⟨each, hlegal⟩
  apply hl.linearizable
  intro s hlegal hs
  rw [effected_itself hs]
  exact ⟨f, hlegal⟩

end

/-! ## Monitors -/

def Doing.stage {Op R : Type} : Doing Op R → Stage Op R
  | .nothing => .idle
  | .calling op => .called op
  | .returning _ r => .owed r

namespace Monitor

variable {Tid D Op Cv R S : Type}

def moments (M : Monitor D Op Cv R) (s : State Tid D Op Cv R) (a : Label Tid Op) : List (Tid × Moment Op (Op × R) R) :=
  match a with
  | .call t op => [(t, .call op)]
  | .acquire t pick => (M.completes s (.acquire t pick)).map fun x => (x.1, .effect x.2)
  | .ret t =>
    match s.pc t with
    | .leaving _ _ r => [(t, .reply r)]
    | _ => []
  | _ => []

variable {M : Monitor D Op Cv R} {s s' : State Tid D Op Cv R} {t : Tid} {pick : Option Tid} {op : Op} {w : Bool}

theorem moments_ends {d : D} {held : Option (Notify Cv)} {later : List (Notify Cv)} {r : R}
    (hready : (s.pc t).ready = some (op, w)) (hx : M.sect op w s.data = .leave d held later r) :
    M.moments s (.acquire t pick) = [(t, .effect (op, r))] := by
  simp [moments, completes, hready, hx]

theorem moments_sleeps {d : D} {cv : Cv} (hready : (s.pc t).ready = some (op, w)) (hx : M.sect op w s.data = .sleep d cv) :
    M.moments s (.acquire t pick) = [] := by
  simp [moments, completes, hready, hx]

theorem moments_returns {r : R} (hpc : s.pc t = .leaving op [] r) : M.moments s (.ret t) = [(t, .reply r)] := by
  simp [moments, hpc]

variable [DecidableEq Tid] [Fintype Tid] [DecidableEq Cv] {calls : Tid → Op → Bool} {a : Label Tid Op}

def observed (M : Monitor D Op Cv R) (calls : Tid → Op → Bool) :
    Machine (State Tid D Op Cv R × List (Tid × Moment Op (Op × R) R)) (Label Tid Op) :=
  (M.machine calls).logged M.moments

theorem stage_step (hs : (M.machine calls).step s a = some s') (t : Tid) :
    Advances Itself (s.pc t).doing.stage (momentsOf t (M.moments s a)) (s'.pc t).doing.stage := by
  -- a moment of thread `u`
  have one : ∀ {u : Tid} {m : Moment Op (Op × R) R} {g : Doing Op R},
      (∀ v, (s'.pc v).doing = Function.update (fun x => (s.pc x).doing) u g v) →
      Advances Itself (s.pc u).doing.stage [m] g.stage →
      Advances Itself (s.pc t).doing.stage (momentsOf t [(u, m)]) (s'.pc t).doing.stage := by
    intro u m g hall hm
    rw [hall t]
    by_cases ht : t = u
    · subst ht
      rw [Function.update_self, momentsOf_self]
      exact hm
    · rw [Function.update_of_ne ht, momentsOf_ne ht]
      exact .nil
  have quiet : (∀ v, (s'.pc v).doing = (s.pc v).doing) → Advances Itself (s.pc t).doing.stage [] (s'.pc t).doing.stage := by
    intro hall
    rw [hall t]
    exact .nil
  cases (step_spec hs).turns with
  | calls hidle _ hall =>
    apply one hall
    rw [hidle]
    exact .call .nil
  | ends hready hx hall =>
    rw [moments_ends hready hx]
    apply one hall
    rw [ready_doing hready]
    exact .effect rfl .nil
  | returns hpc _ hall =>
    rw [moments_returns hpc]
    apply one hall
    rw [hpc]
    exact .reply .nil
  | sleeps hready hx hall =>
    rw [moments_sleeps hready hx]
    exact quiet hall
  | notifies _ hall => exact quiet hall
  | stirs _ hall => exact quiet hall

/-- **A monitor is linearizable at its sections**, when they do what the object
allows and its waits leave the object as it was. -/
theorem linearizable {allows : S → Op → R → S → Prop} {I : D → Prop} {f : D → S} (h0 : I M.start)
    (hsleep : ∀ {op w d d' cv}, I d → M.sect op w d = .sleep d' cv → I d' ∧ f d' = f d)
    (hleave : ∀ {op w d d' held later r}, I d → M.sect op w d = .leave d' held later r → I d' ∧ allows (f d) op r (f d'))
    {log : List (Tid × Moment Op (Op × R) R)} (hr : (M.observed calls).Reachable (s, log)) :
    Linearizable allows (f M.start) (visible log) := by
  have each : ∀ t, ∃ g, Advances Itself .idle (momentsOf t log) g := fun t =>
    ⟨_, advances_reachable (fun (s : State Tid D Op Cv R) t => (s.pc t).doing.stage) (fun _ => rfl)
      (fun _ _ _ t hs => stage_step hs t) hr t⟩
  have hserial : I s.data ∧ Serial allows (f M.start) (effects log) (f s.data) := by
    refine hr.invariant (I := fun x => I x.1.data ∧ Serial allows (f M.start) (effects x.2) (f x.1.data)) ⟨h0, .nil⟩ ?_
    intro x a x' _ hI hs
    obtain ⟨hinv, hserial⟩ := hI
    obtain ⟨hs, hlog⟩ := Machine.logged_step.mp hs
    rw [hlog, effects_append]
    have quiet : effects (M.moments x.1 a) = [] → x'.1.data = x.1.data →
        I x'.1.data ∧ Serial allows (f M.start) (effects x.2 ++ effects (M.moments x.1 a)) (f x'.1.data) := by
      intro he hd
      rw [he, hd, List.append_nil]
      exact ⟨hinv, hserial⟩
    cases (step_spec hs).turns with
    | calls _ hd _ => exact quiet rfl hd
    | ends hready hx _ =>
      obtain ⟨hinv', ha⟩ := hleave hinv hx
      rw [moments_ends hready hx]
      exact ⟨hinv', hserial.append (.cons ha .nil)⟩
    | returns hpc hd _ =>
      rw [moments_returns hpc] at quiet ⊢
      exact quiet rfl hd
    | sleeps hready hx _ =>
      obtain ⟨hinv', ha⟩ := hsleep hinv hx
      rw [moments_sleeps hready hx, ha]
      exact ⟨hinv', (List.append_nil _).symm ▸ hserial⟩
    | notifies hd _ => exact quiet rfl hd
    | stirs hd _ => exact quiet rfl hd
  exact linearizable_of_effects each hserial.2

end Monitor

end Interleave
