import Yutil.Monitor

/-!
# The broadcast rule

A sleeper whose wait is over is safe while somebody still owes everybody on
its condition variable a `notify_all`. `Awaited.step`: this is kept by
sections that leave the wait of every sleeper as it was, or owe such a
notification for what they change. A monitor that is closed for good
(`Closes`) is the main case: nobody goes to sleep in it any more, and who
still sleeps is owed a notification by the operation that closed it. A thread
that sleeps alone on its variable needs no more than a promised `notify_one`
(`Attended.step`).
-/

namespace Interleave.Monitor

variable {Tid D Op Cv R : Type} [DecidableEq Tid] [DecidableEq Cv] {M : Monitor D Op Cv R} {calls : Tid → Op → Bool}

def Owed (A : Op → Prop) (cv : Cv) (pc : Tid → Pc Op Cv R) : Prop :=
  ∃ t op todo r, A op ∧ pc t = .leaving op todo r ∧ .all cv ∈ todo

def Promised (A : Op → Prop) (n : Notify Cv) (pc : Tid → Pc Op Cv R) : Prop :=
  ∃ t op todo r, A op ∧ pc t = .leaving op todo r ∧ n ∈ todo

/-- What every sleeper waits for has not come, or everybody on its variable is about to be notified. -/
def Awaited (A : Op → Prop) (waits : Op → D → Prop) (s : State Tid D Op Cv R) : Prop :=
  ∀ t op cv, s.pc t = .asleep op cv → waits op s.data ∨ Owed A cv s.pc

/-! ## Sleepers and leaving threads along a step -/

section
variable {pc pc' : Tid → Pc Op Cv R} {u : Tid} {op : Op} {cv : Cv}

omit [DecidableEq Cv] in
theorem of_update {t : Tid} {p q : Pc Op Cv R} (h : Function.update pc t p u = q) (hp : p ≠ q) : pc u = q := by
  by_cases hut : u = t
  · subst hut
    rw [Function.update_self] at h
    exact absurd h hp
  · rwa [Function.update_of_ne hut] at h

theorem Delivers.sleeper {n : Notify Cv} (h : Delivers pc n pc') (hu : pc' u = .asleep op cv) :
    pc u = .asleep op cv ∧ n ≠ .all cv := by
  cases h with
  | wakes _ => exact ⟨of_update hu (by simp), by simp⟩
  | nobody _ => exact ⟨hu, by simp⟩
  | @everybody c =>
    simp only at hu
    cases hpc : pc u with
    | asleep op' c' =>
      rw [hpc, Pc.wake] at hu
      split at hu
      · cases hu
      · rename_i hne
        cases hu
        exact ⟨rfl, fun he => hne (Notify.all.inj he).symm⟩
    | _ => rw [hpc] at hu; cases hu

theorem DeliversHeld.sleeper {n : Option (Notify Cv)} (h : DeliversHeld pc n pc') (hu : pc' u = .asleep op cv) :
    pc u = .asleep op cv := by
  cases h with
  | none => exact hu
  | some hd => exact (hd.sleeper hu).1

theorem Delivers.leaving {n : Notify Cv} (h : Delivers pc n pc') {todo : List (Notify Cv)} {r : R}
    (hu : pc u = .leaving op todo r) : pc' u = .leaving op todo r :=
  (h.same fun c => by rw [hu]; rfl).trans hu

theorem Delivers.leaving_back {n : Notify Cv} (h : Delivers pc n pc') {todo : List (Notify Cv)} {r : R}
    (hu : pc' u = .leaving op todo r) : pc u = .leaving op todo r := by
  cases h with
  | wakes _ => exact of_update hu (by simp)
  | nobody _ => exact hu
  | @everybody c =>
    simp only at hu
    cases hpc : pc u with
    | asleep op' c' =>
      rw [hpc, Pc.wake] at hu
      split at hu <;> cases hu
    | _ => rw [hpc] at hu; exact hu

omit [DecidableEq Cv] in
theorem Promised.update {A : Op → Prop} {n : Notify Cv} (h : Promised A n pc) {t : Tid}
    (ht : ∀ op todo r, pc t = .leaving op todo r → n ∉ todo) (p : Pc Op Cv R) : Promised A n (Function.update pc t p) := by
  obtain ⟨u, op, todo, r, hA, hu, hm⟩ := h
  refine ⟨u, op, todo, r, hA, ?_, hm⟩
  have hut : u ≠ t := by
    intro hut
    subst hut
    exact ht _ _ _ hu hm
  rw [Function.update_of_ne hut, hu]

theorem Promised.delivers {A : Op → Prop} {m n : Notify Cv} (h : Promised A m pc) (hd : Delivers pc n pc') :
    Promised A m pc' := by
  obtain ⟨u, op, todo, r, hA, hu, hm⟩ := h
  exact ⟨u, op, todo, r, hA, hd.leaving hu, hm⟩

end

section
variable {s s' : State Tid D Op Cv R} {a : Label Tid Op} (hs : Steps M calls s a s')

include hs

theorem Steps.sleeper {u : Tid} {op : Op} {cv : Cv} (hu : s'.pc u = .asleep op cv) :
    s.pc u = .asleep op cv ∨
    ∃ w pick, a = .acquire u pick ∧ (s.pc u).ready = some (op, w) ∧ M.sect op w s.data = .sleep s'.data cv := by
  cases hs with
  | call _ _ => exact .inl (of_update hu (by simp))
  | @sleep t pick op' w d c hr hx =>
    by_cases hut : u = t
    · subst hut
      simp only [Function.update_self, Pc.asleep.injEq] at hu
      obtain ⟨rfl, rfl⟩ := hu
      exact .inr ⟨w, pick, rfl, hr, hx⟩
    · simp only [Function.update_of_ne hut] at hu
      exact .inl hu
  | leave _ _ hd => exact .inl (hd.sleeper (of_update hu (by simp)))
  | notify _ hd => exact .inl (hd.sleeper (of_update hu (by simp))).1
  | spurious _ => exact .inl (of_update hu (by simp))
  | ret _ => exact .inl (of_update hu (by simp))

theorem Steps.promised {A : Op → Prop} {n : Notify Cv} (h : Promised A n s.pc) :
    Promised A n s'.pc ∨ ∃ t p pc, Delivers s.pc n pc ∧ s'.pc = Function.update pc t p ∧ ∀ op cv, p ≠ .asleep op cv := by
  have quiet : ∀ {t : Tid} {p : Pc Op Cv R}, (∀ op todo r, s.pc t ≠ .leaving op todo r) →
      Promised A n (Function.update s.pc t p) := fun ht => h.update (fun _ _ _ he => absurd he (ht _ _ _)) _
  have ready : ∀ {t : Tid} {x : Op × Bool}, (s.pc t).ready = some x → ∀ op todo r, s.pc t ≠ .leaving op todo r := by
    intro t x hr op todo r he
    rw [he] at hr
    cases hr
  cases hs with
  | call hpc _ => exact .inl (quiet (by simp [hpc]))
  | sleep hr _ => exact .inl (quiet (ready hr))
  | @leave t pick op w d held later r pc hr hx hd =>
    refine .inl (Promised.update ?_ (fun op todo r he hm => ready hr op todo r ?_) _)
    · cases hd with
      | none => exact h
      | some hd => exact h.delivers hd
    · rw [← he, hd.same (ready_not_asleep hr)]
  | @notify t pick op m todo r pc hpc hd =>
    by_cases hn : m = n
    · subst hn
      exact .inr ⟨t, _, pc, hd, rfl, by simp⟩
    · obtain ⟨u, op', todo', r', hA, hu, hm⟩ := h
      by_cases hut : u = t
      · subst hut
        rw [hpc] at hu
        cases hu
        refine .inl ⟨u, op, todo, r, hA, Function.update_self .., ?_⟩
        rcases List.mem_cons.mp hm with hm | hm
        · exact absurd hm.symm hn
        · exact hm
      · refine .inl ⟨u, op', todo', r', hA, ?_, hm⟩
        simp only [Function.update_of_ne hut]
        exact hd.leaving hu
  | spurious hpc => exact .inl (quiet (by simp [hpc]))
  | ret hpc =>
    refine .inl (h.update (fun op todo r he => ?_) _)
    rw [hpc] at he
    cases he
    simp

/-- A `notify_all` is owed until it is made, and then nobody sleeps. -/
theorem Steps.owed {A : Op → Prop} {cv : Cv} (h : Owed A cv s.pc) :
    Owed A cv s'.pc ∨ ∀ u op, s'.pc u ≠ .asleep op cv := by
  rcases hs.promised (n := .all cv) h with h | ⟨t, p, pc, hd, he, hp⟩
  · exact .inl h
  · refine .inr fun u op hu => ?_
    rw [he] at hu
    exact (hd.sleeper (of_update hu (hp op cv))).2 rfl

/-- While one thread alone sleeps on `cv`, a promised `notify_one` stays promised as long as it sleeps. -/
theorem Steps.promised_lone {A : Op → Prop} {cv : Cv} (h : Promised A (.one cv) s.pc) {t : Tid} {op : Op}
    (hlone : ∀ u op', s.pc u = .asleep op' cv → u = t) (ht : s'.pc t = .asleep op cv) : Promised A (.one cv) s'.pc := by
  rcases hs.promised h with h | ⟨u, p, pc, hd, he, hp⟩
  · exact h
  · rw [he] at ht
    have ht := of_update ht (hp op cv)
    generalize hn : (Notify.one cv : Notify Cv) = n at hd
    cases hd with
    | @wakes c v op' hv =>
      cases hn
      obtain rfl := hlone v op' hv
      rw [Function.update_self] at ht
      cases ht
    | @nobody c hnobody =>
      cases hn
      have := hnobody t
      rw [ht] at this
      simp [Pc.sleepsOn] at this
    | everybody => cases hn

theorem Steps.data : s'.data = s.data ∨ ∃ t pick op w, a = .acquire t pick ∧ (s.pc t).ready = some (op, w) ∧
    ((∃ c, M.sect op w s.data = .sleep s'.data c ∧ s'.pc t = .asleep op c) ∨
      ∃ held later r, M.sect op w s.data = .leave s'.data held later r ∧ s'.pc t = .leaving op later r) := by
  cases hs with
  | @sleep t pick op w d c hr hx => exact .inr ⟨t, pick, op, w, rfl, hr, .inl ⟨c, hx, Function.update_self ..⟩⟩
  | @leave t pick op w d held later r pc hr hx hd =>
    exact .inr ⟨t, pick, op, w, rfl, hr, .inr ⟨held, later, r, hx, Function.update_self ..⟩⟩
  | _ => exact .inl rfl

/-- The broadcast rule. -/
theorem Awaited.step {A : Op → Prop} {waits : Op → D → Prop}
    (hsleep : ∀ t op w d c, (s.pc t).ready = some (op, w) → M.sect op w s.data = .sleep d c →
      waits op d ∧ ∀ op', waits op' s.data → waits op' d)
    (hleave : ∀ t op w d held later r u op' c, (s.pc t).ready = some (op, w) →
      M.sect op w s.data = .leave d held later r → s.pc u = .asleep op' c → waits op' s.data →
      waits op' d ∨ A op ∧ .all c ∈ later)
    (h : Awaited A waits s) : Awaited A waits s' := by
  intro u op cv hu
  rcases hs.sleeper hu with hu₀ | ⟨w, pick, -, hr, hx⟩
  · rcases h u op cv hu₀ with hw | hw
    · rcases hs.data with hd | ⟨t, pick, op', w, -, hr, ⟨c, hx, -⟩ | ⟨held, later, r, hx, ht⟩⟩
      · rw [hd]
        exact .inl hw
      · exact .inl ((hsleep t op' w _ c hr hx).2 op hw)
      · rcases hleave t op' w _ held later r u op cv hr hx hu₀ hw with hw | ⟨hA, hm⟩
        · exact .inl hw
        · exact .inr ⟨t, op', later, r, hA, ht, hm⟩
    · rcases hs.owed hw with hw | hw
      · exact .inr hw
      · exact absurd hu (hw u op)
  · exact .inl (hsleep u op w _ cv hr hx).1

end

/-! ## The lone sleeper -/

def Attended (A : Op → Prop) (cv : Cv) (waits : D → Prop) (s : State Tid D Op Cv R) : Prop :=
  ∀ t op, s.pc t = .asleep op cv → waits s.data ∨ Promised A (.one cv) s.pc

/-- One `notify_one` is enough where one thread sleeps. -/
theorem Attended.step {A : Op → Prop} {cv : Cv} {waits : D → Prop} {s s' : State Tid D Op Cv R} {a : Label Tid Op}
    (hs : Steps M calls s a s') (hlone : ∀ t u op op', s.pc t = .asleep op cv → s.pc u = .asleep op' cv → t = u)
    (hsleep : ∀ t op w d c, (s.pc t).ready = some (op, w) → M.sect op w s.data = .sleep d c → waits d)
    (hleave : ∀ t op w d held later r u op', (s.pc t).ready = some (op, w) →
      M.sect op w s.data = .leave d held later r → s.pc u = .asleep op' cv → waits s.data →
      waits d ∨ A op ∧ .one cv ∈ later)
    (h : Attended A cv waits s) : Attended A cv waits s' := by
  intro t op ht
  rcases hs.sleeper ht with hs₀ | ⟨w, pick, -, hr, hx⟩
  · rcases h t op hs₀ with hw | hp
    · rcases hs.data with hd | ⟨u, pick, op', w, -, hr, ⟨c, hx, -⟩ | ⟨held, later, r, hx, hu⟩⟩
      · rw [hd]
        exact .inl hw
      · exact .inl (hsleep u op' w _ c hr hx)
      · rcases hleave u op' w _ held later r t op hr hx hs₀ hw with hw | ⟨hA, hm⟩
        · exact .inl hw
        · exact .inr ⟨u, op', later, r, hA, hu, hm⟩
    · exact .inr (hs.promised_lone hp (fun u op' hu => hlone u t op' op hu hs₀) ht)
  · exact .inl (hsleep t op w _ cv hr hx)

/-! ## Closing -/

/-- `close` shuts the data for good and owes everybody who may sleep a
`notify_all`; no section of shut data goes to sleep. -/
structure Closes (M : Monitor D Op Cv R) (closed : D → Bool) (close : Op) : Prop where
  sleep : ∀ {op w d d' cv}, M.sect op w d = .sleep d' cv → closed d = false ∧ closed d' = false
  stays : ∀ {op w d d' held later r}, M.sect op w d = .leave d' held later r → closed d = true → closed d' = true
  only : ∀ {op w d d' held later r}, M.sect op w d = .leave d' held later r → closed d = false → closed d' = true →
    op = close
  shuts : ∀ {w d d' held later r}, M.sect close w d = .leave d' held later r → closed d' = true
  owes : ∀ {w d d' held later r}, M.sect close w d = .leave d' held later r →
    ∀ {op w₁ d₁ d₂ cv}, M.sect op w₁ d₁ = .sleep d₂ cv → .all cv ∈ later

theorem Steps.leaving {s s' : State Tid D Op Cv R} {a : Label Tid Op} (hs : Steps M calls s a s') {t : Tid} {op : Op}
    {todo : List (Notify Cv)} {r : R} (ht : s'.pc t = .leaving op todo r) :
    s.pc t = .leaving op todo r ∨
    (∃ n, s.pc t = .leaving op (n :: todo) r ∧ s'.data = s.data ∧
      ∀ cv, n = .all cv → ∀ u op', s'.pc u ≠ .asleep op' cv) ∨
    ∃ w held, (s.pc t).ready = some (op, w) ∧ M.sect op w s.data = .leave s'.data held todo r := by
  cases hs with
  | call _ _ => exact .inl (of_update ht (by simp))
  | sleep _ _ => exact .inl (of_update ht (by simp))
  | @leave u pick op' w d held later r' pc hr hx hd =>
    by_cases htu : t = u
    · subst htu
      simp only [Function.update_self, Pc.leaving.injEq] at ht
      obtain ⟨rfl, rfl, rfl⟩ := ht
      exact .inr (.inr ⟨w, held, hr, hx⟩)
    · simp only [Function.update_of_ne htu] at ht
      refine .inl ?_
      cases hd with
      | none => exact ht
      | some hd => exact hd.leaving_back ht
  | @notify u pick op' n todo' r' pc hpc hd =>
    by_cases htu : t = u
    · subst htu
      simp only [Function.update_self, Pc.leaving.injEq] at ht
      obtain ⟨rfl, rfl, rfl⟩ := ht
      refine .inr (.inl ⟨n, hpc, rfl, fun cv hn v op'' hv => ?_⟩)
      by_cases hvt : v = t
      · subst hvt
        simp only [Function.update_self, reduceCtorEq] at hv
      · simp only [Function.update_of_ne hvt] at hv
        exact (hd.sleeper hv).2 hn
    · simp only [Function.update_of_ne htu] at ht
      exact .inl (hd.leaving_back ht)
  | spurious _ => exact .inl (of_update ht (by simp))
  | ret _ => exact .inl (of_update ht (by simp))

namespace Closes

variable {closed : D → Bool} {close : Op}

theorem step_closed (h : Closes M closed close) {s s' : State Tid D Op Cv R} {a : Label Tid Op} (hs : Steps M calls s a s')
    (hc : closed s.data = true) : closed s'.data = true := by
  rcases hs.data with hd | ⟨t, pick, op, w, -, -, ⟨c, hx, -⟩ | ⟨held, later, r, hx, -⟩⟩
  · rw [hd]
    exact hc
  · rw [(h.sleep hx).1] at hc
    cases hc
  · exact h.stays hx hc

theorem no_sleeper (h : Closes M closed close) {s s' : State Tid D Op Cv R} {a : Label Tid Op} (hs : Steps M calls s a s')
    (hc : closed s.data = true) {u : Tid} {op : Op} {cv : Cv} (hu : s'.pc u = .asleep op cv) :
    s.pc u = .asleep op cv := by
  rcases hs.sleeper hu with hu | ⟨w, pick, -, -, hx⟩
  · exact hu
  · rw [(h.sleep hx).1] at hc
    cases hc

variable [Fintype Tid]

/-- Who still sleeps in a closed monitor is owed a `notify_all` by a `close`. -/
theorem owed (h : Closes M closed close) {s : State Tid D Op Cv R} (hr : (M.machine calls).Reachable s)
    (hc : closed s.data = true) {u : Tid} {op : Op} {cv : Cv} (hu : s.pc u = .asleep op cv) : Owed (· = close) cv s.pc := by
  have hawaited : Awaited (· = close) (fun _ d => closed d = false) s := by
    refine hr.invariant (I := Awaited (· = close) (fun _ d => closed d = false)) ?_ ?_
    · intro t op cv ht
      cases ht
    · intro s a s' hr ih hs
      refine Awaited.step (step_spec hs) ?_ ?_ ih
      · intro t op w d c _ hx
        exact ⟨(h.sleep hx).2, fun _ _ => (h.sleep hx).2⟩
      · intro t op w d held later r u op' c _ hx hu hw
        cases hd : closed d with
        | false => exact .inl rfl
        | true =>
          have hop := h.only hx hw hd
          subst hop
          obtain ⟨w₁, d₁, d₂, hx₁⟩ := op_sleeps hr (.inl hu)
          exact .inr ⟨rfl, h.owes hx hx₁⟩
  rcases hawaited u op cv hu with hw | hw
  · rw [hc] at hw
    cases hw
  · exact hw

/-- A `close` on its way out has shut the monitor, and still owes a
`notify_all` to whoever sleeps. -/
theorem leaving_owes (h : Closes M closed close) {s : State Tid D Op Cv R} (hr : (M.machine calls).Reachable s) {t : Tid}
    {todo : List (Notify Cv)} {r : R} (ht : s.pc t = .leaving close todo r) :
    closed s.data = true ∧ ∀ u op cv, s.pc u = .asleep op cv → .all cv ∈ todo := by
  have key : ∀ t todo r, s.pc t = .leaving close todo r →
      closed s.data = true ∧ ∀ u op cv, s.pc u = .asleep op cv → .all cv ∈ todo := by
    refine hr.invariant (I := fun s => ∀ t todo r, s.pc t = .leaving close todo r →
      closed s.data = true ∧ ∀ u op cv, s.pc u = .asleep op cv → .all cv ∈ todo) ?_ ?_
    · intro t todo r ht
      cases ht
    · intro s a s' hr ih hs t todo r ht
      have hs := step_spec hs
      rcases hs.leaving ht with ht | ⟨n, ht, hd, hn⟩ | ⟨w, held, hready, hx⟩
      · obtain ⟨hc, hm⟩ := ih t todo r ht
        exact ⟨h.step_closed hs hc, fun u op cv hu => hm u op cv (h.no_sleeper hs hc hu)⟩
      · obtain ⟨hc, hm⟩ := ih t _ r ht
        refine ⟨h.step_closed hs hc, fun u op cv hu => ?_⟩
        rcases List.mem_cons.mp (hm u op cv (h.no_sleeper hs hc hu)) with he | he
        · exact absurd hu (hn cv he.symm u op)
        · exact he
      · refine ⟨h.shuts hx, fun u op cv hu => ?_⟩
        have hr' : (M.machine calls).Reachable s' := .step hr ‹_›
        obtain ⟨w₁, d₁, d₂, hx₁⟩ := op_sleeps hr' (.inl hu)
        exact h.owes hx hx₁
  exact key t todo r ht

/-- Once a `close` is about to return nobody sleeps, then or later. -/
theorem nobody_sleeps (h : Closes M closed close) {n : Nat} (r : Run (M.machine calls) n) {i j : Nat} {t : Tid} {x : R}
    (ht : (r.st i).pc t = .leaving close [] x) (hij : i ≤ j) (hj : j ≤ n) (u : Tid) (op : Op) (cv : Cv) :
    (r.st j).pc u ≠ .asleep op cv := by
  obtain ⟨hc, hm⟩ := h.leaving_owes (r.reachable i (by omega)) ht
  have hquiet : closed (r.st j).data = true ∧ ∀ u op cv, (r.st j).pc u ≠ .asleep op cv := by
    refine r.persists (fun s => closed s.data = true ∧ ∀ u op cv, s.pc u ≠ .asleep op cv) hij (fun k _ hk hq => ?_) ?_
    · have hs := step_spec (r.step k (by omega))
      exact ⟨h.step_closed hs hq.1, fun u op cv hu => hq.2 u op cv (h.no_sleeper hs hq.1 hu)⟩
    · exact ⟨hc, fun u op cv hu => by cases hm u op cv hu⟩
  exact hquiet.2 u op cv

end Closes

end Interleave.Monitor
