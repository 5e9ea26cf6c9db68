import Yutil.Monitor

/-!
# A monitor with more calls

Calls that only read, and calls that run another's section, change nothing
about a monitor. Without its readers it is in a state of the monitor as it was,
so what holds in every state of the one holds in every state of the other.
-/

namespace Interleave

variable {Tid D Op Cv R Op' R' : Type}

def Exit.map (res : R' → R) : Exit D Cv R' → Exit D Cv R
  | .sleep d cv => .sleep d cv
  | .leave d held later r => .leave d held later (res r)

theorem Exit.map_back {f : R → R'} {g : R' → R} (h : ∀ r, g (f r) = r) (x : Exit D Cv R) : (x.map f).map g = x := by
  cases x with
  | sleep d cv => rfl
  | leave d held later r => simp only [Exit.map, h]

namespace Pc

def narrow (base : Op' → Option Op) (res : R' → R) : Pc Op' Cv R' → Pc Op Cv R
  | .idle => .idle
  | .entry o =>
    match base o with
    | some p => .entry p
    | none => .idle
  | .asleep o cv =>
    match base o with
    | some p => .asleep p cv
    | none => .idle
  | .woken o cv =>
    match base o with
    | some p => .woken p cv
    | none => .idle
  | .leaving o todo r =>
    match base o with
    | some p => .leaving p todo (res r)
    | none => .idle

def Light (base : Op' → Option Op) : Pc Op' Cv R' → Prop
  | .asleep o _ | .woken o _ => base o ≠ none
  | .leaving o todo _ => base o = none → todo = []
  | _ => True

variable [DecidableEq Cv] {base : Op' → Option Op} {res : R' → R} {p : Pc Op' Cv R'} {cv : Cv}

theorem narrow_wake (h : p.Light base) : (p.wake cv).narrow base res = (p.narrow base res).wake cv := by
  cases p with
  | asleep o c =>
    cases hb : base o with
    | none => exact absurd hb h
    | some q => by_cases hc : c = cv <;> simp [wake, narrow, hb, hc]
  | idle => rfl
  | entry o | woken o c | leaving o todo r => cases hb : base o <;> simp [wake, narrow, hb]

theorem narrow_sleepsOn (h : p.Light base) : (p.narrow base res).sleepsOn cv = p.sleepsOn cv := by
  cases p with
  | asleep o c =>
    cases hb : base o with
    | none => exact absurd hb h
    | some q => simp [narrow, sleepsOn, hb]
  | idle => rfl
  | entry o | woken o c | leaving o todo r => cases hb : base o <;> simp [narrow, sleepsOn, hb]

omit [DecidableEq Cv] in
theorem narrow_ready {o : Op'} {w : Bool} {q : Op} (hr : p.ready = some (o, w)) (hb : base o = some q) :
    (p.narrow base res).ready = some (q, w) := by
  cases p with
  | entry o' | woken o' c =>
    cases hr
    simp [narrow, hb, ready]
  | _ => cases hr

omit [DecidableEq Cv] in
theorem leaving_of_narrow {q : Op} {todo : List (Notify Cv)} {r : R} (h : p.narrow base res = .leaving q todo r) :
    ∃ o r', p = .leaving o todo r' ∧ base o = some q := by
  cases p with
  | idle => cases h
  | leaving o todo' r' =>
    cases hb : base o with
    | none => simp [narrow, hb] at h
    | some q' =>
      simp only [narrow, hb, Pc.leaving.injEq] at h
      obtain ⟨rfl, rfl, -⟩ := h
      exact ⟨o, r', rfl, hb⟩
  | entry o | asleep o c | woken o c => cases hb : base o <;> simp [narrow, hb] at h

theorem light_wake (h : p.Light base) : (p.wake cv).Light base := by
  cases p with
  | asleep o c =>
    by_cases hc : c = cv
    · simp only [wake, if_pos hc]
      exact h
    · simp only [wake, if_neg hc]
      exact h
  | _ => exact h

end Pc

namespace Monitor

/-- The calls of `M'` read, or run sections of `M`. -/
structure Widens (M' : Monitor D Op' Cv R') (M : Monitor D Op Cv R) (base : Op' → Option Op) (res : R' → R) : Prop where
  start : M'.start = M.start
  same : ∀ {o p}, base o = some p → ∀ w d, (M'.sect o w d).map res = M.sect p w d
  reads : ∀ {o}, base o = none → ∀ w d, ∃ r, M'.sect o w d = .leave d none [] r

def State.narrow (base : Op' → Option Op) (res : R' → R) (s : State Tid D Op' Cv R') : State Tid D Op Cv R :=
  ⟨s.data, fun t => (s.pc t).narrow base res⟩

variable [DecidableEq Tid] [Fintype Tid] [DecidableEq Cv] {base : Op' → Option Op} {res : R' → R}

omit [Fintype Tid] [DecidableEq Cv] in
theorem narrow_update (pc : Tid → Pc Op' Cv R') (t : Tid) (p : Pc Op' Cv R') :
    (fun u => (Function.update pc t p u).narrow base res) = Function.update (fun u => (pc u).narrow base res) t (p.narrow base res) := by
  funext u
  by_cases hu : u = t
  · subst hu
    rw [Function.update_self, Function.update_self]
  · rw [Function.update_of_ne hu, Function.update_of_ne hu]

omit [Fintype Tid] [DecidableEq Cv] in
theorem light_update {pc : Tid → Pc Op' Cv R'} (h : ∀ u, (pc u).Light base) (t : Tid) {p : Pc Op' Cv R'} (hp : p.Light base) (u : Tid) :
    (Function.update pc t p u).Light base := by
  by_cases hu : u = t
  · subst hu
    rwa [Function.update_self]
  · rw [Function.update_of_ne hu]
    exact h u

omit [Fintype Tid] in
theorem Delivers.light {pc pc' : Tid → Pc Op' Cv R'} {n : Notify Cv} (hd : Delivers pc n pc') (h : ∀ u, (pc u).Light base) (u : Tid) :
    (pc' u).Light base := by
  cases hd with
  | @wakes cv v o hv =>
    apply light_update h
    have := h v
    rwa [hv] at this
  | nobody _ => exact h u
  | everybody => exact Pc.light_wake (h u)

theorem Delivers.narrow (res : R' → R) {pc pc' : Tid → Pc Op' Cv R'} {n : Notify Cv} (hd : Delivers pc n pc') (h : ∀ u, (pc u).Light base) :
    ∃ pick, deliver (fun u => (pc u).narrow base res) pick n = some fun u => (pc' u).narrow base res := by
  cases hd with
  | @wakes cv v o hv =>
    refine ⟨some v, ?_⟩
    have hsleeps : (pc v).sleepsOn cv = true := by simp [hv, Pc.sleepsOn]
    rw [deliver, Pc.narrow_sleepsOn (h v), if_pos hsleeps, narrow_update, ← Pc.narrow_wake (h v), hv, Pc.wake, if_pos rfl]
  | nobody hn =>
    refine ⟨none, if_pos fun u => ?_⟩
    rw [Pc.narrow_sleepsOn (h u)]
    exact hn u
  | everybody => exact ⟨none, congrArg some (funext fun u => (Pc.narrow_wake (h u)).symm)⟩

theorem DeliversHeld.narrow (res : R' → R) {pc pc' : Tid → Pc Op' Cv R'} {held : Option (Notify Cv)} (hd : DeliversHeld pc held pc')
    (h : ∀ u, (pc u).Light base) :
    (∃ pick, deliverHeld (fun u => (pc u).narrow base res) pick held = .some fun u => (pc' u).narrow base res) ∧
      ∀ u, (pc' u).Light base := by
  cases hd with
  | none => exact ⟨⟨.none, rfl⟩, h⟩
  | some hd => exact ⟨hd.narrow res h, hd.light h⟩

variable {M' : Monitor D Op' Cv R'} {M : Monitor D Op Cv R} {calls' : Tid → Op' → Bool} {calls : Tid → Op → Bool}
  {s s' : State Tid D Op' Cv R'} {a : Label Tid Op'}

omit [Fintype Tid] [DecidableEq Cv] in
theorem narrow_put (d : D) (pc : Tid → Pc Op' Cv R') (t : Tid) (p : Pc Op' Cv R') :
    (⟨d, Function.update pc t p⟩ : State Tid D Op' Cv R').narrow base res =
      ⟨d, Function.update (fun u => (pc u).narrow base res) t (p.narrow base res)⟩ := by
  unfold State.narrow
  rw [narrow_update]

omit [Fintype Tid] [DecidableEq Cv] in
theorem narrow_same {t : Tid} {p : Pc Op' Cv R'} (hp : p.narrow base res = (s.pc t).narrow base res) :
    (⟨s.data, Function.update s.pc t p⟩ : State Tid D Op' Cv R').narrow base res = s.narrow base res := by
  rw [narrow_put, hp, Function.update_eq_self]
  rfl

/-- A step is one of the monitor as it was, or a reader's. -/
theorem Widens.step (hW : M'.Widens M base res) (hcalls : ∀ t o p, calls' t o = true → base o = some p → calls t p = true)
    (h : ∀ u, (s.pc u).Light base) (hs : Steps M' calls' s a s') :
    (∀ u, (s'.pc u).Light base) ∧
      (s'.narrow base res = s.narrow base res ∨ ∃ b, M.step calls (s.narrow base res) b = some (s'.narrow base res)) := by
  have hpcs : ∀ u, (s.narrow base res).pc u = (s.pc u).narrow base res := fun _ => rfl
  cases hs with
  | @call t o hpc hc =>
    refine ⟨light_update h t trivial, ?_⟩
    cases hb : base o with
    | none => exact .inl (narrow_same (by simp [hpc, Pc.narrow, hb]))
    | some p =>
      have hidle : (s.narrow base res).pc t = .idle := by rw [hpcs, hpc]; rfl
      have hentry : (Pc.entry o : Pc Op' Cv R').narrow base res = .entry p := by simp [Pc.narrow, hb]
      refine .inr ⟨.call t p, ?_⟩
      rw [narrow_put, hentry]
      simp only [Monitor.step, hidle, hcalls t o p hc hb, if_true]
      rfl
  | @sleep t pick o w d cv hr hx =>
    cases hb : base o with
    | none =>
      obtain ⟨r, hreads⟩ := hW.reads hb w s.data
      cases hreads.symm.trans hx
    | some p =>
      have hsect : M.sect p w (s.narrow base res).data = .sleep d cv := by
        have := hW.same hb w s.data
        rwa [hx, Exit.map, eq_comm] at this
      have hready : ((s.narrow base res).pc t).ready = some (p, w) := Pc.narrow_ready hr hb
      have hasleep : (Pc.asleep o cv : Pc Op' Cv R').narrow base res = .asleep p cv := by simp [Pc.narrow, hb]
      refine ⟨light_update h t (by simp [Pc.Light, hb]), .inr ⟨.acquire t pick, ?_⟩⟩
      rw [narrow_put, hasleep]
      simp only [Monitor.step, hready, hsect]
      rfl
  | @leave t pick o w d held later r pc hr hx hd =>
    cases hb : base o with
    | none =>
      obtain ⟨r', hreads⟩ := hW.reads hb w s.data
      cases hreads.symm.trans hx
      cases hd with
      | none =>
        refine ⟨light_update h t fun _ => rfl, .inl (narrow_same ?_)⟩
        cases hpc : s.pc t with
        | entry o' | woken o' c =>
          rw [hpc] at hr
          cases hr
          simp [Pc.narrow, hb]
        | _ =>
          rw [hpc] at hr
          cases hr
    | some p =>
      have hsect : M.sect p w (s.narrow base res).data = .leave d held later (res r) := by
        have := hW.same hb w s.data
        rwa [hx, Exit.map, eq_comm] at this
      have hready : ((s.narrow base res).pc t).ready = some (p, w) := Pc.narrow_ready hr hb
      have hleaving : (Pc.leaving o later r : Pc Op' Cv R').narrow base res = .leaving p later (res r) := by simp [Pc.narrow, hb]
      obtain ⟨⟨pick', hpick⟩, hlight⟩ := hd.narrow res h
      have hpick : deliverHeld (s.narrow base res).pc pick' held = some fun u => (pc u).narrow base res := hpick
      refine ⟨light_update hlight t (by simp [Pc.Light, hb]), .inr ⟨.acquire t pick', ?_⟩⟩
      rw [narrow_put, hleaving]
      simp only [Monitor.step, hready, hsect, hpick, Option.map_some]
  | @notify t pick o n todo r pc hpc hd =>
    have hlight := h t
    rw [hpc] at hlight
    cases hb : base o with
    | none => cases hlight hb
    | some p =>
      have hleaving : ∀ todo, (Pc.leaving o todo r : Pc Op' Cv R').narrow base res = .leaving p todo (res r) := by
        simp [Pc.narrow, hb]
      have hpc' : (s.narrow base res).pc t = .leaving p (n :: todo) (res r) := by rw [hpcs, hpc, hleaving]
      obtain ⟨pick', hpick⟩ := hd.narrow res h
      have hpick : deliver (s.narrow base res).pc pick' n = some fun u => (pc u).narrow base res := hpick
      refine ⟨light_update (hd.light h) t (by simp [Pc.Light, hb]), .inr ⟨.notify t pick', ?_⟩⟩
      rw [narrow_put, hleaving]
      simp only [Monitor.step, hpc', hpick, Option.map_some]
      rfl
  | @spurious t o cv hpc =>
    have hlight := h t
    rw [hpc] at hlight
    cases hb : base o with
    | none => exact absurd hb hlight
    | some p =>
      have hpc' : (s.narrow base res).pc t = .asleep p cv := by simp [hpcs, hpc, Pc.narrow, hb]
      have hwoken : (Pc.woken o cv : Pc Op' Cv R').narrow base res = .woken p cv := by simp [Pc.narrow, hb]
      refine ⟨light_update h t (by simp [Pc.Light, hb]), .inr ⟨.spurious t, ?_⟩⟩
      rw [narrow_put, hwoken]
      simp only [Monitor.step, hpc']
      rfl
  | @ret t o r hpc =>
    refine ⟨light_update h t trivial, ?_⟩
    cases hb : base o with
    | none => exact .inl (narrow_same (by simp [hpc, Pc.narrow, hb]))
    | some p =>
      have hpc' : (s.narrow base res).pc t = .leaving p [] (res r) := by simp [hpcs, hpc, Pc.narrow, hb]
      refine .inr ⟨.ret t, ?_⟩
      rw [narrow_put]
      simp only [Monitor.step, hpc']
      rfl

/-- **What a wider monitor reaches, the monitor as it was reaches**, but for the readers. -/
theorem Widens.reachable (hW : M'.Widens M base res) (hcalls : ∀ t o p, calls' t o = true → base o = some p → calls t p = true)
    (hr : (M'.machine calls').Reachable s) : (M.machine calls).Reachable (s.narrow base res) ∧ ∀ u, (s.pc u).Light base := by
  refine hr.invariant (I := fun s => (M.machine calls).Reachable (s.narrow base res) ∧ ∀ u, (s.pc u).Light base) ?_ ?_
  · refine ⟨?_, fun _ => trivial⟩
    have hstart : ((M'.machine calls').start).narrow base res = (M.machine calls).start := by
      unfold State.narrow machine
      simp only [hW.start, Pc.narrow]
    rw [hstart]
    exact .start
  · intro s a s' _ ih hs
    obtain ⟨hlight, hstep⟩ := hW.step hcalls ih.2 (step_spec hs)
    refine ⟨?_, hlight⟩
    rcases hstep with he | ⟨b, hb⟩
    · rw [he]
      exact ih.1
    · exact ih.1.step hb

end Monitor

end Interleave
