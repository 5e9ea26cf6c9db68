import Yutil.Monitor

/-!
# The wakeup rule

`Covered.step`: a condition variable stays covered when a thread goes to
sleep on it only with nothing left to wait for, and a section that leaves
accounts for what it adds to the need: by the wakeup it consumed itself, or
by the notifications it issues. `Counted.step`: a counter in the data that
follows each section's sleep and return is the number of threads inside the
wait.
-/

namespace Interleave.Monitor

variable {Tid D Op Cv R : Type} [DecidableEq Tid] [Fintype Tid] [DecidableEq Cv]
variable {M : Monitor D Op Cv R} {calls : Tid → Op → Bool} {e : Op → Nat} {cv : Cv}

def sent (cv : Cv) (held : Option (Notify Cv)) (later : List (Notify Cv)) : Nat :=
  held.toList.count (.one cv) + later.count (.one cv)

theorem DeliversHeld.totals {pc pc' : Tid → Pc Op Cv R} {held : Option (Notify Cv)} (h : DeliversHeld pc held pc')
    (e : Op → Nat) (cv : Cv) :
    total (onesOn cv) pc' = total (onesOn cv) pc ∧ total (allsOn cv) pc' = total (allsOn cv) pc ∧
    (total (asleepOn cv) pc' = 0 ∨
      total (asleepOn cv) pc' + held.toList.count (.one cv) = total (asleepOn cv) pc ∧
      total (awakeOn e cv) pc' = total (awakeOn e cv) pc + held.toList.count (.one cv)) := by
  cases h with
  | none => exact ⟨rfl, rfl, .inr ⟨by simp, by simp⟩⟩
  | @some n pc' hd =>
    obtain ⟨h1, h2, h3, h4, h5⟩ := hd.totals e cv
    refine ⟨h1, h2, ?_⟩
    by_cases hn : n = .one cv
    · rcases h3 hn with h | ⟨ha, hb⟩
      · exact .inl h
      · subst hn; simp only [Option.toList_some, List.count_singleton_self]; exact .inr ⟨ha, hb⟩
    · by_cases hm : n = .all cv
      · exact .inl (h4 hm)
      · obtain ⟨ha, hb⟩ := h5 hn hm
        have : [n].count (.one cv) = 0 := List.count_eq_zero.mpr (by simpa using Ne.symm hn)
        simp only [Option.toList_some, this]
        exact .inr ⟨ha, hb⟩

/-- What a step does to the sleepers of `cv` and to the wakeups on their way. -/
inductive Accounts (M : Monitor D Op Cv R) (e : Op → Nat) (cv : Cv) (s : State Tid D Op Cv R) (d : D)
    (pc : Tid → Pc Op Cv R) : Label Tid Op → Prop
  /-- A call, a return, a spurious wakeup, or a notification of another variable. -/
  | quiet {a : Label Tid Op} : d = s.data → total (onesOn cv) pc = total (onesOn cv) s.pc →
      total (allsOn cv) pc = total (allsOn cv) s.pc → total (asleepOn cv) pc ≤ total (asleepOn cv) s.pc →
      total (asleepOn cv) s.pc + total (awakeOn e cv) s.pc ≤ total (asleepOn cv) pc + total (awakeOn e cv) pc →
      Accounts M e cv s d pc a
  | one {a : Label Tid Op} : d = s.data → total (onesOn cv) pc + 1 = total (onesOn cv) s.pc →
      total (allsOn cv) pc = total (allsOn cv) s.pc →
      (total (asleepOn cv) pc = 0 ∨ total (asleepOn cv) pc + 1 = total (asleepOn cv) s.pc ∧
        total (awakeOn e cv) pc = total (awakeOn e cv) s.pc + 1) → Accounts M e cv s d pc a
  | all {a : Label Tid Op} : d = s.data → total (asleepOn cv) pc = 0 →
      total (allsOn cv) pc ≤ total (allsOn cv) s.pc → Accounts M e cv s d pc a
  | sleep {t : Tid} {pick : Option Tid} {op : Op} {w : Bool} {c : Cv} : (s.pc t).ready = some (op, w) →
      M.sect op w s.data = .sleep d c → total (onesOn cv) pc = total (onesOn cv) s.pc →
      total (allsOn cv) pc = total (allsOn cv) s.pc →
      total (asleepOn cv) pc = total (asleepOn cv) s.pc + (if c = cv then 1 else 0) →
      total (awakeOn e cv) pc + awakeOn e cv (s.pc t) = total (awakeOn e cv) s.pc →
      Accounts M e cv s d pc (.acquire t pick)
  /-- The notifications made under the mutex leave nobody asleep, or wake as many as they are. -/
  | leave {t : Tid} {pick : Option Tid} {op : Op} {w : Bool} {held : Option (Notify Cv)} {later : List (Notify Cv)}
      {r : R} : (s.pc t).ready = some (op, w) → M.sect op w s.data = .leave d held later r →
      total (onesOn cv) pc = total (onesOn cv) s.pc + later.count (.one cv) →
      total (allsOn cv) pc = total (allsOn cv) s.pc + later.count (.all cv) →
      (total (asleepOn cv) pc = 0 ∨
        total (asleepOn cv) pc + held.toList.count (.one cv) = total (asleepOn cv) s.pc ∧
        total (awakeOn e cv) pc + awakeOn e cv (s.pc t) =
          total (awakeOn e cv) s.pc + held.toList.count (.one cv)) → Accounts M e cv s d pc (.acquire t pick)

theorem Steps.accounts {s s' : State Tid D Op Cv R} {a : Label Tid Op} (hs : Steps M calls s a s') (e : Op → Nat)
    (cv : Cv) : Accounts M e cv s s'.data s'.pc a := by
  obtain ⟨d', pc'⟩ := s'
  change Accounts M e cv s d' pc' a
  have four : ∀ (pc : Tid → Pc Op Cv R) (t : Tid) (p : Pc Op Cv R),
      total (onesOn cv) (Function.update pc t p) + onesOn cv (pc t) = total (onesOn cv) pc + onesOn cv p ∧
      total (allsOn cv) (Function.update pc t p) + allsOn cv (pc t) = total (allsOn cv) pc + allsOn cv p ∧
      total (asleepOn cv) (Function.update pc t p) + asleepOn cv (pc t) = total (asleepOn cv) pc + asleepOn cv p ∧
      total (awakeOn e cv) (Function.update pc t p) + awakeOn e cv (pc t) = total (awakeOn e cv) pc + awakeOn e cv p :=
    fun pc t p => ⟨total_update .., total_update .., total_update .., total_update ..⟩
  cases hs with
  | @call t op hpc _ =>
    obtain ⟨h1, h2, h3, h4⟩ := four s.pc t (.entry op)
    rw [hpc] at h1 h2 h3 h4
    simp only [onesOn, allsOn, asleepOn, awakeOn] at h1 h2 h3 h4
    exact .quiet rfl (by omega) (by omega) (by omega) (by omega)
  | @sleep t pick op w d c hr hx =>
    obtain ⟨h1, h2, h3, h4⟩ := four s.pc t (.asleep op c)
    obtain ⟨w1, w2, w3⟩ := ready_weights cv hr
    rw [w1] at h3; rw [w2] at h1; rw [w3] at h2
    exact .sleep hr hx h1 h2 h3 h4
  | @leave t pick op w d held later r pc hr hx hd =>
    obtain ⟨h1, h2, h3, h4⟩ := four pc t (.leaving op later r)
    obtain ⟨t1, t2, t3⟩ := hd.totals e cv
    obtain ⟨w1, w2, w3⟩ := ready_weights cv hr
    rw [hd.same (ready_not_asleep hr)] at h1 h2 h3 h4
    rw [w1] at h3; rw [w2] at h1; rw [w3] at h2
    simp only [onesOn, allsOn, show asleepOn cv (.leaving op later r) = 0 from rfl,
      show awakeOn e cv (.leaving op later r) = 0 from rfl] at h1 h2 h3 h4
    refine .leave hr hx (by omega) (by omega) ?_
    rcases t3 with t3 | ⟨t3, t4⟩
    · exact .inl (by omega)
    · exact .inr ⟨by omega, by omega⟩
  | @notify t pick op n todo r pc hpc hd =>
    obtain ⟨h1, h2, h3, h4⟩ := four pc t (.leaving op todo r)
    obtain ⟨t1, t2, t3, t4, t5⟩ := hd.totals e cv
    rw [hd.same (t := t) fun c => by rw [hpc]; rfl, hpc] at h1 h2 h3 h4
    simp only [onesOn, allsOn, List.count_cons, beq_iff_eq, show ∀ l, asleepOn cv (.leaving op l r) = 0 from fun _ => rfl,
      show ∀ l, awakeOn e cv (.leaving op l r) = 0 from fun _ => rfl] at h1 h2 h3 h4
    by_cases hn : n = .one cv
    · subst hn
      simp only [ite_true, reduceCtorEq, ite_false] at h1 h2
      refine .one rfl (by omega) (by omega) ?_
      rcases t3 rfl with t3 | ⟨t3, t6⟩
      · exact .inl (by omega)
      · exact .inr ⟨by omega, by omega⟩
    · by_cases hm : n = .all cv
      · have := t4 hm
        exact .all rfl (by omega) (by omega)
      · obtain ⟨t6, t7⟩ := t5 hn hm
        simp only [hn, hm, ite_false] at h1 h2
        exact .quiet rfl (by omega) (by omega) (by omega) (by omega)
  | @spurious t op c hpc =>
    obtain ⟨h1, h2, h3, h4⟩ := four s.pc t (.woken op c)
    rw [hpc] at h1 h2 h3 h4
    simp only [onesOn, allsOn, asleepOn, awakeOn] at h1 h2 h3 h4
    exact .quiet rfl (by omega) (by omega) (by omega) (by omega)
  | @ret t op r hpc =>
    obtain ⟨h1, h2, h3, h4⟩ := four s.pc t .idle
    rw [hpc] at h1 h2 h3 h4
    simp only [onesOn, allsOn, asleepOn, awakeOn, List.count_nil] at h1 h2 h3 h4
    exact .quiet rfl (by omega) (by omega) (by omega) (by omega)

/-- The wakeup rule, with `need` read off the data. -/
theorem Covered.step (need : D → Nat) {s s' : State Tid D Op Cv R} {a : Label Tid Op}
    (hs : Steps M calls s a s')
    (hsleep : ∀ t pick op w d c, a = .acquire t pick → (s.pc t).ready = some (op, w) →
      M.sect op w s.data = .sleep d c →
      if c = cv then need d = 0 else need d + awakeOn e cv (s.pc t) ≤ need s.data)
    (hleave : ∀ t pick op w d held later r, a = .acquire t pick → (s.pc t).ready = some (op, w) →
      M.sect op w s.data = .leave d held later r → Stranded cv s.pc → total (allsOn cv) s.pc = 0 →
      need s.data ≤ flight e cv s.pc →
      .all cv ∈ later ∨ need d + awakeOn e cv (s.pc t) ≤ flight e cv s.pc + sent cv held later)
    (h : Covered e cv (need s.data) s.pc) : Covered e cv (need s'.data) s'.pc := by
  intro hst
  simp only [Covered, Stranded, flight] at h hst hleave ⊢
  cases hs.accounts e cv with
  | quiet hd h1 h2 h3 h4 =>
    rw [hd]
    rcases h (by omega) with h | h <;> omega
  | one hd h1 h2 h3 =>
    rw [hd]
    rcases h3 with h3 | ⟨h3, h4⟩
    · omega
    · rcases h (by omega) with h | h <;> omega
  | all _ h1 _ => omega
  | @sleep t pick op w c hr hx h1 h2 h3 h4 =>
    have hc := hsleep t pick op w _ c rfl hr hx
    by_cases hcv : c = cv
    · rw [if_pos hcv] at hc
      exact .inr (by omega)
    · rw [if_neg hcv] at hc h3
      rcases h (by omega) with h | h <;> omega
  | @leave t pick op w held later r hr hx h1 h2 h3 =>
    -- held notifications either leave nobody asleep or only turn sleepers into woken threads
    rcases h3 with h3 | ⟨h3, h4⟩
    · omega
    · by_cases h0 : total (allsOn cv) s.pc = 0
      swap
      · exact .inl (by omega)
      rcases h (by omega) with h | h
      · exact .inl (by omega)
      · rcases hleave t pick op w _ held later r rfl hr hx (by omega) h0 h with hc | hc
        · exact .inl (by have := List.count_pos_iff.mpr hc; omega)
        · exact .inr (by simp only [sent] at hc; omega)

omit [DecidableEq Tid] in
theorem Covered.rest {need : Nat} {pc : Tid → Pc Op Cv R} (h : Covered e cv need pc)
    (hasleep : 0 < total (asleepOn cv) pc) (hones : total (onesOn cv) pc = 0) (halls : total (allsOn cv) pc = 0)
    (hawake : total (awakeOn e cv) pc = 0) : need = 0 := by
  have hst : Stranded cv pc := by
    unfold Stranded
    omega
  rcases h hst with h | h
  · omega
  · unfold flight at h
    omega

/-- While a thread sleeps on `cv`, a `notify_all` is outstanding or `need`
wakeups are in flight. -/
def Backed (e : Op → Nat) (cv : Cv) (need : Nat) (pc : Tid → Pc Op Cv R) : Prop :=
  0 < total (asleepOn cv) pc → 0 < total (allsOn cv) pc ∨ need ≤ flight e cv pc

theorem Backed.step_spare (need : D → Nat) {s s' : State Tid D Op Cv R} {a : Label Tid Op} (hs : Steps M calls s a s')
    (hsleep : ∀ t op w d c, (s.pc t).ready = some (op, w) → M.sect op w s.data = .sleep d c →
      if c = cv then need d = 0 else need d + awakeOn e cv (s.pc t) ≤ need s.data)
    (hleave : ∀ t pick op w d held later r, a = .acquire t pick → (s.pc t).ready = some (op, w) →
      M.sect op w s.data = .leave d held later r → 0 < total (asleepOn cv) s.pc → total (allsOn cv) s.pc = 0 →
      need s.data ≤ flight e cv s.pc →
      .all cv ∈ later ∨ need d = 0 ∨ need d + awakeOn e cv (s.pc t) ≤ flight e cv s.pc + sent cv held later)
    (h : Backed e cv (need s.data) s.pc) : Backed e cv (need s'.data) s'.pc := by
  intro hst
  simp only [Backed, flight] at h hleave ⊢
  cases hs.accounts e cv with
  | quiet hd h1 h2 h3 h4 =>
    rw [hd]
    rcases h (by omega) with h | h <;> omega
  | one hd h1 h2 h3 =>
    rw [hd]
    rcases h3 with h3 | ⟨h3, h4⟩
    · omega
    · rcases h (by omega) with h | h <;> omega
  | all _ h1 _ => omega
  | @sleep t pick op w c hr hx h1 h2 h3 h4 =>
    have hc := hsleep t op w _ c hr hx
    by_cases hcv : c = cv
    · rw [if_pos hcv] at hc
      exact .inr (by omega)
    · rw [if_neg hcv] at hc h3
      rcases h (by omega) with h | h <;> omega
  | @leave t pick op w held later r hr hx h1 h2 h3 =>
    rcases h3 with h3 | ⟨h3, h4⟩
    · omega
    · by_cases h0 : total (allsOn cv) s.pc = 0
      swap
      · exact .inl (by omega)
      rcases h (by omega) with h | h
      · exact .inl (by omega)
      · rcases hleave t pick op w _ held later r rfl hr hx (by omega) h0 h with hc | hc | hc
        · exact .inl (by have := List.count_pos_iff.mpr hc; omega)
        · exact .inr (by omega)
        · exact .inr (by simp only [sent] at hc; omega)

/-- The wakeup rule for sections that account for all they add to the need. -/
theorem Backed.step (need : D → Nat) {s s' : State Tid D Op Cv R} {a : Label Tid Op} (hs : Steps M calls s a s')
    (hsleep : ∀ t op w d c, (s.pc t).ready = some (op, w) → M.sect op w s.data = .sleep d c →
      if c = cv then need d = 0 else need d + awakeOn e cv (s.pc t) ≤ need s.data)
    (hleave : ∀ t op w d held later r, (s.pc t).ready = some (op, w) → M.sect op w s.data = .leave d held later r →
      0 < total (asleepOn cv) s.pc →
      .all cv ∈ later ∨ need d = 0 ∨ need d + awakeOn e cv (s.pc t) ≤ need s.data + sent cv held later)
    (h : Backed e cv (need s.data) s.pc) : Backed e cv (need s'.data) s'.pc := by
  refine Backed.step_spare need hs hsleep ?_ h
  intro t pick op w d held later r _ hr hx hasleep _ hneed
  exact (hleave t op w d held later r hr hx hasleep).imp_right fun h =>
    h.imp_right fun h => Nat.le_trans h (Nat.add_le_add_right hneed _)

theorem Steps.asleep {s s' : State Tid D Op Cv R} {a : Label Tid Op} (hs : Steps M calls s a s') (cv : Cv) :
    total (asleepOn cv) s'.pc ≤ total (asleepOn cv) s.pc ∨
    ∃ t op w, (s.pc t).ready = some (op, w) ∧ M.sect op w s.data = .sleep s'.data cv := by
  cases hs.accounts (fun _ => 0) cv with
  | quiet _ _ _ h _ => exact .inl h
  | one _ _ _ h => exact .inl (by omega)
  | all _ h _ => exact .inl (by omega)
  | @sleep t pick op w c hr hx _ _ h _ =>
    by_cases hc : c = cv
    · exact .inr ⟨t, op, w, hr, hc ▸ hx⟩
    · rw [if_neg hc] at h
      exact .inl (by omega)
  | leave _ _ _ _ h => exact .inl (by omega)

theorem Steps.alls {s s' : State Tid D Op Cv R} {a : Label Tid Op} (hs : Steps M calls s a s') (cv : Cv) :
    total (allsOn cv) s'.pc ≤ total (allsOn cv) s.pc ∨
    ∃ op w held later r, M.sect op w s.data = .leave s'.data held later r ∧ .all cv ∈ later := by
  cases hs.accounts (fun _ => 0) cv with
  | quiet _ _ h _ _ => exact .inl (Nat.le_of_eq h)
  | one _ _ h _ => exact .inl (Nat.le_of_eq h)
  | all _ _ h => exact .inl h
  | sleep _ _ _ h _ _ => exact .inl (Nat.le_of_eq h)
  | @leave t pick op w held later r _ hx _ h _ =>
    by_cases hm : .all cv ∈ later
    · exact .inr ⟨op, w, held, later, r, hx, hm⟩
    · rw [List.count_eq_zero.mpr hm] at h
      exact .inl (Nat.le_of_eq h)

/-! ## Waiter counters -/

section
omit [Fintype Tid]

def insideOn (cv : Cv) : Pc Op Cv R → Nat
  | .asleep _ c | .woken _ c => if c = cv then 1 else 0
  | _ => 0

omit [DecidableEq Tid] in
@[simp] theorem insideOn_wake (cv' : Cv) (p : Pc Op Cv R) : insideOn cv (p.wake cv') = insideOn cv p := by
  cases p with
  | asleep op c => by_cases hc : c = cv' <;> simp [Pc.wake, insideOn, hc]
  | _ => rfl

theorem Delivers.insideOn {pc pc' : Tid → Pc Op Cv R} {n : Notify Cv} (h : Delivers pc n pc') (u : Tid) :
    insideOn cv (pc' u) = insideOn cv (pc u) := by
  cases h with
  | @wakes c v op hv =>
    by_cases huv : u = v
    · subst huv; rw [Function.update_self, hv]; rfl
    · rw [Function.update_of_ne huv]
  | nobody _ => rfl
  | everybody => exact insideOn_wake ..

end

theorem Counted.step (count : D → Nat) {s s' : State Tid D Op Cv R} {a : Label Tid Op} (hs : Steps M calls s a s')
    (hsleep : ∀ t op w d c, (s.pc t).ready = some (op, w) → M.sect op w s.data = .sleep d c →
      count d + insideOn cv (s.pc t) = count s.data + if c = cv then 1 else 0)
    (hleave : ∀ t op w d held later r, (s.pc t).ready = some (op, w) →
      M.sect op w s.data = .leave d held later r → count d + insideOn cv (s.pc t) = count s.data)
    (h : count s.data = total (insideOn cv) s.pc) : count s'.data = total (insideOn cv) s'.pc := by
  -- a delivered notification moves no thread in or out of the wait
  have upd : ∀ (pc : Tid → Pc Op Cv R) (t : Tid) (p : Pc Op Cv R), (∀ u, insideOn cv (pc u) = insideOn cv (s.pc u)) →
      total (insideOn cv) (Function.update pc t p) + insideOn cv (s.pc t) = count s.data + insideOn cv p := by
    intro pc t p hpc
    have := total_update (insideOn cv) pc t p
    rw [hpc t, total_congr hpc] at this
    omega
  cases hs with
  | @call t op hpc _ =>
    have := upd s.pc t (.entry op) fun _ => rfl
    rw [hpc] at this
    simpa [insideOn] using this.symm
  | @sleep t pick op w d c hr hx =>
    have h1 := upd s.pc t (.asleep op c) fun _ => rfl
    have h2 := hsleep t op w d c hr hx
    simp only [insideOn] at h1 h2 ⊢
    omega
  | @leave t pick op w d held later r pc hr hx hd =>
    have h1 := upd pc t (.leaving op later r) fun u => by
      cases hd with
      | none => rfl
      | some hd => exact hd.insideOn u
    have h2 := hleave t op w d held later r hr hx
    simp only [insideOn] at h1 h2 ⊢
    omega
  | @notify t pick op n todo r pc hpc hd =>
    have := upd pc t (.leaving op todo r) hd.insideOn
    rw [hpc] at this
    simpa [insideOn] using this.symm
  | @spurious t op c hpc =>
    have := upd s.pc t (.woken op c) fun _ => rfl
    rw [hpc] at this
    simp only [insideOn] at this ⊢
    omega
  | @ret t op r hpc =>
    have := upd s.pc t .idle fun _ => rfl
    rw [hpc] at this
    simpa [insideOn] using this.symm

omit [DecidableEq Tid] in
theorem inside_total (cv : Cv) (pc : Tid → Pc Op Cv R) :
    total (insideOn cv) pc = total (asleepOn cv) pc + total (awakeOn (fun _ => 0) cv) pc := by
  unfold total
  rw [← Finset.sum_add_distrib]
  apply Finset.sum_congr rfl
  intro u _
  cases pc u <;> simp [asleepOn, insideOn, awakeOn]

def waitsIn (wait : Op → Bool) : Pc Op Cv R → Bool
  | .asleep op _ | .woken op _ => wait op
  | _ => false

def inside (wait : Op → Bool) (pc : Tid → Pc Op Cv R) : Finset Tid :=
  Finset.univ.filter fun t => waitsIn wait (pc t) = true

omit [DecidableEq Tid] in
theorem card_inside {wait : Op → Bool} {pc : Tid → Pc Op Cv R}
    (h : ∀ t op c, pc t = .asleep op c ∨ pc t = .woken op c → (wait op = true ↔ c = cv)) :
    (inside wait pc).card = total (insideOn cv) pc := by
  unfold inside total
  rw [Finset.card_filter]
  apply Finset.sum_congr rfl
  intro t _
  have weigh : ∀ op c, (wait op = true ↔ c = cv) → (if wait op = true then 1 else 0) = if c = cv then 1 else 0 := by
    intro op c hop
    by_cases hc : c = cv
    · rw [if_pos hc, if_pos (hop.mpr hc)]
    · rw [if_neg hc, if_neg (mt hop.mp hc)]
  cases hpc : pc t with
  | asleep op c => exact weigh op c (h t op c (.inl hpc))
  | woken op c => exact weigh op c (h t op c (.inr hpc))
  | _ => rfl

omit [DecidableEq Tid] in
theorem not_stranded_of_inside {pc : Tid → Pc Op Cv R} (h : total (insideOn cv) pc = 0) : ¬ Stranded cv pc := by
  have := inside_total cv pc
  unfold Stranded
  omega

end Interleave.Monitor
