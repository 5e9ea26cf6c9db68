import Yutil.Monitor

/-!
# The calls of a monitor

Seen from outside a thread is idle, in a call, or on its way out with a result.
A thread that is neither idle nor asleep can make a step whatever the others
do. Each of its steps uses up some of the effort that its call brought, counting
what the threads that it wakes do again; only a spurious wakeup adds to it.
-/

namespace Interleave

section
variable {σ α : Type} {M : Machine σ α}

theorem Machine.Through.first {Q : σ → Prop} {s u : σ} {as : List α} (h : M.Through Q s as u) : Q s := by
  cases h with
  | nil hq => exact hq
  | cons hq _ _ => exact hq

/-- Steps from `s` are no more than what `s` holds and they bring. -/
theorem Machine.Through.length {Q : σ → Prop} (f : σ → Nat) (brings : α → Nat)
    (hf : ∀ s a s', Q s → Q s' → M.step s a = some s' → f s' + 1 ≤ f s + brings a) {s u : σ} {as : List α}
    (h : M.Through Q s as u) : f u + as.length ≤ f s + (as.map brings).sum := by
  induction h with
  | nil _ => simp
  | @cons s t u a as hs hstep hrest ih =>
    have := hf s a t hs hrest.first hstep
    simp only [List.length_cons, List.map_cons, List.sum_cons]
    omega

theorem Machine.execFrom_length {I : σ → Prop} (f : σ → Nat) (brings : α → Nat)
    (hI : ∀ s a s', I s → M.step s a = some s' → I s')
    (hf : ∀ s a s', I s → M.step s a = some s' → f s' + 1 ≤ f s + brings a) {s s' : σ} {as : List α} (hs : I s)
    (h : M.execFrom s as = some s') : f s' + as.length ≤ f s + (as.map brings).sum := by
  have hrun := Machine.Through.of_invariant (A := fun _ => True) (fun s a s' _ => hI s a s') hs (fun _ _ => trivial) h
  exact hrun.length f brings fun s a s' hs _ => hf s a s' hs

theorem Machine.execFrom_through {J : σ → Prop} (hJ : ∀ s a s', M.step s a = some s' → J s' → J s) {s u : σ} {as : List α}
    (hs : M.Reachable s) (h : M.execFrom s as = some u) (hu : J u) : M.Through (fun x => M.Reachable x ∧ J x) s as u := by
  induction as generalizing s with
  | nil =>
    cases h
    exact .nil ⟨hs, hu⟩
  | cons a as ih =>
    obtain ⟨t, ht, hrest⟩ := execFrom_cons_some h
    have htail := ih (.step hs ht) hrest
    exact .cons ⟨hs, hJ s a t ht htail.first.2⟩ ht htail

theorem sum_gives {ι A : Type} [Fintype ι] [DecidableEq ι] [AddCommMonoid A] {f g : ι → A} {x : A} (i : ι)
    (h : ∀ j, j ≠ i → f j = g j) (hi : f i + x = g i) : ∑ j, f j + x = ∑ j, g j := by
  have hrest : ∑ j ∈ Finset.univ.erase i, f j = ∑ j ∈ Finset.univ.erase i, g j :=
    Finset.sum_congr rfl fun j hj => h j (Finset.ne_of_mem_erase hj)
  rw [← Finset.add_sum_erase _ f (Finset.mem_univ i), ← Finset.add_sum_erase _ g (Finset.mem_univ i), hrest, ← hi,
    add_right_comm]

theorem card_gives {ι : Type} [Fintype ι] [DecidableEq ι] {p q : ι → Prop} [DecidablePred p] [DecidablePred q] (i : ι)
    (h : ∀ j, j ≠ i → (p j ↔ q j)) (hp : ¬ p i) (hq : q i) : (Finset.univ.filter p).card + 1 = (Finset.univ.filter q).card := by
  simp only [Finset.card_filter]
  refine sum_gives i (fun j hj => ?_) ?_
  · simp only [h j hj]
  · rw [if_neg hp, if_pos hq]

theorem sum_turn {Tid : Type} [Fintype Tid] [DecidableEq Tid] {f g : Tid → Nat} {t : Tid} {k : Nat}
    (h : ∀ u, u ≠ t → f u ≤ g u + k) : ∑ u, f u + g t ≤ ∑ u, g u + f t + (Fintype.card Tid - 1) * k := by
  have hrest : ∑ u ∈ Finset.univ.erase t, f u ≤ ∑ u ∈ Finset.univ.erase t, (g u + k) :=
    Finset.sum_le_sum fun u hu => h u (Finset.ne_of_mem_erase hu)
  rw [Finset.sum_add_distrib, Finset.sum_const, smul_eq_mul, Finset.card_erase_of_mem (Finset.mem_univ t), Finset.card_univ] at hrest
  rw [← Finset.add_sum_erase _ f (Finset.mem_univ t), ← Finset.add_sum_erase _ g (Finset.mem_univ t)]
  omega

end

def Pc.rests {Op Cv R : Type} : Pc Op Cv R → Bool
  | .idle | .asleep _ _ => true
  | _ => false

/-- What a thread is doing, seen from outside. -/
inductive Doing (Op R : Type)
  | nothing
  | calling (op : Op)
  | returning (op : Op) (r : R)

def Pc.doing {Op Cv R : Type} : Pc Op Cv R → Doing Op R
  | .idle => .nothing
  | .entry op | .asleep op _ | .woken op _ => .calling op
  | .leaving op _ r => .returning op r

namespace Monitor

variable {Tid D Op Cv R : Type}

inductive Label.Own (t : Tid) : Label Tid Op → Prop
  | acquire (pick : Option Tid) : Own t (.acquire t pick)
  | notify (pick : Option Tid) : Own t (.notify t pick)
  | ret : Own t (.ret t)

/-- The steps that are left to a thread, in a monitor of `n` threads whose
sections make at most `b` notifications. -/
def effort (b n : Nat) : Pc Op Cv R → Nat
  | .idle => 0
  | .entry _ | .woken _ _ => b * (n + 1) + 2
  | .asleep _ _ => b * (n + 1) + 1
  | .leaving _ todo _ => todo.length * (n + 1) + 1

def Brief (M : Monitor D Op Cv R) (b : Nat) : Prop :=
  ∀ op w d d' held later r, M.sect op w d = .leave d' held later r → held.toList.length + later.length ≤ b

/-- What a step may add to the efforts: those of a whole call, or what follows a spurious wakeup. -/
def Label.brings (b n : Nat) : Label Tid Op → Nat
  | .call _ _ => b * (n + 1) + 3
  | .spurious _ => 2
  | _ => 0

variable [DecidableEq Tid] [Fintype Tid] [DecidableEq Cv] {M : Monitor D Op Cv R} {calls : Tid → Op → Bool} {b : Nat}

/-! ## What threads are doing -/

omit [DecidableEq Tid] [Fintype Tid] in
theorem doing_wake (cv : Cv) (p : Pc Op Cv R) : (p.wake cv).doing = p.doing := by
  cases p with
  | asleep op c => by_cases h : c = cv <;> simp [Pc.wake, Pc.doing, h]
  | _ => rfl

omit [Fintype Tid] in
theorem Delivers.doing {pc pc' : Tid → Pc Op Cv R} {n : Notify Cv} (h : Delivers pc n pc') (u : Tid) :
    (pc' u).doing = (pc u).doing := by
  cases h with
  | @wakes cv v op hv =>
    by_cases huv : u = v
    · subst huv
      rw [Function.update_self, hv]
      rfl
    · rw [Function.update_of_ne huv]
  | nobody _ => rfl
  | everybody => exact doing_wake ..

omit [DecidableEq Cv] in
theorem ready_doing {p : Pc Op Cv R} {op : Op} {w : Bool} (h : p.ready = some (op, w)) : p.doing = .calling op := by
  cases p <;> rw [Pc.ready] at h <;> first | cases h; rfl | cases h

inductive Turns (M : Monitor D Op Cv R) (s s' : State Tid D Op Cv R) : Label Tid Op → Prop
  | calls {t : Tid} {op : Op} : (s.pc t).doing = .nothing → s'.data = s.data →
      (∀ u, (s'.pc u).doing = Function.update (fun v => (s.pc v).doing) t (.calling op) u) → Turns M s s' (.call t op)
  | ends {t : Tid} {pick : Option Tid} {op : Op} {w : Bool} {held : Option (Notify Cv)} {later : List (Notify Cv)} {r : R} :
      (s.pc t).ready = some (op, w) → M.sect op w s.data = .leave s'.data held later r →
      (∀ u, (s'.pc u).doing = Function.update (fun v => (s.pc v).doing) t (.returning op r) u) →
      Turns M s s' (.acquire t pick)
  | returns {t : Tid} {op : Op} {r : R} : s.pc t = .leaving op [] r → s'.data = s.data →
      (∀ u, (s'.pc u).doing = Function.update (fun v => (s.pc v).doing) t .nothing u) → Turns M s s' (.ret t)
  | sleeps {t : Tid} {pick : Option Tid} {op : Op} {w : Bool} {cv : Cv} : (s.pc t).ready = some (op, w) →
      M.sect op w s.data = .sleep s'.data cv → (∀ u, (s'.pc u).doing = (s.pc u).doing) → Turns M s s' (.acquire t pick)
  | notifies {t : Tid} {pick : Option Tid} : s'.data = s.data → (∀ u, (s'.pc u).doing = (s.pc u).doing) →
      Turns M s s' (.notify t pick)
  | stirs {t : Tid} : s'.data = s.data → (∀ u, (s'.pc u).doing = (s.pc u).doing) → Turns M s s' (.spurious t)

omit [Fintype Tid] in
theorem Steps.turns {s s' : State Tid D Op Cv R} {a : Label Tid Op} (hs : Steps M calls s a s') : Turns M s s' a := by
  have put : ∀ {pc : Tid → Pc Op Cv R} {t : Tid} {p : Pc Op Cv R}, (∀ u, (pc u).doing = (s.pc u).doing) →
      ∀ u, (Function.update pc t p u).doing = Function.update (fun v => (s.pc v).doing) t p.doing u := by
    intro pc t p hpc u
    by_cases hut : u = t
    · subst hut
      rw [Function.update_self, Function.update_self]
    · rw [Function.update_of_ne hut, Function.update_of_ne hut, hpc]
  have keep : ∀ {pc : Tid → Pc Op Cv R} {t : Tid} {p : Pc Op Cv R}, (∀ u, (pc u).doing = (s.pc u).doing) →
      p.doing = (s.pc t).doing → ∀ u, (Function.update pc t p u).doing = (s.pc u).doing := by
    intro pc t p hpc hp u
    rw [put hpc, hp, Function.update_eq_self]
  cases hs with
  | call hpc _ => exact .calls (by rw [hpc]; rfl) rfl (put fun _ => rfl)
  | sleep hr hx => exact .sleeps hr hx (keep (fun _ => rfl) (ready_doing hr).symm)
  | leave hr hx hd =>
    refine .ends hr hx (put fun u => ?_)
    cases hd with
    | none => rfl
    | some hd => exact hd.doing u
  | notify hpc hd => exact .notifies rfl (keep hd.doing (by rw [hpc]; rfl))
  | spurious hpc => exact .stirs rfl (keep (fun _ => rfl) (by rw [hpc]; rfl))
  | ret hpc => exact .returns hpc rfl (put fun _ => rfl)

/-! ## Threads that can move -/

theorem deliver_exists (pc : Tid → Pc Op Cv R) (n : Notify Cv) : ∃ pick pc', deliver pc pick n = some pc' := by
  cases n with
  | all cv => exact ⟨none, _, rfl⟩
  | one cv =>
    by_cases h : ∀ u, (pc u).sleepsOn cv = false
    · exact ⟨none, pc, if_pos h⟩
    · obtain ⟨u, hu⟩ := not_forall.mp h
      exact ⟨some u, _, if_pos (Bool.not_eq_false _ ▸ hu)⟩

theorem deliverHeld_exists (pc : Tid → Pc Op Cv R) (held : Option (Notify Cv)) :
    ∃ pick pc', deliverHeld pc pick held = some pc' := by
  cases held with
  | none => exact ⟨none, pc, rfl⟩
  | some n => exact deliver_exists pc n

theorem can_move (M : Monitor D Op Cv R) (calls : Tid → Op → Bool) (s : State Tid D Op Cv R) {t : Tid}
    (ht : (s.pc t).rests = false) : ∃ a s', Label.Own t a ∧ M.step calls s a = some s' := by
  have section_runs : ∀ op w, (s.pc t).ready = some (op, w) → ∃ a s', Label.Own t a ∧ M.step calls s a = some s' := by
    intro op w hready
    cases hx : M.sect op w s.data with
    | sleep d cv => exact ⟨_, _, .acquire none, by simp only [step, hready, hx]; rfl⟩
    | leave d held later r =>
      obtain ⟨pick, pc, hpc⟩ := deliverHeld_exists s.pc held
      exact ⟨_, _, .acquire pick, by simp only [step, hready, hx, hpc]; rfl⟩
  cases hpc : s.pc t with
  | idle => simp [hpc, Pc.rests] at ht
  | asleep op cv => simp [hpc, Pc.rests] at ht
  | entry op => exact section_runs op false (by rw [hpc]; rfl)
  | woken op cv => exact section_runs op true (by rw [hpc]; rfl)
  | leaving op todo r =>
    cases todo with
    | nil => exact ⟨_, _, .ret, by simp only [step, hpc]; rfl⟩
    | cons n todo =>
      obtain ⟨pick, pc, hdeliver⟩ := deliver_exists s.pc n
      exact ⟨_, _, .notify pick, by simp only [step, hpc, hdeliver]; rfl⟩

/-! ## Efforts -/

theorem Delivers.effort {pc pc' : Tid → Pc Op Cv R} {n : Notify Cv} (h : Delivers pc n pc') (m : Nat) :
    total (effort b m) pc' ≤ total (effort b m) pc + Fintype.card Tid := by
  cases h with
  | @wakes cv u op hu =>
    have hupdate := total_update (Monitor.effort b m) pc u (.woken op cv)
    have hpos : 0 < Fintype.card Tid := Fintype.card_pos_iff.mpr ⟨u⟩
    rw [hu] at hupdate
    simp only [Monitor.effort] at hupdate ⊢
    omega
  | nobody _ => exact Nat.le_add_right ..
  | @everybody cv =>
    have hone : ∀ u, Monitor.effort b m ((pc u).wake cv) ≤ Monitor.effort b m (pc u) + 1 := by
      intro u
      cases pc u with
      | asleep op c => by_cases hc : c = cv <;> simp [Pc.wake, Monitor.effort, hc]
      | _ => exact Nat.le_succ _
    unfold total
    calc ∑ u, Monitor.effort b m ((pc u).wake cv) ≤ ∑ u, (Monitor.effort b m (pc u) + 1) :=
          Finset.sum_le_sum fun u _ => hone u
      _ = _ := by simp only [Finset.sum_add_distrib, Finset.sum_const, Finset.card_univ, smul_eq_mul, Nat.mul_one]

theorem Steps.effort (hM : M.Brief b) {s s' : State Tid D Op Cv R} {a : Label Tid Op} (hs : Steps M calls s a s') :
    total (effort b (Fintype.card Tid)) s'.pc + 1 ≤
      total (effort b (Fintype.card Tid)) s.pc + a.brings b (Fintype.card Tid) := by
  generalize hn : Fintype.card Tid = n
  have put : ∀ (pc : Tid → Pc Op Cv R) (t : Tid) (p : Pc Op Cv R), total (Monitor.effort b n) (Function.update pc t p) +
      Monitor.effort b n (pc t) = total (Monitor.effort b n) pc + Monitor.effort b n p := total_update _
  have ready : ∀ {t op w}, (s.pc t).ready = some (op, w) → Monitor.effort b n (s.pc t) = b * (n + 1) + 2 := by
    intro t op w hr
    cases hpc : s.pc t <;> rw [hpc] at hr <;> first | rfl | cases hr
  cases hs with
  | @call t op hpc _ =>
    have h := put s.pc t (.entry op)
    rw [hpc] at h
    simp only [Monitor.effort, Label.brings] at h ⊢
    omega
  | @sleep t pick op w d cv hr _ =>
    have h := put s.pc t (.asleep op cv)
    rw [ready hr] at h
    simp only [Monitor.effort, Label.brings] at h ⊢
    omega
  | @leave t pick op w d held later r pc hr hx hd =>
    have h := put pc t (.leaving op later r)
    rw [hd.same (ready_not_asleep hr), ready hr] at h
    have hbrief := hM op w _ _ _ _ _ hx
    -- a held notification is one of the `b`, and wakes no more than `n` threads
    have hheld : total (Monitor.effort b n) pc ≤ total (Monitor.effort b n) s.pc + held.toList.length * n := by
      cases hd with
      | none => exact Nat.le_add_right ..
      | some hd =>
        have := hd.effort (b := b) n
        simpa [hn] using this
    have hall : held.toList.length * n + later.length * (n + 1) ≤ b * (n + 1) := by
      calc held.toList.length * n + later.length * (n + 1) ≤ held.toList.length * (n + 1) + later.length * (n + 1) :=
            Nat.add_le_add_right (Nat.mul_le_mul_left _ (Nat.le_succ n)) _
        _ = (held.toList.length + later.length) * (n + 1) := (Nat.add_mul ..).symm
        _ ≤ b * (n + 1) := Nat.mul_le_mul_right _ hbrief
    simp only [Monitor.effort, Label.brings] at h ⊢
    omega
  | @notify t pick op m todo r pc hpc hd =>
    have h := put pc t (.leaving op todo r)
    rw [hd.same (t := t) fun c => by rw [hpc]; rfl, hpc] at h
    have hwakes := hd.effort (b := b) n
    rw [hn] at hwakes
    simp only [Monitor.effort, Label.brings, List.length_cons, Nat.add_mul, Nat.one_mul] at h ⊢
    omega
  | @spurious t op cv hpc =>
    have h := put s.pc t (.woken op cv)
    rw [hpc] at h
    simp only [Monitor.effort, Label.brings] at h ⊢
    omega
  | @ret t op r hpc =>
    have h := put s.pc t .idle
    rw [hpc] at h
    simp only [Monitor.effort, Label.brings, List.length_nil] at h ⊢
    omega

end Monitor

end Interleave
