import Yutil.Client
import Mathlib.Algebra.BigOperators.Intervals

/-!
# Every run of a client ends

A client of a blocking queue gets stuck only when a producer and all consumers
sleep, which no queue but `RingMutexMpmcQueueV3` lets happen. Its runs are
bounded, up to spurious wakeups, by the calls that its values are worth. When it
has ended each value was consumed once, and the tests' sums are what they expect
while the expectation itself does not overflow.
-/

namespace Yutil

open Interleave Monitor

namespace Client

variable {P C D Op T : Type} [Fintype P] [DecidableEq P] [DecidableEq C] [Fintype C] {M : Monitor D Op Cv (Res T)}
  {event : Op → Res T → Event T} {room : Nat → Prop} {Inv : D → Prop} {abs : D → Fifo T} {ends : Ends Op T}
  {key : T → BitVec 64} {pushes : P → List T} {s s' : Client P C D Op T} {log : List (Party P C × Event T)}
  {a : Label (Party P C)}

/-! ## Some thread can move -/

/-- In an open queue whose threads are all idle or asleep, no push waits while a `wait_pop` does. -/
def NeverHalts {D Op T : Type} (M : Monitor D Op Cv (Res T)) (calls : Op → Bool) (closed : D → Bool) (ends : Ends Op T) :
    Prop :=
  ∀ (Tid : Type) [DecidableEq Tid] [Fintype Tid] (s : State Tid D Op Cv (Res T)),
    (M.machine fun (_ : Tid) op => calls op).Reachable s → closed s.data = false → (∀ t, (s.pc t).rests = true) →
    ∀ t u v c c', s.pc t = .asleep (ends.push v) c → s.pc u ≠ .asleep ends.waitPop c'

theorem mon_reachable {calls : Op → Bool} (h1 : ∀ v, calls (ends.push v) = true) (h2 : calls ends.waitPop = true)
    (h3 : calls ends.close = true) (hr : (machine C M ends key pushes).Reachable s) :
    (M.machine fun (_ : Party P C) op => calls op).Reachable s.mon := by
  refine hr.invariant (I := fun s => (M.machine fun (_ : Party P C) op => calls op).Reachable s.mon) .start ?_
  intro s a s' _ ih hs
  obtain ⟨b, hb, hm, -⟩ := step_iff.mp hs
  refine .step ih (a := b) ?_
  show M.step (fun _ op => calls op) s.mon b = some s'.mon
  rw [← hm]
  cases a with
  | call t =>
    obtain ⟨op, hop, rfl⟩ := Option.map_eq_some_iff.mp hb
    have hcall : calls op = true := by
      rcases t with p | c | u
      · obtain ⟨v, -, rfl⟩ := Option.map_eq_some_iff.mp hop
        exact h1 v
      · simp only [next] at hop
        split at hop <;> cases hop
        exact h2
      · simp only [next] at hop
        split at hop <;> cases hop
        exact h3
    simp only [Monitor.step, hcall]
  | _ => cases hb; rfl

theorem own_step {t : Party P C} {b : Monitor.Label (Party P C) Op} {m : State (Party P C) D Op Cv (Res T)}
    (hown : Monitor.Label.Own t b) (hm : M.step (fun _ _ => true) s.mon b = some m) :
    ∃ a s', a.stirs = false ∧ s.step M ends key a = some s' := by
  have run : ∀ a, s.action ends a = some b → a.stirs = false → ∃ a s', a.stirs = false ∧ s.step M ends key a = some s' := by
    intro a ha hstirs
    refine ⟨a, s.note key m a, hstirs, ?_⟩
    simp only [step, ha, Option.bind_some, hm, Option.map_some]
  cases hown with
  | acquire pick => exact run (.acquire t pick) rfl rfl
  | notify pick => exact run (.notify t pick) rfl rfl
  | ret => exact run (.ret t) rfl rfl

theorem call_step {t : Party P C} {op : Op} (hpc : s.mon.pc t = .idle) (hop : s.next ends t = some op) :
    ∃ a s', a.stirs = false ∧ s.step M ends key a = some s' := by
  have hm : M.step (fun _ _ => true) s.mon (.call t op) = some ⟨s.mon.data, Function.update s.mon.pc t (.entry op)⟩ := by
    simp only [Monitor.step, hpc, if_pos]
  refine ⟨.call t, s.note key ⟨s.mon.data, Function.update s.mon.pc t (.entry op)⟩ (.call t), rfl, ?_⟩
  simp only [step, action, hop, Option.map_some, Option.bind_some, hm]

theorem ended_shut (hS : Serves M event room Inv abs ends) (hr : (recorded C M event ends key pushes).Reachable (s, log))
    {t : Party P C} (ht : (t, .finish) ∈ log) : abs s.mon.data = ⟨[], true⟩ := by
  obtain ⟨before, after, rfl⟩ := List.append_of_mem ht
  obtain ⟨f, -, hp⟩ := (refines_path hS.refines (recorded_mon hr)).2.split
  cases hp with
  | cons hd hp =>
    cases hd with
    | finish => exact (hp.finished rfl).1

theorem live [Nonempty C] (hS : Serves M event room Inv abs ends) {calls : Op → Bool} (h1 : ∀ v, calls (ends.push v) = true)
    (h2 : calls ends.waitPop = true) (h3 : calls ends.close = true)
    (hN : NeverHalts M calls (fun d => (abs d).closed) ends) (hr : (machine C M ends key pushes).Reachable s) :
    s.Finished ∨ ∃ a s', a.stirs = false ∧ s.step M ends key a = some s' := by
  by_contra hstuck
  obtain ⟨hnot, hno⟩ := not_or.mp hstuck
  obtain ⟨log, hlog⟩ := Machine.reachable_logged
    (fun s a => ((s.action ends a).map (emits M event s.mon)).getD []) hr
  have hknown := known_reachable hS hlog
  have hmon := mon_reachable h1 h2 h3 hr
  have rests : ∀ t, (s.mon.pc t).rests = true := by
    intro t
    by_contra ht
    obtain ⟨b, m, hown, hm⟩ := can_move M (fun _ _ => true) s.mon (Bool.eq_false_iff.mpr ht)
    exact hno (own_step hown hm)
  have spent : ∀ t, s.mon.pc t = .idle → s.next ends t = none := by
    intro t ht
    by_contra hne
    obtain ⟨op, hop⟩ := Option.ne_none_iff_exists'.mp hne
    exact hno (call_step ht hop)
  have hmain : s.mon.pc (.inr (.inr ())) = .idle := by
    have hp := hknown.parts (.inr (.inr ()))
    have hrests := rests (.inr (.inr ()))
    cases hpc : s.mon.pc (.inr (.inr ())) with
    | idle => rfl
    | asleep op c =>
      simp only [Part, hpc, Pc.doing, Shuts] at hp
      obtain ⟨w, d, d', hx⟩ := op_sleeps hmon (.inl hpc)
      rw [hp.1] at hx
      exact absurd hx hS.awake
    | _ => rw [hpc] at hrests; cases hrests
  have hclosed : (abs s.mon.data).closed = s.shut := by
    have hp := hknown.parts (.inr (.inr ()))
    simpa only [Part, hmain, Pc.doing, Shuts] using hp
  cases hshut : s.shut with
  | true =>
    -- nobody is left to wake the sleepers of a closed queue, so there are none
    have idle : ∀ t, s.mon.pc t = .idle := by
      intro t
      cases hpc : s.mon.pc t with
      | idle => rfl
      | asleep op c =>
        obtain ⟨u, op', todo, r, -, hu, -⟩ := hS.closes.owed hmon (hclosed.trans hshut) hpc
        have := rests u
        rw [hu] at this
        cases this
      | _ => have := rests t; rw [hpc] at this; cases this
    refine hnot ⟨hshut, by rw [hmain]; rfl, fun c => ?_⟩
    have hnext := spent _ (idle (.inr (.inl c)))
    simp only [next] at hnext
    split at hnext
    · assumption
    · cases hnext
  | false =>
    have hnext := spent _ hmain
    simp only [next, hshut, true_and] at hnext
    split at hnext
    · cases hnext
    rename_i hall
    obtain ⟨p, hp⟩ := not_forall.mp hall
    have hsleep : ∃ v c, s.mon.pc (.inl p) = .asleep (ends.push v) c := by
      have hpart := hknown.parts (.inl p)
      have hrests := rests (.inl p)
      cases hpc : s.mon.pc (.inl p) with
      | idle =>
        have hleft := spent _ hpc
        simp only [next, Option.map_eq_none_iff, List.head?_eq_none_iff] at hleft
        simp [unfinished, hleft, hpc, Pc.op?] at hp
      | asleep op c =>
        simp only [Part, hpc, Pc.doing, Sends] at hpart
        obtain ⟨v, rfl, -⟩ := hpart
        exact ⟨v, c, rfl⟩
      | _ => rw [hpc] at hrests; cases hrests
    obtain ⟨v, c, hpush⟩ := hsleep
    obtain ⟨x⟩ := ‹Nonempty C›
    have hpart := hknown.parts (.inr (.inl x))
    have hrests := rests (.inr (.inl x))
    cases hpc : s.mon.pc (.inr (.inl x)) with
    | idle =>
      have hexit := spent _ hpc
      simp only [next] at hexit
      split at hexit
      · rename_i hx
        simp only [Part, hpc, Pc.doing, Takes] at hpart
        have habs := ended_shut hS hlog (hpart.2 hx)
        rw [habs, hshut] at hclosed
        cases hclosed
      · cases hexit
    | asleep op c' =>
      simp only [Part, hpc, Pc.doing, Takes] at hpart
      rw [hpart.1] at hpc
      exact hN _ s.mon hmon (hclosed.trans hshut) rests _ _ v c c' hpush hpc
    | _ => rw [hpc] at hrests; cases hrests

/-! ## Runs are bounded -/

/-- The calls that a thread is still to make: two for a value, which is to be
pushed and popped, one for the `false` that ends a consumer, and one for `close`. -/
def worth (s : Client P C D Op T) (u : Party P C) : Nat :=
  match u with
  | .inl p => 2 * (s.left p).length + match (s.mon.pc u).doing with
    | .calling _ => 1
    | _ => 0
  | .inr (.inl c) =>
    match (s.mon.pc u).doing with
    | .nothing => if s.exited c then 0 else 1
    | .calling _ => 0
    | .returning _ r => match r with
      | .popped none => 0
      | _ => 1
  | .inr (.inr _) => if s.shut then 0 else 1

def Label.calls {Tid : Type} : Label Tid → Nat
  | .call _ => 1
  | _ => 0

def credit (abs : D → Fifo T) (s : Client P C D Op T) : Nat := ∑ u, worth s u + (abs s.mon.data).items.length

omit [Fintype P] [DecidableEq P] [DecidableEq C] [Fintype C] in
theorem worth_other (abs : D → Fifo T) {u : Party P C} (hk : Keeps abs s s' u) (hdoing : (s'.mon.pc u).doing = (s.mon.pc u).doing) :
    worth s' u = worth s u := by
  rcases u with p | c | u
  · simp only [worth, hdoing, show s'.left p = s.left p from hk]
  · simp only [worth, hdoing, show s'.exited c = s.exited c from hk.2]
  · simp only [worth, hk.1]

theorem sum_change {f g : Party P C → Nat} {t : Party P C} (h : ∀ u, u ≠ t → f u = g u) :
    ∑ u, f u + g t = ∑ u, g u + f t := by
  rw [← Finset.add_sum_erase _ f (Finset.mem_univ t), ← Finset.add_sum_erase _ g (Finset.mem_univ t)]
  have hrest : ∑ u ∈ Finset.univ.erase t, f u = ∑ u ∈ Finset.univ.erase t, g u :=
    Finset.sum_congr rfl fun u hu => h u (Finset.ne_of_mem_erase hu)
  omega

def adds : Event T → Nat
  | .accept _ => 1
  | _ => 0

def drops : Event T → Nat
  | .take _ => 1
  | _ => 0

omit [Fintype P] [DecidableEq P] [DecidableEq C] [Fintype C] in
theorem does_length {f g : Fifo T} {e : Event T} (h : f.Does room e g) : g.items.length + drops e = f.items.length + adds e := by
  cases h with
  | accept _ => simp [drops, adds]
  | take => simp [drops, adds]
  | _ => rfl

/-- A call uses up one of the calls to come, and no other step adds to them. -/
theorem credit_step (hS : Serves M event room Inv abs ends) {log' : List (Party P C × Event T)}
    (hr : (recorded C M event ends key pushes).Reachable (s, log))
    (hs : (recorded C M event ends key pushes).step (s, log) a = some (s', log')) :
    credit abs s' + a.calls ≤ credit abs s := by
  obtain ⟨l, rfl, ht⟩ := turn hs
  have hi := (refines_path hS.refines (recorded_mon hr)).1
  have hknown := known_reachable hS hr
  -- what thread `t` gains or loses is what the client does
  have change : ∀ t, (∀ u, u ≠ t → worth s' u = worth s u) → ∀ k, worth s' t + (abs s'.mon.data).items.length + k ≤
      worth s t + (abs s.mon.data).items.length → credit abs s' + k ≤ credit abs s := by
    intro t hother k hk
    have hsum := sum_change hother
    unfold credit
    omega
  cases ht with
  | @calls t op hop hpc hd hall he hl =>
    have self : (s'.mon.pc t).doing = .calling op := (hall t).trans (Function.update_self ..)
    have hother : ∀ u, u ≠ t → worth s' u = worth s u := by
      intro u hu
      refine worth_other abs ?_ ((hall u).trans (Function.update_of_ne hu ..))
      rw [he]
      exact note_keeps hd hu (.inl rfl)
    refine change t hother 1 ?_
    rw [hd]
    obtain ⟨m, left, tally, exited, total, shut⟩ := s'
    rcases t with p | c | u
    · obtain ⟨v, hv, rfl⟩ := Option.map_eq_some_iff.mp hop
      obtain ⟨rest, hrest⟩ := List.head?_eq_some_iff.mp hv
      simp only [note, mk.injEq, true_and] at he
      obtain ⟨rfl, rfl, rfl, rfl, rfl⟩ := he
      simp only [worth, self, hpc, hrest, Function.update_self, List.tail_cons, List.length_cons]
      omega
    · simp only [next] at hop
      split at hop
      · cases hop
      · rename_i hexit
        simp only [worth, self, hpc, if_neg hexit]
        omega
    · simp only [next] at hop
      split at hop
      · rename_i hready
        simp only [note, mk.injEq, true_and] at he
        obtain ⟨rfl, rfl, rfl, rfl, rfl⟩ := he
        simp only [worth, hready.1, ite_true, Bool.false_eq_true, ite_false]
        omega
      · cases hop
  | @leaves t pick op w held later r hpc hx hall he hl =>
    have self : (s'.mon.pc t).doing = .returning op r := (hall t).trans (Function.update_self ..)
    have hlength := does_length (hS.refines.leave hi hx).2
    have hpart := hknown.parts t
    obtain ⟨m, left, tally, exited, total, shut⟩ := s'
    simp only [mk.injEq, true_and] at he
    obtain ⟨rfl, rfl, rfl, rfl, rfl⟩ := he
    have hother : ∀ u, u ≠ t → worth (⟨m, s.left, s.tally, s.exited, s.total, s.shut⟩ : Client P C D Op T) u = worth s u := by
      intro u hu
      refine worth_other (fun _ => Fifo.empty) ?_ ((hall u).trans (Function.update_of_ne hu ..))
      rcases u with q | c | u
      · rfl
      · exact ⟨rfl, rfl⟩
      · exact ⟨rfl, rfl⟩
    refine change t hother 0 ?_
    rcases t with p | c | u
    · simp only [Part, hpc, Sends] at hpart
      obtain ⟨v, rfl, -⟩ := hpart
      simp only [worth, self, hpc]
      rcases hS.push hx with hev | ⟨hev, -⟩
      · rw [hev] at hlength
        simp only [drops, adds] at hlength
        omega
      · rw [hev] at hlength
        simp only [drops, adds] at hlength
        omega
    · simp only [Part, hpc, Takes] at hpart
      obtain ⟨rfl, hexit, -⟩ := hpart
      simp only [worth, self, hpc]
      rcases hS.pop hx with ⟨v, rfl, hev⟩ | ⟨rfl, hev⟩
      · rw [hev] at hlength
        simp only [drops, adds] at hlength ⊢
        omega
      · rw [hev] at hlength
        simp only [drops, adds] at hlength ⊢
        omega
    · simp only [Part, hpc, Shuts] at hpart
      obtain ⟨rfl, -⟩ := hpart
      rw [hS.shut hx] at hlength
      simp only [drops, adds, worth] at hlength ⊢
      omega
  | @returns t op r hpc hd hall he hl =>
    have self : (s'.mon.pc t).doing = .nothing := (hall t).trans (Function.update_self ..)
    have hother : ∀ u, u ≠ t → worth s' u = worth s u := by
      intro u hu
      refine worth_other abs ?_ ((hall u).trans (Function.update_of_ne hu ..))
      rw [he]
      exact note_keeps hd hu (.inr rfl)
    refine change t hother 0 ?_
    rw [hd]
    have hpart := hknown.parts t
    have hbefore : (s.mon.pc t).doing = .returning op r := by rw [hpc]; rfl
    obtain ⟨m, left, tally, exited, total, shut⟩ := s'
    simp only [Part, hbefore] at hpart
    rcases t with p | c | u
    · simp only [note, mk.injEq, true_and] at he
      obtain ⟨rfl, rfl, rfl, rfl, rfl⟩ := he
      simp only [worth, self, hbefore]
      exact Nat.le_refl _
    · obtain ⟨hexit, ⟨v, seen, rfl, -, -⟩ | ⟨rfl, -, -⟩⟩ := hpart
      · simp only [note, hpc, mk.injEq, true_and] at he
        obtain ⟨rfl, rfl, rfl, rfl, rfl⟩ := he
        simp only [worth, self, hbefore, hexit]
        exact Nat.le_refl _
      · simp only [note, hpc, mk.injEq, true_and] at he
        obtain ⟨rfl, rfl, rfl, rfl, rfl⟩ := he
        simp only [worth, self, hbefore, Function.update_self]
        exact Nat.le_refl _
    · simp only [note, mk.injEq, true_and] at he
      obtain ⟨rfl, rfl, rfl, rfl, rfl⟩ := he
      exact Nat.le_refl _
  | quiet hcall hd hall he hl =>
    have habs : abs s'.mon.data = abs s.mon.data := by
      rcases hd with hd | ⟨op, w, v, hx⟩
      · rw [hd]
      · exact (hS.refines.sleep hi hx).2
    obtain ⟨m, left, tally, exited, total, shut⟩ := s'
    simp only [mk.injEq, true_and] at he
    obtain ⟨rfl, rfl, rfl, rfl, rfl⟩ := he
    have hzero : a.calls = 0 := by
      cases a with
      | call t => exact absurd rfl (hcall t)
      | _ => rfl
    rw [hzero]
    have hsame : ∀ u, worth (⟨m, s.left, s.tally, s.exited, s.total, s.shut⟩ : Client P C D Op T) u = worth s u := by
      intro u
      refine worth_other (fun _ => Fifo.empty) ?_ (hall u)
      rcases u with q | c | u
      · rfl
      · exact ⟨rfl, rfl⟩
      · exact ⟨rfl, rfl⟩
    unfold credit
    rw [habs, Finset.sum_congr rfl fun u _ => hsame u]
    exact Nat.le_refl _

omit [Fintype P] [DecidableEq P] [DecidableEq C] [Fintype C] in
theorem stirs_sum (as : List (Label (Party P C))) :
    (as.map fun a => if a.stirs then 2 else 0).sum = 2 * as.countP Label.stirs := by
  induction as with
  | nil => rfl
  | cons a as ih =>
    rw [List.map_cons, List.sum_cons, ih, List.countP_cons]
    cases a.stirs with
    | true =>
      simp only [ite_true]
      omega
    | false => simp

theorem credit_start (key : T → BitVec 64) (hS : Serves M event room Inv abs ends) :
    credit abs (machine C M ends key pushes).start = 2 * ∑ p, (pushes p).length + Fintype.card C + 1 := by
  have hitems : (abs M.start).items.length = 0 := by
    rw [hS.refines.start_abs]
    rfl
  show ∑ u, worth (machine C M ends key pushes).start u + (abs M.start).items.length = _
  rw [hitems, Fintype.sum_sum_type, Fintype.sum_sum_type, Finset.mul_sum]
  simp [worth, machine, Monitor.machine, Pc.doing, Nat.add_assoc]

/-- The effort of the calls under way, and of the calls to come, goes down with each step that is no spurious wakeup. -/
theorem effort_step (hS : Serves M event room Inv abs ends) (hM : M.Brief 2) {log' : List (Party P C × Event T)}
    (hr : (recorded C M event ends key pushes).Reachable (s, log))
    (hs : (recorded C M event ends key pushes).step (s, log) a = some (s', log')) :
    Monitor.total (effort 2 (Fintype.card (Party P C))) s'.mon.pc + (2 * (Fintype.card (Party P C) + 1) + 3) * credit abs s' + 1 ≤
      Monitor.total (effort 2 (Fintype.card (Party P C))) s.mon.pc + (2 * (Fintype.card (Party P C) + 1) + 3) * credit abs s +
        if a.stirs then 2 else 0 := by
  have hcredit := credit_step hS hr hs
  obtain ⟨b, hb, hm, -⟩ := step_iff.mp (Machine.logged_step.mp hs).1
  have heffort := (step_spec hm).effort hM
  generalize Fintype.card (Party P C) = n at heffort ⊢
  have hcalls := Nat.mul_le_mul_left (2 * (n + 1) + 3) hcredit
  rw [Nat.mul_add] at hcalls
  cases a with
  | call t =>
    obtain ⟨op, -, rfl⟩ := Option.map_eq_some_iff.mp hb
    simp only [Monitor.Label.brings, Label.calls, Label.stirs] at heffort hcalls ⊢
    omega
  | spurious t =>
    cases hb
    simp only [Monitor.Label.brings, Label.calls, Label.stirs, ite_true] at heffort hcalls ⊢
    omega
  | _ =>
    cases hb
    simp only [Monitor.Label.brings, Label.calls, Label.stirs] at heffort hcalls ⊢
    omega

theorem bounded (hS : Serves M event room Inv abs ends) (hM : M.Brief 2) {as : List (Label (Party P C))}
    (h : (machine C M ends key pushes).exec as = some s) :
    as.length ≤ (2 * (Fintype.card P + Fintype.card C + 2) + 3) * (2 * ∑ p, (pushes p).length + Fintype.card C + 1) +
      2 * as.countP Label.stirs := by
  obtain ⟨log, hlog⟩ := Machine.logged_exec (fun s a => ((s.action ends a).map (emits M event s.mon)).getD []) [] h
  have hlength := Machine.execFrom_length (M := recorded C M event ends key pushes)
    (I := (recorded C M event ends key pushes).Reachable)
    (fun x => Monitor.total (effort 2 (Fintype.card (Party P C))) x.1.mon.pc +
      (2 * (Fintype.card (Party P C) + 1) + 3) * credit abs x.1)
    (fun a => if a.stirs then 2 else 0) (fun _ _ _ hr hs => .step hr hs)
    (fun _ _ _ hr hs => effort_step hS hM hr hs) .start hlog
  have hcard : Fintype.card (Party P C) = Fintype.card P + (Fintype.card C + 1) := by
    simp [Party]
  have hcredit : credit abs (recorded C M event ends key pushes).start.1 =
      2 * ∑ p, (pushes p).length + Fintype.card C + 1 := credit_start key hS
  have hzero : Monitor.total (effort 2 (Fintype.card (Party P C))) (recorded C M event ends key pushes).start.1.mon.pc = 0 :=
    Finset.sum_eq_zero fun _ _ => rfl
  rw [hzero, hcredit, stirs_sum, Nat.zero_add, hcard] at hlength
  have := Nat.le_trans (Nat.le_add_left ..) hlength
  rwa [show Fintype.card P + (Fintype.card C + 1) + 1 = Fintype.card P + Fintype.card C + 2 by omega] at this

/-! ## What has been consumed -/

omit [Fintype P] [DecidableEq P] [DecidableEq C] [Fintype C] in
theorem sum_by_thread {Tid X A : Type} [DecidableEq Tid] [Fintype X] [DecidableEq X] [AddCommMonoid A] (f : T → A) {g : X → Tid}
    (hg : Function.Injective g) {l : List (Tid × T)} (hl : ∀ x ∈ l, ∃ i, x.1 = g i) :
    ((values l).map f).sum = ∑ i, ((values (l.filter (·.1 = g i))).map f).sum := by
  induction l with
  | nil => simp [values]
  | cons x l ih =>
    obtain ⟨j, hj⟩ := hl x (List.mem_cons_self ..)
    have hhead : ∀ i, ((values ((x :: l).filter (·.1 = g i))).map f).sum =
        (if i = j then f x.2 else 0) + ((values (l.filter (·.1 = g i))).map f).sum := by
      intro i
      by_cases hi : i = j
      · subst hi
        simp [values, hj]
      · have hne : x.1 ≠ g i := fun h => hi (hg (h.symm.trans hj))
        simp [values, hne, hi]
    rw [Finset.sum_congr rfl fun i _ => hhead i, Finset.sum_add_distrib, Finset.sum_ite_eq', if_pos (Finset.mem_univ j),
      ← ih fun y hy => hl y (List.mem_cons_of_mem _ hy)]
    rfl

omit [Fintype P] [DecidableEq P] [DecidableEq C] [Fintype C] in
theorem count_eq (l : List T) : (BitVec.ofNat 64 l.length) = (l.map fun _ => (1 : BitVec 64)).sum := by
  induction l with
  | nil => rfl
  | cons v l ih => rw [List.length_cons, List.map_cons, List.sum_cons, ← ih, BitVec.ofNat_add, add_comm]; rfl

/-- A client that has finished: each producer pushed all its values, what was
pushed was popped, in one order, and the consumers have added it up. -/
structure Consumed (key : T → BitVec 64) (pushes : P → List T) (s : Client P C D Op T) (log : List (Party P C × Event T)) :
    Prop where
  pushed : ∀ p, sentBy log (.inl p) = pushes p
  popped : values (received log) = values (accepted log)
  once : (values (received log) : Multiset T) = ∑ p, (pushes p : Multiset T)
  tally : ∀ c, s.tally c = Tally.of key (takenBy log (.inr (.inl c)))
  total : s.total = Tally.of key (values (received log))

theorem consumed [Nonempty C] (hS : Serves M event room Inv abs ends)
    (hr : (recorded C M event ends key pushes).Reachable (s, log)) (hf : s.Finished) : Consumed key pushes s log := by
  obtain ⟨hshut, -, hexit⟩ := hf
  have hknown := known_reachable hS hr
  have consumer : ∀ c, s.tally c = Tally.of key (takenBy log (.inr (.inl c))) ∧ (.inr (.inl c), .finish) ∈ log := by
    intro c
    have hpart := hknown.parts (.inr (.inl c))
    simp only [Part] at hpart
    cases hd : (s.mon.pc (.inr (.inl c))).doing with
    | nothing =>
      rw [hd] at hpart
      exact ⟨hpart.1, hpart.2 (hexit c)⟩
    | calling op =>
      rw [hd] at hpart
      have := hpart.2.1
      rw [hexit] at this
      cases this
    | returning op r =>
      rw [hd] at hpart
      have := hpart.1
      rw [hexit] at this
      cases this
  have hpushed : ∀ p, sentBy log (.inl p) = pushes p := by
    intro p
    have hpart := hknown.parts (.inl p)
    obtain ⟨hleft, hd⟩ := hknown.joined hshut p
    simp only [Part, hd, hleft, Sends, List.append_nil] at hpart
    exact hpart
  obtain ⟨x⟩ := ‹Nonempty C›
  have hpopped : values (received log) = values (accepted log) := by
    have hbalance := (refines_path hS.refines (recorded_mon hr)).2.balance
    have habs := ended_shut hS hr (consumer x).2
    simp only at hbalance habs
    rw [habs] at hbalance
    simp only [Fifo.empty, List.nil_append, List.append_nil] at hbalance
    exact hbalance.symm
  have hinl : Function.Injective (Sum.inl : P → Party P C) := Sum.inl_injective
  have hinr : Function.Injective (fun c => Sum.inr (Sum.inl c) : C → Party P C) := Sum.inr_injective.comp Sum.inl_injective
  refine ⟨hpushed, hpopped, ?_, fun c => (consumer c).1, ?_⟩
  · have hsum := sum_by_thread (fun v => ({v} : Multiset T)) hinl hknown.senders
    rw [hpopped]
    simpa only [Multiset.sum_map_singleton, ← Multiset.map_coe, ← Multiset.sum_coe, ← hpushed, sentBy] using hsum
  · have hcount := sum_by_thread (fun _ => (1 : BitVec 64)) hinr hknown.takers
    have hsum := sum_by_thread key hinr hknown.takers
    have htotal : s.total = ⟨∑ c, (s.tally c).count, ∑ c, (s.tally c).sum⟩ := by
      have h1 := hknown.count
      have h2 := hknown.sum
      simp only [hexit, ite_true] at h1 h2
      rw [← h1, ← h2]
    rw [htotal]
    simp only [(consumer _).1, Tally.of, count_eq, takenBy]
    rw [← hcount, ← hsum]

/-! ## The sums of the tests -/

def payloads (items : Nat) (payload : BitVec 64 → T) (p : Nat) : List T :=
  (List.range items).map fun i => payload (BitVec.ofNat 64 (p * items) + BitVec.ofNat 64 i + 1)

def expectedSum (total : BitVec 64) : BitVec 64 := total * (total + 1) / 2

omit [Fintype P] [DecidableEq P] [DecidableEq C] [Fintype C] in
theorem payloads_sum {payload : BitVec 64 → T} (hkey : ∀ x, key (payload x) = x) (items p : Nat) :
    ((payloads items payload p).map key).sum = BitVec.ofNat 64 (∑ i ∈ Finset.range items, (p * items + i + 1)) := by
  have prefixes : ∀ n base, ((List.range n).map fun i => BitVec.ofNat 64 base + BitVec.ofNat 64 i + 1).sum =
      BitVec.ofNat 64 (∑ i ∈ Finset.range n, (base + i + 1)) := by
    intro n base
    induction n with
    | zero => rfl
    | succ n ih =>
      rw [List.sum_range_succ, ih, Finset.sum_range_succ, BitVec.ofNat_add, BitVec.ofNat_add, BitVec.ofNat_add]
      rfl
  unfold payloads
  rw [List.map_map, ← prefixes]
  exact congrArg List.sum (List.map_congr_left fun i _ => hkey _)

theorem rows_sum (producers items : Nat) : ∑ p ∈ Finset.range producers, ∑ i ∈ Finset.range items, (p * items + i + 1) =
    ∑ j ∈ Finset.range (producers * items), (j + 1) := by
  induction producers with
  | zero => simp
  | succ k ih => rw [Finset.sum_range_succ, ih, Nat.add_mul, Nat.one_mul, Finset.sum_range_add]

theorem gauss (n : Nat) : 2 * ∑ j ∈ Finset.range n, (j + 1) = n * (n + 1) := by
  have h := Finset.sum_range_id_mul_two (n + 1)
  rw [Finset.sum_range_succ', Nat.add_zero, Nat.add_sub_cancel] at h
  rw [Nat.mul_comm, h, Nat.mul_comm]

omit [Fintype P] [DecidableEq P] [DecidableEq C] [Fintype C] in
theorem payloads_total {payload : BitVec 64 → T} (hkey : ∀ x, key (payload x) = x) (producers items : Nat) :
    ∑ p : Fin producers, ((payloads items payload p).map key).sum =
      BitVec.ofNat 64 (∑ j ∈ Finset.range (producers * items), (j + 1)) := by
  have hrows : ∀ p : Fin producers, ((payloads items payload p).map key).sum =
      BitVec.ofNat 64 (∑ i ∈ Finset.range items, (p * items + i + 1)) := fun p => payloads_sum hkey items p
  rw [Finset.sum_congr rfl fun p _ => hrows p, ← rows_sum, Finset.sum_range]
  simp only [← BitVec.natCast_eq_ofNat, Nat.cast_sum]

/-- The expectation is the sum as long as the sum has not reached the highest bit. -/
theorem expectedSum_iff (n : Nat) : BitVec.ofNat 64 (∑ j ∈ Finset.range n, (j + 1)) = expectedSum (BitVec.ofNat 64 n) ↔
    n * (n + 1) / 2 % 2 ^ 64 < 2 ^ 63 := by
  have hproduct : BitVec.ofNat 64 n * (BitVec.ofNat 64 n + 1) = BitVec.ofNat 64 (n * (n + 1)) := by
    rw [BitVec.ofNat_mul, BitVec.ofNat_add]
    rfl
  unfold expectedSum
  rw [hproduct, ← gauss]
  generalize ∑ j ∈ Finset.range n, (j + 1) = m
  rw [← BitVec.toNat_inj, BitVec.toNat_udiv, BitVec.toNat_ofNat, BitVec.toNat_ofNat, show (2 : BitVec 64).toNat = 2 from rfl]
  omega

theorem checked [Nonempty C] (hS : Serves M event room Inv abs ends) {producers items : Nat} {payload : BitVec 64 → T}
    (hkey : ∀ x, key (payload x) = x) {s : Client (Fin producers) C D Op T}
    (hr : (machine C M ends key fun p : Fin producers => payloads items payload p).Reachable s) (hf : s.Finished) :
    s.total.count = BitVec.ofNat 64 (producers * items) ∧
    (s.total.sum = expectedSum (BitVec.ofNat 64 (producers * items)) ↔
      producers * items * (producers * items + 1) / 2 % 2 ^ 64 < 2 ^ 63) := by
  obtain ⟨log, hlog⟩ := Machine.reachable_logged (fun s a => ((s.action ends a).map (emits M event s.mon)).getD []) hr
  have hdone := consumed hS hlog hf
  have hcount : (values (received log)).length = producers * items := by
    have hcard := congrArg Multiset.card hdone.once
    simpa [Multiset.card_sum, payloads] using hcard
  have hsum : ((values (received log)).map key).sum = BitVec.ofNat 64 (∑ j ∈ Finset.range (producers * items), (j + 1)) := by
    have hmap := congrArg (Multiset.sumAddMonoidHom.comp (Multiset.mapAddMonoidHom key)) hdone.once
    rw [map_sum] at hmap
    exact hmap.trans (payloads_total hkey producers items)
  rw [hdone.total]
  refine ⟨congrArg (BitVec.ofNat 64) hcount, ?_⟩
  rw [← expectedSum_iff, ← hsum]
  rfl

end Client

end Yutil
