import Yutil.AtomicRetries
import Yutil.Turns

/-!
# Progress of the atomic queues

Nothing that the other threads do or leave undone stops a call: whoever is in a
call can take a step, and every schedule is through with its calls after a number
of steps that the calls and the spurious failures bound. A claimed ticket is paid
for by its call, which brings two steps for each thread that has to go around its
loop again.
-/

namespace Yutil

open Interleave

namespace Atomic

section
variable {Tid N T : Type} [DecidableEq N] [Counter N]

/-- The steps that are left to a thread among `n`. -/
def effort (n : Nat) (q : AtomicQueue N T) : Frame N T → Nat
  | .idle => 0
  | .done _ _ => 1
  | .exchangeClosed | .loadClosed | .publish _ _ | .release _ _ => 2
  | .construct _ _ | .destroy _ _ => 3
  | .moveOut _ => 4
  | .checkClosed _ => 2 * n + 5
  | .loadEnqueue _ _ => 2 * n + 4
  | .loadSequence _ pos _ => if q.enqueuePos = pos then 2 * n + 3 else 2 * n + 5
  | .claim _ pos _ => if q.enqueuePos = pos then 2 * n + 2 else 2 * n + 4
  | .loadDequeue _ => 2 * n + 5
  | .loadSequencePop pos _ => if q.dequeuePos = pos then 2 * n + 4 else 2 * n + 6
  | .claimPop pos _ => if q.dequeuePos = pos then 2 * n + 3 else 2 * n + 5

/-- What a step brings: the steps of a call, or another round after a spurious failure. -/
def Label.brings (n : Nat) : Label Tid T → Nat
  | .call _ _ => 2 * n + 6
  | .move _ .spurious => 2
  | _ => 0

def takesTicket (q : AtomicQueue N T) (f : Frame N T) : Bool := Side.push.claims q f || Side.pop.claims q f

inductive Label.Own (t : Tid) : Label Tid T → Prop
  | move : Own t (.move t .go)
  | ret : Own t (.ret t)

variable [Elem T] {backoff : Nat → Nat} {c n : Nat} {q q' : AtomicQueue N T} {f f' : Frame N T} {m : Move}

/-- A thread pays for its step, and for the others when it takes a ticket. -/
theorem effort_acts (hn : 0 < n) (hpassed : ∀ (side : Side) pos, side.retries c q f = some pos → side.cursor q ≠ pos)
    (ha : q.Acts backoff c m f q' f') :
    effort n q' f' + 1 + (if m = .go ∧ takesTicket q f = true then (n - 1) * 2 else 0) ≤
      effort n q f + if m = .spurious then 2 else 0 := by
  cases ha with
  | @passed arg pos spins hdif =>
    have hne : q.enqueuePos ≠ pos := hpassed .push pos (if_pos hdif)
    simp [effort, takesTicket, Side.claims, hne]
  | @passedPop pos spins hdif =>
    have hne : q.dequeuePos ≠ pos := hpassed .pop pos (if_pos hdif)
    simp [effort, takesTicket, Side.claims, hne]
  | claim he =>
    simp only [effort, takesTicket, Side.claims, he]
    simp
    omega
  | claimPop he =>
    simp only [effort, takesTicket, Side.claims, he]
    simp
    omega
  | @lost m arg pos spins hl =>
    by_cases he : q.enqueuePos = pos
    · have hspurious : m = .spurious := hl.resolve_left fun h => h.2 he
      simp [effort, he, hspurious]
    · simp only [effort, takesTicket, Side.claims, he, if_true, if_false]
      simp
  | @lostPop m pos spins hl =>
    by_cases he : q.dequeuePos = pos
    · have hspurious : m = .spurious := hl.resolve_left fun h => h.2 he
      simp [effort, he, hspurious]
    · simp only [effort, takesTicket, Side.claims, he, if_true, if_false]
      simp
  | @ready arg pos spins _ | @full arg pos spins _ =>
    by_cases he : q.enqueuePos = pos
    · simp [effort, takesTicket, Side.claims, he]
    · simp [effort, takesTicket, Side.claims, he]
  | @readyPop pos spins _ | @empty pos spins _ =>
    by_cases he : q.dequeuePos = pos
    · simp [effort, takesTicket, Side.claims, he]
    · simp [effort, takesTicket, Side.claims, he]
  | _ => simp [effort, takesTicket, Side.claims]

/-- A ticket that is taken sends another thread around its loop once more. -/
theorem effort_elsewhere (g : Frame N T) (ha : q.Acts backoff c m f q' f') :
    effort n q' g ≤ effort n q g + if m = .go ∧ takesTicket q f = true then 2 else 0 := by
  by_cases htakes : m = .go ∧ takesTicket q f = true
  · rw [if_pos htakes]
    cases g with
    | loadSequence arg pos spins | claim arg pos spins =>
      simp only [effort]
      split_ifs <;> omega
    | loadSequencePop pos spins | claimPop pos spins =>
      simp only [effort]
      split_ifs <;> omega
    | _ => exact Nat.le_add_right ..
  · have same : ∀ side : Side, side.cursor q' = side.cursor q := by
      intro side
      rw [side.cursor_acts ha]
      apply if_neg
      intro h
      apply htakes
      cases side <;> simp [takesTicket, h]
    have hpush : q'.enqueuePos = q.enqueuePos := same .push
    have hpop : q'.dequeuePos = q.dequeuePos := same .pop
    cases g <;> simp [effort, hpush, hpop]

/-- A thread that is in a call can go on, whatever the others have left undone. -/
theorem own_step [DecidableEq Tid] (throwing : Bool) (s : State Tid N T) (t : Tid)
    (h : s.pc t ≠ .idle) : ∃ a s', Label.Own t a ∧ step backoff c throwing s a = some s' := by
  have moves : (s.queue.act backoff c .go (s.pc t)).isSome = true →
      ∃ a s', Label.Own t a ∧ step backoff c throwing s a = some s' := by
    intro hgo
    obtain ⟨x, hx⟩ := Option.isSome_iff_exists.mp hgo
    have hs : step backoff c throwing s (.move t .go) = some ⟨x.1, Function.update s.pc t x.2⟩ := by simp [step, hx]
    exact ⟨_, _, .move, hs⟩
  cases hpc : s.pc t with
  | idle => exact absurd hpc h
  | done k r =>
    have hs : step backoff c throwing s (.ret t) = some ⟨s.queue, Function.update s.pc t .idle⟩ := by simp only [step, hpc]
    exact ⟨_, _, .ret, hs⟩
  | checkClosed arg | claim arg pos spins | claimPop pos spins =>
    refine moves ?_
    simp only [hpc, AtomicQueue.act]
    split <;> rfl
  | loadSequence arg pos spins | loadSequencePop pos spins =>
    refine moves ?_
    simp only [hpc, AtomicQueue.act]
    split_ifs <;> rfl
  | _ =>
    refine moves ?_
    simp [hpc, AtomicQueue.act]

end

section
variable {Tid T : Type} [DecidableEq Tid] [Fintype Tid] {w c : Nat} {backoff : Nat → Nat} {throwing : Bool}
  {s s' : State Tid (BitVec w) T} {a : Label Tid T}

def credit (s : State Tid (BitVec w) T) : Nat := ∑ u, effort (Fintype.card Tid) s.queue (s.pc u)

theorem credit_update (s : State Tid (BitVec w) T) (t : Tid) (f : Frame (BitVec w) T) :
    credit ⟨s.queue, Function.update s.pc t f⟩ + effort (Fintype.card Tid) s.queue (s.pc t) ≤
      credit s + effort (Fintype.card Tid) s.queue f := by
  have h := sum_turn (t := t) (k := 0) (f := fun u => effort (Fintype.card Tid) s.queue (Function.update s.pc t f u))
    (g := fun u => effort (Fintype.card Tid) s.queue (s.pc u)) fun u hu => by simp [Function.update_of_ne hu]
  simpa [credit] using h

/-- The step lemma: each step is paid for, by what is left or by what it brings. -/
theorem credit_step [Elem T] (hc : 2 ≤ c) (hpow : ∃ j, j < w ∧ c = 2 ^ j) (h : Bounded c s)
    (hroom : s.queue.enqueuePos.toNat + c < 2 ^ (w - 1)) (hs : step backoff c throwing s a = some s') :
    credit s' + 1 ≤ credit s + a.brings (Fintype.card Tid) := by
  cases step_spec hs with
  | @call t op hpc =>
    have hsum := credit_update s t (AtomicQueue.enter op)
    have hidle : effort (Fintype.card Tid) s.queue (s.pc t) = 0 := by rw [hpc]; rfl
    have henter : effort (Fintype.card Tid) s.queue (AtomicQueue.enter op) + 1 ≤ 2 * Fintype.card Tid + 6 := by
      cases op <;> simp [AtomicQueue.enter, effort]
    have hbrings : (Label.call t op).brings (Fintype.card Tid) = 2 * Fintype.card Tid + 6 := rfl
    omega
  | @ret t k r hpc =>
    have hsum := credit_update s t .idle
    have hdone : effort (Fintype.card Tid) s.queue (s.pc t) = 1 := by rw [hpc]; rfl
    have hidle : effort (Fintype.card Tid) s.queue (.idle : Frame (BitVec w) T) = 0 := rfl
    have hbrings : (Label.ret t : Label Tid T).brings (Fintype.card Tid) = 0 := rfl
    omega
  | @move t m q f hm ha =>
    have hpassed : ∀ (side : Side) pos, side.retries c s.queue (s.pc t) = some pos → side.cursor s.queue ≠ pos := by
      intro side pos hr he
      have hlt := h.passed hc hpow hroom side t hr
      rw [he] at hlt
      exact Nat.lt_irrefl _ hlt
    have hown := effort_acts (Fintype.card_pos_iff.mpr ⟨t⟩) hpassed ha
    -- the others go around their loops once more when the thread takes a ticket
    have hother : ∀ u, u ≠ t → effort (Fintype.card Tid) q (Function.update s.pc t f u) ≤
        effort (Fintype.card Tid) s.queue (s.pc u) + if m = .go ∧ takesTicket s.queue (s.pc t) = true then 2 else 0 := by
      intro u hu
      rw [Function.update_of_ne hu]
      exact effort_elsewhere (s.pc u) ha
    have hsum := sum_turn hother
    rw [Function.update_self] at hsum
    have hbrings : (Label.move t m : Label Tid T).brings (Fintype.card Tid) = if m = .spurious then 2 else 0 := by
      cases m <;> rfl
    rw [hbrings]
    show ∑ u, effort (Fintype.card Tid) q (Function.update s.pc t f u) + 1 ≤
      ∑ u, effort (Fintype.card Tid) s.queue (s.pc u) + _
    by_cases htakes : m = .go ∧ takesTicket s.queue (s.pc t) = true
    · simp only [if_pos htakes] at hown hsum
      omega
    · simp only [if_neg htakes, Nat.mul_zero] at hown hsum
      omega

theorem run_length [Elem T] (hc : 2 ≤ c) (hpow : ∃ j, j < w ∧ c = 2 ^ j) {as : List (Label Tid T)}
    {x : State Tid (BitVec w) T × List (TicketEvent Tid (BitVec w) T)}
    (h : ((machine Tid (BitVec w) T backoff c throwing).logged (trace c)).exec as = some x)
    (hlt : (pushClaims x.2).length + c < 2 ^ (w - 1)) :
    as.length ≤ (as.map (Label.brings (Fintype.card Tid))).sum := by
  have hback : ∀ y a y', ((machine Tid (BitVec w) T backoff c throwing).logged (trace c)).step y a = some y' →
      (pushClaims y'.2).length + c < 2 ^ (w - 1) → (pushClaims y.2).length + c < 2 ^ (w - 1) := by
    intro y a y' hs hlt
    rw [(Machine.logged_step.mp hs).2, pushClaims_append, List.length_append] at hlt
    omega
  have hrun := (Machine.execFrom_through hback .start h hlt).length (fun y => credit y.1) (Label.brings (Fintype.card Tid)) ?_
  · have hstart : credit (machine Tid (BitVec w) T backoff c throwing).start = 0 := Finset.sum_eq_zero fun _ _ => rfl
    have hrun : credit x.1 + as.length ≤ credit (machine Tid (BitVec w) T backoff c throwing).start + _ := hrun
    omega
  · intro y a y' hy _ hs
    obtain ⟨hb, he⟩ := bounded_reachable hc hpow hy.1 hy.2
    exact credit_step hc hpow hb (he ▸ hy.2) (Machine.logged_step.mp hs).1

end

section
variable {Tid T : Type}

def Label.isCall : Label Tid T → Bool
  | .call _ _ => true
  | _ => false

def Label.isSpurious : Label Tid T → Bool
  | .move _ .spurious => true
  | _ => false

theorem brings_sum (n : Nat) (as : List (Label Tid T)) :
    (as.map (Label.brings n)).sum = (2 * n + 6) * as.countP Label.isCall + 2 * as.countP Label.isSpurious := by
  induction as with
  | nil => rfl
  | cons a as ih =>
    rw [List.map_cons, List.sum_cons, ih, List.countP_cons, List.countP_cons]
    cases a with
    | call t op =>
      simp only [Label.brings, Label.isCall, Label.isSpurious, if_true, Bool.false_eq_true, if_false, Nat.mul_add]
      omega
    | move t m =>
      cases m with
      | spurious =>
        simp only [Label.brings, Label.isCall, Label.isSpurious, if_true, Bool.false_eq_true, if_false, Nat.mul_add]
        omega
      | _ => simp [Label.brings, Label.isCall, Label.isSpurious]
    | ret t => simp [Label.brings, Label.isCall, Label.isSpurious]

end

end Atomic

open Atomic

/-- **No call can be kept from returning.** A thread in a call can always take a step, whatever the other threads do or leave
undone, and every schedule is bounded by its calls and its spurious failures. -/
theorem atomic_calls_return {Tid T : Type} [DecidableEq Tid] [Fintype Tid] [Elem T] {fuel : Nat}
    {requested capacity : BitVec 64} (version : AtomicVersion) (throwing : Bool)
    (hcap : normalizeCapacity fuel requested = some capacity) {as : List (Label Tid T)}
    {x : Atomic.State Tid (BitVec 64) T × List (TicketEvent Tid (BitVec 64) T)}
    (h : (version.ticketed Tid T capacity throwing).exec as = some x) (hlt : (pushClaims x.2).length < 2 ^ 63 - capacity.toNat) :
    as.length ≤ (2 * Fintype.card Tid + 6) * as.countP Label.isCall + 2 * as.countP Label.isSpurious ∧
    ∀ t, x.1.pc t ≠ .idle → ∃ a x', Label.Own t a ∧ (version.ticketed Tid T capacity throwing).step x a = some x' := by
  obtain ⟨hc, hpow⟩ := AtomicVersion.capacity_spec hcap
  rw [AtomicVersion.ticketed_eq] at h ⊢
  constructor
  · rw [← brings_sum]
    exact run_length hc hpow h (by omega)
  · intro t ht
    obtain ⟨a, s', ha, hs⟩ := own_step throwing x.1 t ht
    exact ⟨a, (s', x.2 ++ trace capacity.toNat x.1 a), ha, Machine.logged_step.mpr ⟨hs, rfl⟩⟩

theorem atomic_calls_return_stalled :
    ∃ x, (AtomicVersion.V3.ticketed Bool Nat 2#64 false).exec stalledPush = some x ∧
      ∀ t, x.1.pc t ≠ .idle →
        ∃ a x', Label.Own t a ∧ (AtomicVersion.V3.ticketed Bool Nat 2#64 false).step x a = some x' := by
  have hrun : ((AtomicVersion.V3.ticketed Bool Nat 2#64 false).exec stalledPush).map
      (fun x => decide ((pushClaims x.2).length < 2 ^ 63 - (2#64).toNat)) = some true := by decide
  obtain ⟨x, hx, hpush⟩ := Option.map_eq_some_iff.mp hrun
  have hcap : normalizeCapacity 3 2#64 = some 2#64 := by decide
  exact ⟨x, hx, (atomic_calls_return .V3 false hcap hx (of_decide_eq_true hpush)).2⟩

end Yutil
