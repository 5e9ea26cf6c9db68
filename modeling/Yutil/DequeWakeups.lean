import Yutil.DequeQueues
import Yutil.Wakeups

/-!
# Wakeups of the deque queues

`MutexDequeMpmcQueueV2` notifies one consumer when `queue_` stops being
empty, and nobody for the items that follow. The second of two items pushed
while two consumers sleep therefore has no wakeup of its own: when the woken
consumer takes one item and leaves, the other one stays asleep next to it.
`MutexBlockingQueue` and `MutexDequeMpmcQueueV1` notify for every item, and
`MutexDequeMpmcQueueV3` for every item pushed while its counter is up: in
these each queued item has a wakeup as long as a consumer sleeps, until a woken
`wait_pop` throws and leaves its item behind.
-/

namespace Yutil

open Interleave Monitor

variable {T : Type}

def DequeOp.consumes : DequeOp T → Nat
  | .waitPop _ => 1
  | _ => 0

/-- The section uses up a wakeup, or adds an item, and leaves no wakeup for
what stays queued: a push that does not notify, or a `wait_pop` that throws. -/
def Deque.silent (shouldNotify : Deque T → Bool) (d : Deque T) : DequeOp T → Bool
  | .emplace (.value _) => !d.closed && !shouldNotify d
  | .waitPop false => !d.queue.isEmpty
  | _ => false

def consumerAwake {C R : Type} : Pc (DequeOp T) C R → Bool
  | .entry op | .woken op _ => op.consumes == 1
  | _ => false

section
variable {Tid : Type} [DecidableEq Tid] [Fintype Tid] {e : DequeOp T → Nat}

/-- An item is queued and a consumer sleeps, with no notification outstanding
and no other consumer awake inside `wait_pop`. -/
def LostWakeup (s : State Tid (Deque T) (DequeOp T) Cv (Res T)) : Prop :=
  s.data.queue.isEmpty = false ∧ (∃ t, (s.pc t).sleepsOn .cv = true) ∧ (∀ t, (s.pc t).notifies = false) ∧
    ∀ t, consumerAwake (s.pc t) = false

instance (s : State Tid (Deque T) (DequeOp T) Cv (Res T)) : Decidable (LostWakeup s) :=
  inferInstanceAs (Decidable (_ ∧ _ ∧ _ ∧ _))

/-- More consumers sleep than `notify_one` calls are outstanding, no
`notify_all` is, and no wakeup in flight is left over once each queued item
has one. -/
def Deque.Short (e : DequeOp T → Nat) (s : State Tid (Deque T) (DequeOp T) Cv (Res T)) : Prop :=
  Stranded .cv s.pc ∧ total (allsOn .cv) s.pc = 0 ∧ flight e .cv s.pc ≤ s.data.queue.length

def Deque.Strands (shouldNotify : Deque T → Bool) (e : DequeOp T → Nat) (s : State Tid (Deque T) (DequeOp T) Cv (Res T)) :
    Label Tid (DequeOp T) → Prop
  | .acquire t _ => ((s.pc t).ready.any fun x => s.data.silent shouldNotify x.1) = true ∧ Deque.Short e s
  | _ => False

instance Deque.decidableShort (e : DequeOp T → Nat) (s : State Tid (Deque T) (DequeOp T) Cv (Res T)) :
    Decidable (Deque.Short e s) :=
  inferInstanceAs (Decidable (_ < _ ∧ _ ∧ _))

instance Deque.decidableStrands (n : Deque T → Bool) (e : DequeOp T → Nat) (s : State Tid (Deque T) (DequeOp T) Cv (Res T)) :
    (a : Label Tid (DequeOp T)) → Decidable (Deque.Strands n e s a)
  | .acquire _ _ => inferInstanceAs (Decidable (_ ∧ _))
  | .call _ _ | .notify _ _ | .spurious _ | .ret _ => .isFalse id

/-! ## What keeps the consumers covered -/

def Waits (waitPop : Bool → Bool → Deque T → Exit (Deque T) Cv (Res T)) : Prop :=
  ∀ a w d, (∃ d' : Deque T, waitPop a w d = .sleep d' .cv ∧ d'.queue = []) ∨
    ∃ d' : Deque T, d'.queue = d.queue ∧ waitPop a w d = d'.popFront a

theorem waits_waitPop : Waits (Deque.waitPop (T := T)) := by
  intro a w d
  unfold Deque.waitPop
  split
  · exact .inr ⟨d, rfl, rfl⟩
  · rename_i h
    refine .inl ⟨d, rfl, ?_⟩
    simp only [Bool.or_eq_true, Bool.not_eq_true', not_or, Bool.not_eq_false] at h
    exact List.isEmpty_iff.mp h.2

theorem waits_waitPopCounting : Waits (Deque.waitPopCounting (T := T)) := by
  intro a w ⟨q, c, n⟩
  have key : ∀ n', (∃ d' : Deque T, (if q.isEmpty && !c then .sleep ⟨q, c, n' + 1⟩ .cv
        else (⟨q, c, n'⟩ : Deque T).popFront a) = .sleep d' .cv ∧ d'.queue = []) ∨
      ∃ d' : Deque T, d'.queue = q ∧ (if q.isEmpty && !c then .sleep ⟨q, c, n' + 1⟩ .cv
        else (⟨q, c, n'⟩ : Deque T).popFront a) = d'.popFront a := by
    intro n'
    split
    · rename_i h
      rw [Bool.and_eq_true] at h
      exact .inl ⟨_, rfl, List.isEmpty_iff.mp h.1⟩
    · exact .inr ⟨_, rfl, rfl⟩
  cases w with
  | true => exact key (n - 1)
  | false => exact key n

theorem popFront_no_sleep (d d' : Deque T) (a : Bool) (c : Cv) : d.popFront a ≠ .sleep d' c := by
  unfold Deque.popFront
  cases d.queue with
  | nil => simp
  | cons v rest => cases a <;> simp

theorem deque_sleeps {emplace : Built T → Deque T → Exit (Deque T) Cv (Res T)}
    {waitPop : Bool → Bool → Deque T → Exit (Deque T) Cv (Res T)} {shouldNotify : Deque T → Bool}
    (he : ∀ b d, emplace b d = d.emplaceWith (shouldNotify d) b) (hw : Waits waitPop) {op : DequeOp T} {w : Bool}
    {d d' : Deque T} {c : Cv} (h : (Deque.monitor emplace waitPop).sect op w d = .sleep d' c) :
    op.consumes = 1 ∧ c = .cv ∧ d'.queue = [] := by
  cases op with
  | emplace b =>
    apply absurd ((he b d).symm.trans h)
    unfold Deque.emplaceWith
    split
    · exact nofun
    · cases b <;> exact nofun
  | waitPop a =>
    rcases hw a w d with ⟨d₁, h1, h2⟩ | ⟨d₁, -, h1⟩
    · obtain ⟨rfl, rfl⟩ := Exit.sleep.inj (h1.symm.trans h)
      exact ⟨rfl, rfl, h2⟩
    · exact absurd (h1.symm.trans h) (popFront_no_sleep _ _ _ _)
  | tryPop a => exact absurd h (popFront_no_sleep _ _ _ _)
  | close => cases h

theorem popFront_leaves {d d' : Deque T} {a : Bool} {held : Option (Notify Cv)} {later : List (Notify Cv)} {r : Res T}
    (h : d.popFront a = .leave d' held later r) :
    d.queue = [] ∧ d'.queue = [] ∨ a = true ∧ d'.queue.length + 1 = d.queue.length ∨
      a = false ∧ d.queue ≠ [] ∧ d'.queue = d.queue := by
  unfold Deque.popFront at h
  cases hq : d.queue with
  | nil =>
    rw [hq] at h
    cases h
    exact .inl ⟨rfl, hq⟩
  | cons v rest =>
    rw [hq] at h
    cases a with
    | true => cases h; exact .inr (.inl ⟨rfl, rfl⟩)
    | false => cases h; exact .inr (.inr ⟨rfl, nofun, hq⟩)

theorem deque_awake {emplace : Built T → Deque T → Exit (Deque T) Cv (Res T)}
    {waitPop : Bool → Bool → Deque T → Exit (Deque T) Cv (Res T)} {shouldNotify : Deque T → Bool}
    (he : ∀ b d, emplace b d = d.emplaceWith (shouldNotify d) b) (hw : Waits waitPop)
    (hc : ∀ op, e op ≤ op.consumes) {calls : Tid → DequeOp T → Bool} {s : State Tid (Deque T) (DequeOp T) Cv (Res T)}
    (hr : ((Deque.monitor emplace waitPop).machine calls).Reachable s) {t : Tid} {op : DequeOp T} {w : Bool}
    (hready : (s.pc t).ready = some (op, w)) : awakeOn e .cv (s.pc t) ≤ op.consumes := by
  cases hpc : s.pc t with
  | entry o =>
    rw [hpc] at hready
    cases hready
    exact hc op
  | woken o c =>
    rw [hpc] at hready
    cases hready
    obtain ⟨w, d, d', hx⟩ := op_sleeps hr (.inr hpc)
    rw [(deque_sleeps he hw hx).1]
    simp only [awakeOn]
    split <;> omega
  | _ => rw [hpc] at hready; cases hready

/-- The step lemma of every deque queue: while no step strands a consumer, the sleeping consumers stay covered. -/
theorem deque_covered_step {emplace : Built T → Deque T → Exit (Deque T) Cv (Res T)}
    {waitPop : Bool → Bool → Deque T → Exit (Deque T) Cv (Res T)} {shouldNotify : Deque T → Bool}
    (he : ∀ b d, emplace b d = d.emplaceWith (shouldNotify d) b) (hw : Waits waitPop)
    (hc : ∀ op, e op ≤ op.consumes) {calls : Tid → DequeOp T → Bool}
    {s s' : State Tid (Deque T) (DequeOp T) Cv (Res T)} {a : Label Tid (DequeOp T)}
    (hr : ((Deque.monitor emplace waitPop).machine calls).Reachable s)
    (hs : (Deque.monitor emplace waitPop).step calls s a = some s') (hn : ¬ Deque.Strands shouldNotify e s a)
    (h : Covered e .cv s.data.queue.length s.pc) : Covered e .cv s'.data.queue.length s'.pc := by
  refine Covered.step (fun d => d.queue.length) (step_spec hs) ?_ ?_ h
  · rintro t pick op w d c rfl - hx
    obtain ⟨-, hcv, hq⟩ := deque_sleeps he hw hx
    rw [if_pos hcv, hq]
    rfl
  · rintro t pick op w d held later r rfl hready hx hst hall hneed
    have ha := deque_awake he hw hc hr hready
    have hle : awakeOn e .cv (s.pc t) ≤ flight e .cv s.pc := (weight_le_total ..).trans (Nat.le_add_left ..)
    -- a silent section runs only when a wakeup is to spare
    have spare : s.data.silent shouldNotify op = true → s.data.queue.length < flight e .cv s.pc := fun hsil =>
      Nat.lt_of_not_le fun hf => hn ⟨by rw [hready]; exact hsil, hst, hall, hf⟩
    have pops : ∀ d₁ : Deque T, d₁.queue = s.data.queue → ∀ a, (op = .waitPop a ∨ op = .tryPop a) →
        d₁.popFront a = .leave d held later r →
        d.queue.length + awakeOn e .cv (s.pc t) ≤ flight e .cv s.pc + sent .cv held later := by
      intro d₁ hq a hop hx
      rcases popFront_leaves hx with ⟨-, h2⟩ | ⟨rfl, h2⟩ | ⟨rfl, h2, h3⟩
      · rw [h2]; simp only [List.length_nil]; omega
      · have : op.consumes ≤ 1 := by rcases hop with rfl | rfl <;> simp [DequeOp.consumes]
        rw [hq] at h2
        omega
      · rw [h3, hq]
        rcases hop with rfl | rfl
        · have := spare (by simp [Deque.silent, ← hq, h2])
          simp only [DequeOp.consumes] at ha
          omega
        · simp only [DequeOp.consumes] at ha
          omega
    cases op with
    | emplace b =>
      have hx := (he b s.data).symm.trans hx
      unfold Deque.emplaceWith at hx
      simp only [DequeOp.consumes] at ha
      split at hx
      · cases hx; exact .inr (by omega)
      · rename_i hcl
        cases b with
        | throws _ => cases hx; exact .inr (by omega)
        | value v =>
          cases hx
          simp only [List.length_append, List.length_singleton, sent]
          cases hnt : shouldNotify s.data with
          | true =>
            have : ([.one .cv] : List (Notify Cv)).count (.one .cv) = 1 := rfl
            simp only [ite_true, this]
            exact .inr (by omega)
          | false =>
            have := spare (by simp [Deque.silent, hcl, hnt])
            exact .inr (by omega)
    | waitPop a =>
      rcases hw a w s.data with ⟨d₁, h1, -⟩ | ⟨d₁, h1, h2⟩
      · cases h1.symm.trans hx
      · exact .inr (pops d₁ h1 a (.inl rfl) (h2.symm.trans hx))
    | tryPop a => exact .inr (pops s.data rfl a (.inr rfl) hx)
    | close => cases hx; exact .inl (List.mem_singleton_self _)

omit [DecidableEq Tid] in
theorem covered_not_lost {s : State Tid (Deque T) (DequeOp T) Cv (Res T)}
    (hslept : ∀ t op c, s.pc t = .woken op c → op.consumes = 1)
    (h : Covered DequeOp.consumes .cv s.data.queue.length s.pc) : ¬ LostWakeup s := by
  rintro ⟨hq, ⟨t, ht⟩, hn, ha⟩
  obtain ⟨h1, h2⟩ := nothing_outstanding .cv hn
  have h3 : total (awakeOn DequeOp.consumes .cv) s.pc = 0 := by
    apply Nat.eq_zero_of_not_pos
    intro hp
    obtain ⟨u, hu⟩ := total_pos.mp hp
    have hau := ha u
    cases hpc : s.pc u with
    | entry op =>
      rw [hpc] at hu hau
      cases op <;> simp [awakeOn, DequeOp.consumes, consumerAwake] at hu hau
    | woken op c =>
      rw [hpc] at hau
      simp [consumerAwake, hslept u op c hpc] at hau
    | _ => rw [hpc] at hu; exact absurd hu (Nat.lt_irrefl 0)
  have h4 : 0 < total (asleepOn .cv) s.pc := by
    obtain ⟨op, hop⟩ := sleepsOn_iff.mp ht
    exact total_pos.mpr ⟨t, by simp [hop, asleepOn]⟩
  rw [List.length_eq_zero_iff.mp (h.rest h4 h1 h2 h3)] at hq
  cases hq

theorem deque_run_covered {emplace : Built T → Deque T → Exit (Deque T) Cv (Res T)}
    {waitPop : Bool → Bool → Deque T → Exit (Deque T) Cv (Res T)} {shouldNotify : Deque T → Bool}
    (he : ∀ b d, emplace b d = d.emplaceWith (shouldNotify d) b) (hw : Waits waitPop)
    (hc : ∀ op, e op ≤ op.consumes) {calls : Tid → DequeOp T → Bool} {n : Nat}
    (r : Run ((Deque.monitor emplace waitPop).machine calls) n)
    (hr : ∀ i, i < n → ¬ Deque.Strands shouldNotify e (r.st i) (r.lab i)) (i : Nat) (hi : i ≤ n) :
    Covered e .cv (r.st i).data.queue.length (r.st i).pc := by
  refine r.persists (fun s => Covered e Cv.cv s.data.queue.length s.pc) (Nat.zero_le i) (fun j _ hj h => ?_) ?_
  · exact deque_covered_step he hw hc (r.reachable j (by omega)) (r.step j (by omega)) (hr j (by omega)) h
  · rw [r.start]
    exact fun _ => .inr (Nat.zero_le _)

end

/-! ## `MutexDequeMpmcQueueBaseline` -/

section
variable {Tid : Type} [DecidableEq Tid] [Fintype Tid]

theorem baseline_no_lost_wakeup {calls : Tid → DequeOp T → Bool} {n : Nat}
    (r : Run (MutexDequeMpmcQueueBaseline.monitor.machine calls) n)
    (hr : ∀ i, i < n → ¬ Deque.Strands (fun d => d.queue.isEmpty) DequeOp.consumes (r.st i) (r.lab i)) (i : Nat)
    (hi : i ≤ n) : ¬ LostWakeup (r.st i) := by
  refine covered_not_lost (fun t op _ hpc => ?_)
    (deque_run_covered MutexDequeMpmcQueueV2.emplace_eq waits_waitPop (fun _ => Nat.le_refl _) r hr i hi)
  obtain ⟨w, d, d', hx⟩ := op_sleeps (r.reachable i hi) (.inr hpc)
  exact (deque_sleeps MutexDequeMpmcQueueV2.emplace_eq waits_waitPop hx).1

def oneWakeup : List (Label (Fin 3) (DequeOp Nat)) :=
  [.call 0 (.waitPop true), .acquire 0 none, .call 2 (.emplace (.value 10)), .acquire 2 none, .notify 2 (some 0),
    .ret 2, .acquire 0 none, .ret 0]

theorem baseline_no_lost_wakeup_one :
    ¬ LostWakeup ((Run.ofExec (MutexDequeMpmcQueueBaseline.monitor.machine fun _ _ => true) (.ret 0) oneWakeup
      rfl).st 8) := by
  refine baseline_no_lost_wakeup (Run.ofExec _ (.ret 0) oneWakeup rfl) ?_ 8 (by decide)
  decide

def twoPushes : List (Label (Fin 3) (DequeOp Nat)) :=
  [.call 0 (.waitPop true), .acquire 0 none, .call 1 (.waitPop true), .acquire 1 none,
    .call 2 (.emplace (.value 10)), .acquire 2 none, .notify 2 (some 0), .ret 2,
    .call 2 (.emplace (.value 11)), .acquire 2 none, .ret 2, .acquire 0 none, .ret 0]

theorem baseline_loses_wakeup :
    ∃ s : State (Fin 3) (Deque Nat) (DequeOp Nat) Cv (Res Nat),
      (MutexDequeMpmcQueueBaseline.monitor.machine fun _ op => op.noThrow).Reachable s ∧ LostWakeup s :=
  ⟨_, Machine.exec_reachable twoPushes rfl, by decide⟩

end

/-! ## The queues that notify for every item -/

def DequeOp.takes : DequeOp T → Bool
  | .waitPop assigns => assigns
  | _ => true

section
variable {Tid : Type} [DecidableEq Tid] [Fintype Tid]

/-- If a consumer sleeps, a `notify_all` is outstanding, or as many
`notify_one` calls and woken consumers are on their way as items are queued. -/
def Notified (s : State Tid (Deque T) (DequeOp T) Cv (Res T)) : Prop :=
  0 < total (asleepOn .cv) s.pc →
    0 < total (allsOn .cv) s.pc ∨ s.data.queue.length ≤ total (onesOn .cv) s.pc + total (awakeOn (fun _ => 0) .cv) s.pc

def Deque.wakesInVain (d : Deque T) : DequeOp T × Bool → Bool
  | (.waitPop false, true) => !d.queue.isEmpty
  | _ => false

/-- A consumer sleeps, and no wakeup on its way is left over once each queued item has one. -/
def Deque.Tight (s : State Tid (Deque T) (DequeOp T) Cv (Res T)) : Prop :=
  0 < total (asleepOn .cv) s.pc ∧ total (allsOn .cv) s.pc = 0 ∧
    total (onesOn .cv) s.pc + total (awakeOn (fun _ => 0) .cv) s.pc ≤ s.data.queue.length

def Deque.Wastes (s : State Tid (Deque T) (DequeOp T) Cv (Res T)) : Label Tid (DequeOp T) → Prop
  | .acquire t _ => (s.pc t).ready.any s.data.wakesInVain = true ∧ Deque.Tight s
  | _ => False

instance (s : State Tid (Deque T) (DequeOp T) Cv (Res T)) : Decidable (Notified s) :=
  inferInstanceAs (Decidable (_ → _))

instance Deque.decidableTight (s : State Tid (Deque T) (DequeOp T) Cv (Res T)) : Decidable (Deque.Tight s) :=
  inferInstanceAs (Decidable (_ < _ ∧ _ ∧ _))

instance Deque.decidableWastes (s : State Tid (Deque T) (DequeOp T) Cv (Res T)) :
    (a : Label Tid (DequeOp T)) → Decidable (Deque.Wastes s a)
  | .acquire _ _ => inferInstanceAs (Decidable (_ ∧ _))
  | .call _ _ | .notify _ _ | .spurious _ | .ret _ => .isFalse id

end

def NeverUnderNotifies (M : Monitor (Deque T) (DequeOp T) Cv (Res T)) : Prop :=
  ∀ (Tid : Type) [DecidableEq Tid] [Fintype Tid] (s : State Tid (Deque T) (DequeOp T) Cv (Res T)),
    (M.machine fun _ op => op.takes).Reachable s → Notified s

/-- A run notifies in every state exactly as long as no step of it wastes a wakeup. -/
def NotifiesUnlessWasted (M : Monitor (Deque T) (DequeOp T) Cv (Res T)) : Prop :=
  ∀ (Tid : Type) [DecidableEq Tid] [Fintype Tid] (calls : Tid → DequeOp T → Bool) (n : Nat)
    (r : Run (M.machine calls) n),
    (∀ i, i ≤ n → Notified (r.st i)) ↔ ∀ i, i < n → ¬ Deque.Wastes (r.st i) (r.lab i)

section
variable {Tid : Type} [DecidableEq Tid] [Fintype Tid] {emplace : Built T → Deque T → Exit (Deque T) Cv (Res T)}
  {waitPop : Bool → Bool → Deque T → Exit (Deque T) Cv (Res T)} {shouldNotify : Deque T → Bool}
  {calls : Tid → DequeOp T → Bool} {s s' : State Tid (Deque T) (DequeOp T) Cv (Res T)} {a : Label Tid (DequeOp T)}

/-- The step lemma: a push notifies whenever somebody sleeps, and a wakeup takes an item or there is one to spare. -/
theorem deque_notified_step (he : ∀ b d, emplace b d = d.emplaceWith (shouldNotify d) b) (hw : Waits waitPop)
    (hr : ((Deque.monitor emplace waitPop).machine calls).Reachable s)
    (hN : 0 < total (asleepOn .cv) s.pc → shouldNotify s.data = true)
    (hs : (Deque.monitor emplace waitPop).step calls s a = some s') (hn : ¬ Deque.Wastes s a) (h : Notified s) :
    Notified s' := by
  have h : Backed (fun _ => 0) .cv s.data.queue.length s.pc := h
  refine Backed.step_spare (fun d => d.queue.length) (step_spec hs) ?_ ?_ h
  · intro t op w d c _ hx
    obtain ⟨-, hcv, hq⟩ := deque_sleeps he hw hx
    rw [if_pos hcv, hq]
    rfl
  · rintro t pick op w d held later r rfl hready hx hasleep halls hneed
    have ha := deque_awake he hw (fun _ => Nat.zero_le _) hr hready
    have hle : awakeOn (fun _ => 0) .cv (s.pc t) ≤ flight (fun _ => 0) .cv s.pc :=
      (weight_le_total ..).trans (Nat.le_add_left ..)
    -- a `wait_pop` that was not woken has spent no wakeup
    have fresh : w = false → awakeOn (fun _ => 0) .cv (s.pc t) = 0 := by
      rintro rfl
      cases hpc : s.pc t with
      | entry o => rfl
      | woken o c => rw [hpc] at hready; cases hready
      | _ => rw [hpc] at hready; cases hready
    have pops : ∀ (d₁ : Deque T) b, d₁.queue = s.data.queue → (op = .waitPop b ∨ op = .tryPop b) →
        d₁.popFront b = .leave d held later r →
        d.queue.length = 0 ∨ d.queue.length + awakeOn (fun _ => 0) .cv (s.pc t) ≤ flight (fun _ => 0) .cv s.pc := by
      intro d₁ b hq hop hx
      rcases popFront_leaves hx with ⟨-, h2⟩ | ⟨-, h2⟩ | ⟨rfl, h2, h3⟩
      · exact .inl (by rw [h2]; rfl)
      · have : op.consumes ≤ 1 := by rcases hop with rfl | rfl <;> simp [DequeOp.consumes]
        rw [hq] at h2
        exact .inr (by omega)
      · right
        rw [h3, hq]
        rcases hop with rfl | rfl
        · cases w with
          | false =>
            have := fresh rfl
            omega
          | true =>
            -- the wakeup is spent on nothing, so there is one to spare
            have hspare : s.data.queue.length < flight (fun _ => 0) .cv s.pc := by
              refine Nat.lt_of_not_le fun hfew => hn ⟨?_, hasleep, halls, hfew⟩
              rw [hready, Option.any_some, Deque.wakesInVain]
              rw [hq] at h2
              simpa using h2
            simp only [DequeOp.consumes] at ha
            omega
        · simp only [DequeOp.consumes] at ha
          omega
    cases op with
    | emplace b =>
      have hx := (he b s.data).symm.trans hx
      unfold Deque.emplaceWith at hx
      rw [hN hasleep] at hx
      simp only [DequeOp.consumes] at ha
      split at hx
      · cases hx
        exact .inr (.inr (by omega))
      · cases b with
        | throws _ =>
          cases hx
          exact .inr (.inr (by omega))
        | value v =>
          cases hx
          have hsent : sent Cv.cv none [.one .cv] = 1 := rfl
          simp only [List.length_append, List.length_singleton, ite_true, hsent]
          exact .inr (.inr (by omega))
    | waitPop b =>
      rcases hw b w s.data with ⟨d₁, h1, -⟩ | ⟨d₁, h1, h2⟩
      · cases h1.symm.trans hx
      · have := pops d₁ b h1 (.inl rfl) (h2.symm.trans hx)
        exact .inr (this.imp_right fun h => Nat.le_trans h (Nat.le_add_right ..))
    | tryPop b =>
      have := pops s.data b rfl (.inr rfl) hx
      exact .inr (this.imp_right fun h => Nat.le_trans h (Nat.le_add_right ..))
    | close => cases hx; exact .inl (List.mem_singleton_self _)

theorem Deque.wakesInVain_spec {d : Deque T} {p : Pc (DequeOp T) Cv (Res T)} (h : p.ready.any d.wakesInVain = true) :
    (∃ c, p = .woken (.waitPop false) c) ∧ d.queue ≠ [] := by
  cases p with
  | woken op c =>
    cases op with
    | waitPop b =>
      cases b with
      | true => cases h
      | false => exact ⟨⟨c, rfl⟩, by simpa [Pc.ready, Deque.wakesInVain] using h⟩
    | _ => cases h
  | entry op =>
    cases op with
    | waitPop b => cases b <;> cases h
    | _ => cases h
  | _ => cases h

theorem deque_wasted_step (he : ∀ b d, emplace b d = d.emplaceWith (shouldNotify d) b) (hw : Waits waitPop)
    (hok : ∀ b w (d : Deque T), d.Ok (.waitPop b) (waitPop b w d))
    (hr : ((Deque.monitor emplace waitPop).machine calls).Reachable s)
    (hs : (Deque.monitor emplace waitPop).step calls s a = some s') (hn : Deque.Wastes s a) : ¬ Notified s' := by
  cases a with
  | acquire t pick =>
    obtain ⟨hvain, hasleep, halls, hfew⟩ := hn
    obtain ⟨⟨c, hpc⟩, hq⟩ := Deque.wakesInVain_spec hvain
    obtain ⟨w, d, d', hx⟩ := op_sleeps hr (.inr hpc)
    obtain rfl := (deque_sleeps he hw hx).2.1
    -- the section leaves the item where it is
    obtain ⟨d₁, h1, h2⟩ : ∃ d₁ : Deque T, d₁.queue = s.data.queue ∧ waitPop false true s.data = d₁.popFront false := by
      rcases hw false true s.data with ⟨d₁, h1, h2⟩ | h
      · have habs := hok false true s.data
        rw [h1] at habs
        exact absurd ((congrArg Fifo.items habs).symm.trans h2) hq
      · exact h
    have hleave : waitPop false true s.data = .leave d₁ none [] .threw := by
      rw [h2, Deque.popFront]
      split
      · rename_i hnil
        exact absurd (h1.symm.trans hnil) hq
      · rfl
    have hs' : s' = ⟨d₁, Function.update s.pc t (.leaving (.waitPop false) [] .threw)⟩ := by
      have hsect : (Deque.monitor emplace waitPop).sect (.waitPop false) true s.data = .leave d₁ none [] .threw := hleave
      simp only [Monitor.step, hpc, Pc.ready, hsect, deliverHeld, Option.map_some, Option.some.injEq] at hs
      exact hs.symm
    have h1' := total_update (asleepOn Cv.cv) s.pc t (.leaving (.waitPop false) [] .threw)
    have h2' := total_update (allsOn Cv.cv) s.pc t (.leaving (.waitPop false) [] .threw)
    have h3' := total_update (onesOn Cv.cv) s.pc t (.leaving (.waitPop false) [] .threw)
    have h4' := total_update (awakeOn (fun _ => 0) Cv.cv) s.pc t (.leaving (.waitPop false) [] .threw)
    rw [hpc] at h1' h2' h3' h4'
    simp only [asleepOn, allsOn, onesOn, awakeOn, List.count_nil, ite_true] at h1' h2' h3' h4'
    rw [hs']
    intro h
    rcases h (by simp only; omega) with h | h
    · simp only at h
      omega
    · simp only [h1] at h
      omega
  | _ => exact hn.elim

theorem deque_never_under_notifies (shouldNotify : Deque T → Bool) (he : ∀ b d, emplace b d = d.emplaceWith (shouldNotify d) b)
    (hw : Waits waitPop)
    (hN : ∀ (Tid : Type) [DecidableEq Tid] [Fintype Tid] (s : State Tid (Deque T) (DequeOp T) Cv (Res T)),
      ((Deque.monitor emplace waitPop).machine fun _ op => op.takes).Reachable s → 0 < total (asleepOn .cv) s.pc →
        shouldNotify s.data = true) : NeverUnderNotifies (Deque.monitor emplace waitPop) := by
  intro Tid _ _ s hr
  refine hr.invariant (I := Notified) (fun _ => .inr (Nat.zero_le _)) ?_
  intro s a s' hr h hs
  refine deque_notified_step he hw hr (hN _ s hr) hs (fun hwaste => ?_) h
  cases a with
  | acquire t pick =>
    obtain ⟨⟨c, hpc⟩, -⟩ := Deque.wakesInVain_spec hwaste.1
    cases op_called hr (t := t) (by rw [hpc]; rfl)
  | _ => exact hwaste

theorem deque_notifies (shouldNotify : Deque T → Bool) (he : ∀ b d, emplace b d = d.emplaceWith (shouldNotify d) b)
    (hw : Waits waitPop) (hok : ∀ b w (d : Deque T), d.Ok (.waitPop b) (waitPop b w d))
    (hN : ∀ (Tid : Type) [DecidableEq Tid] [Fintype Tid] (calls : Tid → DequeOp T → Bool)
      (s : State Tid (Deque T) (DequeOp T) Cv (Res T)), ((Deque.monitor emplace waitPop).machine calls).Reachable s →
        0 < total (asleepOn .cv) s.pc → shouldNotify s.data = true) :
    NotifiesUnlessWasted (Deque.monitor emplace waitPop) := by
  intro Tid _ _ calls n r
  constructor
  · intro h i hi hwaste
    exact deque_wasted_step he hw hok (r.reachable i (by omega)) (r.step i hi) hwaste (h (i + 1) hi)
  · intro h i hi
    refine r.persists Notified (Nat.zero_le i) (fun j _ hj hnot => ?_) ?_
    · have hr := r.reachable j (by omega)
      exact deque_notified_step he hw hr (hN Tid calls _ hr) (r.step j (by omega)) (h j (by omega)) hnot
    · rw [r.start]
      exact fun _ => .inr (Nat.zero_le _)

/-! ### V3's counter -/

theorem deque_inside (he : ∀ b d, emplace b d = d.emplaceWith (shouldNotify d) b) (hw : Waits waitPop)
    {calls : Tid → DequeOp T → Bool} {s : State Tid (Deque T) (DequeOp T) Cv (Res T)}
    (hr : ((Deque.monitor emplace waitPop).machine calls).Reachable s) {t : Tid} {op : DequeOp T} {w : Bool}
    (hready : (s.pc t).ready = some (op, w)) :
    insideOn .cv (s.pc t) = (if w then 1 else 0) ∧ (w = true → ∃ a, op = .waitPop a) := by
  cases hpc : s.pc t with
  | entry o =>
    rw [hpc] at hready
    cases hready
    exact ⟨rfl, by simp⟩
  | woken o c =>
    rw [hpc] at hready
    cases hready
    obtain ⟨w, d, d', hx⟩ := op_sleeps hr (.inr hpc)
    obtain ⟨hop, rfl, -⟩ := deque_sleeps he hw hx
    refine ⟨by simp [insideOn], fun _ => ?_⟩
    cases op with
    | waitPop a => exact ⟨a, rfl⟩
    | _ => cases hop
  | _ => rw [hpc] at hready; cases hready

theorem popFront_counts {d d' : Deque T} {a : Bool} {held : Option (Notify Cv)} {later : List (Notify Cv)} {r : Res T}
    (h : d.popFront a = .leave d' held later r) : d'.waitingConsumers = d.waitingConsumers := by
  unfold Deque.popFront at h
  split at h
  · cases h; rfl
  · cases a <;> cases h <;> rfl

theorem waitPopCounting_counts (a w : Bool) (d : Deque T) :
    (∀ d' c, d.waitPopCounting a w = .sleep d' c →
      d'.waitingConsumers = d.waitingConsumers - (if w then 1 else 0) + 1 ∧ c = .cv) ∧
    ∀ d' held later r, d.waitPopCounting a w = .leave d' held later r →
      d'.waitingConsumers = d.waitingConsumers - if w then 1 else 0 := by
  have key : ∀ d₁ : Deque T, d₁.waitingConsumers = d.waitingConsumers - (if w then 1 else 0) →
      ∀ x, (if d₁.queue.isEmpty && !d₁.closed then
        .sleep { d₁ with waitingConsumers := d₁.waitingConsumers + 1 } .cv else d₁.popFront a) = x →
      (∀ d' c, x = .sleep d' c → d'.waitingConsumers = d.waitingConsumers - (if w then 1 else 0) + 1 ∧ c = .cv) ∧
      ∀ d' held later r, x = .leave d' held later r → d'.waitingConsumers = d.waitingConsumers - if w then 1 else 0 := by
    intro d₁ h x hx
    subst hx
    split
    · constructor
      · intro d' c hx
        cases hx
        exact ⟨congrArg (· + 1) h, rfl⟩
      · intro d' held later r hx
        cases hx
    · constructor
      · intro d' c hx
        exact absurd hx (popFront_no_sleep _ _ _ _)
      · intro d' held later r hx
        rw [popFront_counts hx, h]
  cases w with
  | true => exact key { d with waitingConsumers := d.waitingConsumers - 1 } rfl _ rfl
  | false => exact key d rfl _ rfl

theorem waiting_consumers (he : ∀ b d, emplace b d = d.emplaceWith (shouldNotify d) b) {calls : Tid → DequeOp T → Bool}
    {s : State Tid (Deque T) (DequeOp T) Cv (Res T)}
    (hr : ((Deque.monitor emplace Deque.waitPopCounting).machine calls).Reachable s) :
    s.data.waitingConsumers = total (insideOn .cv) s.pc := by
  refine hr.invariant (I := fun s => s.data.waitingConsumers = total (insideOn .cv) s.pc) ?_ ?_
  · exact (Finset.sum_eq_zero fun _ _ => rfl).symm
  · intro s a s' hr h hs
    refine Counted.step Deque.waitingConsumers (step_spec hs) ?_ ?_ h
    · intro t op w d c hready hx
      obtain ⟨h1, h2⟩ := deque_inside he waits_waitPopCounting hr hready
      have hle := weight_le_total (insideOn .cv) s.pc t
      cases op with
      | waitPop a =>
        obtain ⟨hd, rfl⟩ := (waitPopCounting_counts a w s.data).1 d c hx
        rw [if_pos rfl]
        omega
      | _ => exact absurd (deque_sleeps he waits_waitPopCounting hx).1 (by simp [DequeOp.consumes])
    · intro t op w d held later r hready hx
      obtain ⟨h1, h2⟩ := deque_inside he waits_waitPopCounting hr hready
      have hle := weight_le_total (insideOn .cv) s.pc t
      have unwoken : (∀ a, op ≠ .waitPop a) → d.waitingConsumers = s.data.waitingConsumers →
          d.waitingConsumers + insideOn .cv (s.pc t) = s.data.waitingConsumers := by
        intro hne hd
        cases w with
        | true => obtain ⟨a, ha⟩ := h2 rfl; exact absurd ha (hne a)
        | false => simp [h1, hd]
      cases op with
      | waitPop a =>
        have hd := (waitPopCounting_counts a w s.data).2 d held later r hx
        omega
      | emplace b =>
        apply unwoken (by simp)
        have hx := (he b s.data).symm.trans hx
        unfold Deque.emplaceWith at hx
        split at hx
        · cases hx; rfl
        · cases b <;> cases hx <;> rfl
      | tryPop a => exact unwoken (by simp) (popFront_counts hx)
      | close => cases hx; exact unwoken (by simp) rfl

end

theorem never_under_notify : NotifiesUnlessWasted (MutexBlockingQueue.monitor (T := T)) ∧
    NotifiesUnlessWasted (MutexDequeMpmcQueueV1.monitor (T := T)) ∧
    NotifiesUnlessWasted (MutexDequeMpmcQueueV3.monitor (T := T)) := by
  refine ⟨?_, ?_, ?_⟩
  · exact deque_notifies (fun _ => true) MutexBlockingQueue.emplace_eq waits_waitPop waitPop_ok fun _ _ _ _ _ _ _ => rfl
  · exact deque_notifies (fun _ => true) MutexDequeMpmcQueueV1.emplace_eq waits_waitPop waitPop_ok fun _ _ _ _ _ _ _ => rfl
  · apply deque_notifies _ MutexDequeMpmcQueueV3.emplace_eq waits_waitPopCounting waitPopCounting_ok
    intro Tid _ _ calls s hr hasleep
    have hcount := waiting_consumers MutexDequeMpmcQueueV3.emplace_eq hr
    have hinside := inside_total .cv s.pc
    exact decide_eq_true (by omega)

def wakeInVain : List (Label (Fin 3) (DequeOp Nat)) :=
  [.call 0 (.waitPop false), .acquire 0 none, .call 1 (.waitPop true), .acquire 1 none, .call 2 (.emplace (.value 10)),
    .acquire 2 none, .notify 2 (some 0), .ret 2, .acquire 0 none]

theorem under_notifies :
    (∃ s : State (Fin 3) (Deque Nat) (DequeOp Nat) Cv (Res Nat),
      (MutexBlockingQueue.monitor.machine fun _ _ => true).Reachable s ∧ ¬ Notified s) ∧
    (∃ s : State (Fin 3) (Deque Nat) (DequeOp Nat) Cv (Res Nat),
      (MutexDequeMpmcQueueV1.monitor.machine fun _ _ => true).Reachable s ∧ ¬ Notified s) ∧
    ∃ s : State (Fin 3) (Deque Nat) (DequeOp Nat) Cv (Res Nat),
      (MutexDequeMpmcQueueV3.monitor.machine fun _ _ => true).Reachable s ∧ ¬ Notified s :=
  ⟨⟨_, Machine.exec_reachable wakeInVain rfl, by decide⟩, ⟨_, Machine.exec_reachable wakeInVain rfl, by decide⟩,
    ⟨_, Machine.exec_reachable wakeInVain rfl, by decide⟩⟩

end Yutil
