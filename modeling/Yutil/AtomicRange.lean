import Yutil.AtomicMiddle
import Yutil.AtomicRetries
import Yutil.AtomicSequential
import Yutil.AtomicLaps

/-!
# The signed comparison

A run has all of its comparisons in range exactly as long as no step meets the
middle of the counters' range. Before the middle is reached none does; of calls
made one after the other, a push into a full queue does, and a pop from an
empty one.
-/

namespace Yutil

open Interleave

namespace Atomic

section
variable {Tid T : Type} {w c : Nat} {s : State Tid (BitVec w) T}

theorem Bounded.comparesInRange (hc : 2 ≤ c) (hpow : ∃ j, j < w ∧ c = 2 ^ j) (h : Bounded c s)
    (hroom : s.queue.enqueuePos.toNat + c < 2 ^ (w - 1)) : ComparesInRange c s := by
  have hle := h.le
  have hhalf := Counter.half_lt hpow
  have hmark : ∀ pos, (s.queue.cell c pos).sequence.toNat < 2 ^ (w - 1) := by
    intro pos
    have := (h.mark hc hpow pos).le (Nat.mod_lt _ (by omega)) hle
    omega
  intro t x hx
  have hw : 0 < w := by
    obtain ⟨j, hj, -⟩ := hpow
    omega
  refine (inRange_iff hw x).mpr fun hs => ?_
  have hf := h.frames t
  generalize s.pc t = f at hx hf
  cases f with
  | loadSequence arg pos spins =>
    cases hx
    have hpos : pos.toNat ≤ s.queue.enqueuePos.toNat := hf
    refine not_straddles (hmark pos) ?_ hs
    show pos.toNat < 2 ^ (w - 1)
    omega
  | loadSequencePop pos spins =>
    cases hx
    have hpos : pos.toNat ≤ s.queue.dequeuePos.toNat := hf
    have hnext : (Counter.plus pos 1).toNat = pos.toNat + 1 := Counter.plus_toNat (by omega)
    refine not_straddles (hmark pos) ?_ hs
    show (Counter.plus pos 1).toNat < 2 ^ (w - 1)
    omega
  | _ => cases hx

end

/-! ## One call at a time -/

/-- A call, made while no other call is going on, at which the counters pass the
middle of their range: a push into a full queue or a pop from an empty one. -/
def AtMiddle {w : Nat} {T : Type} (capacity : BitVec w) (q : AtomicQueue (BitVec w) T) : TryOp T → Prop
  | .tryPush _ => q.enqueuePos - q.dequeuePos = capacity ∧
      (q.dequeuePos + 1).toNat < 2 ^ (w - 1) ∧ 2 ^ (w - 1) ≤ q.enqueuePos.toNat
  | .tryPop => q.enqueuePos = q.dequeuePos ∧ q.dequeuePos.toNat + 1 = 2 ^ (w - 1)

def compares {w : Nat} {T : Type} (c : Nat) (q : AtomicQueue (BitVec w) T) : TryOp T → BitVec w × BitVec w
  | .tryPush _ => ((q.cell c q.enqueuePos).sequence, q.enqueuePos)
  | .tryPop => ((q.cell c q.dequeuePos).sequence, Counter.plus q.dequeuePos 1)

def CallInRange {w : Nat} {Tid T : Type} (M : Machine (State Tid (BitVec w) T) (Label Tid T)) (c : Nat)
    (s : State Tid (BitVec w) T) (t : Tid) (op : TryOp T) : Prop :=
  ∀ (ms : List Move) (s' : State Tid (BitVec w) T), M.execFrom s (.call t op.atomic :: ms.map (.move t)) = some s' →
    ComparesInRange c s'

section
variable {Tid T : Type} {w : Nat} [DecidableEq Tid] [Elem T] {c : Nat} {q : AtomicQueue (BitVec w) T} {xs : List T}
  (hc : ∃ j, 0 < j ∧ j < w ∧ c = 2 ^ j)

include hc

omit [DecidableEq Tid] [Elem T] in
theorem push_straddles (h : q.Holds c xs) : Straddles ((q.cell c q.enqueuePos).sequence, q.enqueuePos) ↔
    xs.length = c ∧ (q.dequeuePos + 1).toNat < 2 ^ (w - 1) ∧ 2 ^ (w - 1) ≤ q.enqueuePos.toNat := by
  obtain ⟨hw, hhalf⟩ := AtomicQueue.le_half hc
  have h2 := AtomicQueue.two_le hc
  have hle := h.length_le
  by_cases hfull : xs.length = c
  · have hlap := Counter.slot_lap (AtomicQueue.pow_lt hc) q.dequeuePos 0
    have hcell : q.cell c q.enqueuePos = q.cell c (Counter.plus q.dequeuePos 0) := by
      rw [h.enqueue, hfull]
      exact congrArg q.cells (by rw [← hlap, Nat.zero_add])
    have henq : q.enqueuePos = Counter.plus (Counter.plus q.dequeuePos 1) (c - 1) := by
      rw [h.enqueue, hfull, Counter.plus_plus, Nat.add_sub_cancel' (by omega)]
    have hseq : (q.cell c q.enqueuePos).sequence = Counter.plus q.dequeuePos 1 := by
      rw [hcell, h.taken 0 (by omega)]
    have hp := Counter.two_halves hw
    have hnext : Counter.plus q.dequeuePos 1 = q.dequeuePos + 1 := rfl
    rw [hseq, henq, straddles_plus hw _ (by omega), ← hnext]
    have hlast : (Counter.plus q.dequeuePos 1).toNat < 2 ^ (w - 1) → (Counter.plus (Counter.plus q.dequeuePos 1) (c - 1)).toNat =
        (Counter.plus q.dequeuePos 1).toNat + (c - 1) := fun hlt => Counter.plus_toNat (by omega)
    constructor
    · rintro ⟨h1, h2⟩
      rw [hlast h1]
      exact ⟨hfull, h1, h2⟩
    · rintro ⟨-, h1, h2⟩
      rw [hlast h1] at h2
      exact ⟨h1, h2⟩
  · have hr := Counter.dif_eq_zero.mp (h.push_ready (by omega))
    have hr : (q.cell c q.enqueuePos).sequence = q.enqueuePos := hr
    rw [hr]
    constructor
    · intro hs
      exact absurd hs (not_straddles_self _)
    · intro hs
      exact absurd hs.1 hfull

omit [DecidableEq Tid] [Elem T] in
theorem pop_straddles (h : q.Holds c xs) : Straddles ((q.cell c q.dequeuePos).sequence, Counter.plus q.dequeuePos 1) ↔
    xs.length = 0 ∧ q.dequeuePos.toNat + 1 = 2 ^ (w - 1) := by
  obtain ⟨hw, hhalf⟩ := AtomicQueue.le_half hc
  have h2 := AtomicQueue.two_le hc
  by_cases hz : xs.length = 0
  · have hcell := h.free 0 (by omega) (by omega)
    rw [Counter.plus_zero] at hcell
    rw [hcell, straddles_plus hw q.dequeuePos (by omega)]
    constructor
    · rintro ⟨h1, h2⟩
      exact ⟨hz, Nat.le_antisymm h1 h2⟩
    · rintro ⟨-, h1⟩
      exact ⟨Nat.lt_of_succ_le (Nat.le_of_eq h1), Nat.le_of_eq h1.symm⟩
  · have hr := Counter.dif_eq_zero.mp (h.pop_ready (by omega))
    have hr : (q.cell c q.dequeuePos).sequence = Counter.plus q.dequeuePos 1 := hr
    rw [hr]
    constructor
    · intro hs
      exact absurd hs (not_straddles_self _)
    · intro hs
      exact absurd hs.1 hz

omit [DecidableEq Tid] [Elem T] in
theorem compares_straddles {capacity : BitVec w} (hcap : c = capacity.toNat) (h : q.Holds c xs) (op : TryOp T) :
    Straddles (compares c q op) ↔ AtMiddle capacity q op := by
  have hle := h.length_le
  have hlt := capacity.isLt
  cases op with
  | tryPush value =>
    have hfull : q.enqueuePos - q.dequeuePos = capacity ↔ xs.length = c := by
      have hsub : q.enqueuePos - q.dequeuePos = BitVec.ofNat w xs.length := by
        rw [h.enqueue]
        show q.dequeuePos + BitVec.ofNat w xs.length - q.dequeuePos = _
        rw [BitVec.add_comm, BitVec.add_sub_cancel]
      rw [hsub]
      constructor
      · intro he
        rw [hcap, ← he, BitVec.toNat_ofNat, Nat.mod_eq_of_lt (by omega)]
      · intro he
        rw [he, hcap, BitVec.ofNat_toNat, BitVec.setWidth_eq]
    unfold AtMiddle
    rw [hfull]
    exact push_straddles hc h
  | tryPop =>
    have hempty : q.enqueuePos = q.dequeuePos ↔ xs.length = 0 := by
      rw [h.enqueue]
      constructor
      · intro he
        have hz : BitVec.ofNat w xs.length = BitVec.ofNat w 0 := BitVec.add_right_eq_self.mp he
        exact Counter.word_inj (by omega) (Nat.two_pow_pos w) hz
      · intro he
        rw [he, Counter.plus_zero]
    unfold AtMiddle
    rw [hempty]
    exact pop_straddles hc h

variable {backoff : Nat → Nat} {s s' : State Tid (BitVec w) T} {t : Tid}

theorem lone_compared (h : AtRest c s xs) (op : TryOp T) {ms : List Move}
    (he : (machine Tid (BitVec w) T backoff c false).execFrom s (.call t op.atomic :: ms.map (.move t)) = some s') {u : Tid}
    {x : BitVec w × BitVec w} (hx : compared c s'.queue (s'.pc u) = some x) : x = compares c s.queue op := by
  obtain ⟨-, ha, hpc, hm⟩ := acts_of_call he
  have ht := acts_track hc h.holds op (.inr h.closed) (fun m hmem he => hm m hmem ⟨he, rfl⟩) ha
  by_cases hu : u = t
  · subst hu
    generalize s'.pc u = f at hx ht
    cases f with
    | loadSequence arg pos spins =>
      cases op with
      | tryPush value =>
        obtain ⟨-, hq, rfl⟩ := ht
        rw [hq] at hx
        exact (Option.some.inj hx).symm
      | tryPop => exact ht.elim
    | loadSequencePop pos spins =>
      cases op with
      | tryPush value => exact ht.elim
      | tryPop =>
        obtain ⟨hq, rfl⟩ := ht
        rw [hq] at hx
        exact (Option.some.inj hx).symm
    | _ => cases hx
  · rw [hpc, Function.update_of_ne hu, h.idle u] at hx
    cases hx

omit hc in
theorem lone_compares (backoff : Nat → Nat) (hidle : s.pc t = .idle) (hopen : s.queue.closed = false) (op : TryOp T) :
    ∃ (ms : List Move) (s' : State Tid (BitVec w) T),
    (machine Tid (BitVec w) T backoff c false).execFrom s (.call t op.atomic :: ms.map (.move t)) = some s' ∧
      compared c s'.queue (s'.pc t) = some (compares c s.queue op) := by
  have enters : ∀ op, (machine Tid (BitVec w) T backoff c false).step s (.call t op) =
      some ⟨s.queue, Function.update s.pc t (AtomicQueue.enter op)⟩ := by
    intro op
    simp only [machine, step, hidle]
  have reaches : ∀ (ms : List Move) (f : Frame (BitVec w) T), (∀ m ∈ ms, m = .go) →
      s.queue.acts backoff c (AtomicQueue.enter op.atomic) ms = some (s.queue, f) →
      compared c s.queue f = some (compares c s.queue op) → ∃ (ms : List Move) (s' : State Tid (BitVec w) T),
        (machine Tid (BitVec w) T backoff c false).execFrom s (.call t op.atomic :: ms.map (.move t)) = some s' ∧
          compared c s'.queue (s'.pc t) = some (compares c s.queue op) := by
    intro ms f hm ha hf
    have he := exec_of_acts (s := ⟨s.queue, Function.update s.pc t (AtomicQueue.enter op.atomic)⟩) (t := t) false
      (fun m hmem hthrow => by rw [hm m hmem] at hthrow; cases hthrow) (by simpa only [Function.update_self] using ha)
    refine ⟨ms, _, (Machine.execFrom_cons (enters _)).trans he, ?_⟩
    simpa only [Function.update_self] using hf
  cases op with
  | tryPush value =>
    refine reaches (List.replicate 2 .go) (.loadSequence value s.queue.enqueuePos 0) (fun m hm => List.eq_of_mem_replicate hm) ?_ rfl
    simp only [List.replicate, AtomicQueue.acts, AtomicQueue.enter, TryOp.atomic, AtomicQueue.act, hopen,
      Bool.false_eq_true, if_false, Option.bind_some]
  | tryPop =>
    exact reaches (List.replicate 1 .go) (.loadSequencePop s.queue.dequeuePos 0) (fun m hm => List.eq_of_mem_replicate hm) rfl rfl

/-- A call that runs alone compares out of range exactly at the middle. -/
theorem lone_call_in_range {capacity : BitVec w} (hcap : c = capacity.toNat) (backoff : Nat → Nat) (h : AtRest c s xs) (t : Tid)
    (op : TryOp T) : CallInRange (machine Tid (BitVec w) T backoff c false) c s t op ↔ ¬ AtMiddle capacity s.queue op := by
  have hw := (AtomicQueue.le_half hc).1
  rw [← compares_straddles hc hcap h.holds op, ← inRange_iff hw]
  constructor
  · intro hall
    obtain ⟨ms, s', he, hx⟩ := lone_compares (c := c) backoff (h.idle t) h.closed op
    exact hall ms s' he t _ hx
  · intro hin ms s' he u x hx
    rw [lone_compared hc h op he hx]
    exact hin

end

end Atomic

/-! ## The three versions -/

open Atomic

section
variable {Tid T : Type} [DecidableEq Tid] [Elem T] {w fuel : Nat} {requested capacity : BitVec w}

/-- **When the comparison stays in range.** In a run whose calls keep up, exactly
as long as no step meets the middle of the counters' range. Runs that claim
fewer tickets than up to the middle are in range; of calls made one after the
other, however many, those that are not are the pushes into a full queue and the
pops from an empty one that meet the middle. -/
theorem comparisons_in_range (version : AtomicVersion) (throwing : Bool) (hw : 2 ≤ w)
    (hcap : normalizeCapacity fuel requested = some capacity) :
    (∀ n (r : Run ((Atomic.machine Tid (BitVec w) T version.backoff capacity.toNat throwing).logged (trace capacity.toNat)) n),
      KeepsUp capacity.toNat r →
      ((∀ i, i ≤ n → ComparesInRange capacity.toNat (r.st i).1) ↔
        ∀ i, i < n → ¬ MeetsMiddle capacity (r.st i).1 (r.lab i))) ∧
    (∀ x, ((Atomic.machine Tid (BitVec w) T version.backoff capacity.toNat throwing).logged (trace capacity.toNat)).Reachable x →
      (pushClaims x.2).length + capacity.toNat < 2 ^ (w - 1) → ComparesInRange capacity.toNat x.1) ∧
    ∀ ops rs s, (service (Atomic.machine Tid (BitVec w) T version.backoff capacity.toNat false)).Runs
        (Atomic.machine Tid (BitVec w) T version.backoff capacity.toNat false).start ops rs s → ∀ t op,
      (CallInRange (Atomic.machine Tid (BitVec w) T version.backoff capacity.toNat false) capacity.toNat s t op ↔
        ¬ AtMiddle capacity s.queue op) := by
  have hpow := normalizeCapacity_spec hw hcap
  have hc := AtomicQueue.two_le hpow
  have hlt := AtomicQueue.pow_lt hpow
  refine ⟨fun n r hk => in_range_run rfl hc hlt r hk, fun x hx hroom => ?_, fun ops rs s hr t op => ?_⟩
  · obtain ⟨hb, he⟩ := bounded_reachable hc hlt hx hroom
    exact hb.comparesInRange hc hlt (by omega)
  · have himpl : (service (Atomic.machine Tid (BitVec w) T version.backoff capacity.toNat false)).Implements _ [] _ :=
      service_implements hpow version.backoff
    obtain ⟨-, xs, hrest⟩ := himpl.runs himpl.start hr
    exact lone_call_in_range hpow rfl version.backoff hrest t op

end

def pastMiddle : List (Label Unit Nat) :=
  [.emplace 7, .emplace 7, .tryPop, .tryPop, .emplace 7, .emplace 7, .tryPop, .emplace 7].flatMap (sixMoves ())

def pastMiddleRun : Run ((Atomic.machine Unit (BitVec 3) Nat AtomicVersion.V2.backoff 2 true).logged (trace 2)) 64 :=
  Run.ofExec _ (.ret ()) pastMiddle (by decide)

theorem comparisons_in_range_two :
    (∀ i, i ≤ 64 → ComparesInRange 2 (pastMiddleRun.st i).1) ∧
    ∀ x, ((Atomic.machine Nat (BitVec 32) Nat AtomicVersion.V2.backoff 2 true).logged (trace 2)).Reachable x →
      (pushClaims x.2).length + 2 < 2 ^ 31 → ComparesInRange 2 x.1 := by
  have hnarrow : normalizeCapacity 3 2#3 = some 2#3 := by decide
  have hwide : normalizeCapacity 3 2#32 = some 2#32 := by decide
  refine ⟨((comparisons_in_range AtomicVersion.V2 true (by omega) hnarrow).1 64 pastMiddleRun ?_).mpr (by decide +kernel),
    (comparisons_in_range AtomicVersion.V2 true (by omega) hwide).2.1⟩
  -- a call claims one ticket at most
  have hone : ∀ b, b ≤ 64 → ∀ a, a < b →
      (pushClaims (pastMiddleRun.st b).2).length ≤ (pushClaims (pastMiddleRun.st a).2).length + 1 ∧
        (popClaims (pastMiddleRun.st b).2).length ≤ (popClaims (pastMiddleRun.st a).2).length + 1 ∨
      ∃ j, j < b ∧ a < j ∧ pastMiddleRun.lab j = .ret () := by
    decide +kernel
  intro t op a b hcall
  rcases hone b hcall.le a hcall.lt with ⟨h1, h2⟩ | ⟨j, hj, haj, hret⟩
  · show _ + 2 < _ + 2 ^ 2 ∧ _ + 2 < _ + 2 ^ 2
    omega
  · exact absurd hret (hcall.stays j hj haj)

/-- One thread that pushes and pops in turn, and pushes twice at last: the
second push meets the full queue at the position `2 ^ 63`. -/
theorem compares_out_of_range : ∃ s, (AtomicVersion.V1.machine Unit Nat 2#64 false).Reachable s ∧ ¬ ComparesInRange 2 s := by
  let M := Atomic.machine Unit (BitVec 64) Nat BoundedAtomicMpmcQueueV1.backoff 2 false
  have hc : ∃ j, j < 64 ∧ 2 = 2 ^ j := ⟨1, by omega, rfl⟩
  obtain ⟨s₀, hs₀⟩ : ∃ s₀, M.exec (sixMoves () (.emplace 7)) = some s₀ := Option.isSome_iff_exists.mp (by decide)
  have hstart : OneItem s₀.queue 0 ∧ s₀.pc () = .idle := by
    have h : ((M.exec (sixMoves () (.emplace 7))).all fun s => decide (s.queue.enqueuePos = 1 ∧ s.queue.dequeuePos = 0 ∧
        (s.queue.cell 2 0).sequence = 1 ∧ (s.queue.cell 2 1).sequence = 1 ∧ s.queue.closed = false ∧ s.pc () = .idle)) = true := by
      decide
    rw [hs₀, Option.all_some, decide_eq_true_eq] at h
    obtain ⟨h1, h2, h3, h4, h5, h6⟩ := h
    exact ⟨⟨h1, h2, h3, h4, h5⟩, h6⟩
  obtain ⟨hone, hidle⟩ := hstart
  have others : ∀ u : Unit, u ≠ () → pushTicket (s₀.pc u) = none := fun u hu => absurd rfl hu
  obtain ⟨as, q, hrounds, hq, -⟩ := OneItem.rounds hc hidle others BoundedAtomicMpmcQueueV1.backoff hone 7 (2 ^ 63 - 2)
  obtain ⟨q', hpush, htwo⟩ := OneItem.push (s := ⟨q, s₀.pc⟩) hc hidle others BoundedAtomicMpmcQueueV1.backoff hq 7
  obtain ⟨ms, s, hexec, hx⟩ := lone_compares (s := ⟨q', s₀.pc⟩) (c := 2) BoundedAtomicMpmcQueueV1.backoff hidle htwo.closed
    (.tryPush 7)
  refine ⟨s, ?_, fun h => ?_⟩
  · have h0 : M.Reachable s₀ := Machine.exec_reachable _ hs₀
    have h1 := Machine.execFrom_reachable h0 _ hrounds.exec
    exact Machine.execFrom_reachable (Machine.execFrom_reachable h1 _ hpush.exec) _ hexec
  · have hin := h () _ hx
    have hlap := Counter.slot_lap hc (Counter.plus (0 : BitVec 64) (2 ^ 63 - 2)) 0
    rw [Nat.zero_add, Counter.plus_zero] at hlap
    have hcell : q'.cell 2 (Counter.plus (Counter.plus (0 : BitVec 64) (2 ^ 63 - 2)) 2) =
        q'.cell 2 (Counter.plus (0 : BitVec 64) (2 ^ 63 - 2)) := congrArg q'.cells hlap
    have hwords : compares 2 q' (.tryPush 7) = (0x7fffffffffffffff#64, 0x8000000000000000#64) := by
      show ((q'.cell 2 q'.enqueuePos).sequence, q'.enqueuePos) = _
      rw [htwo.enqueue, hcell, htwo.item]
      decide
    rw [hwords, inRange_iff (by omega)] at hin
    apply hin
    unfold Straddles
    decide

end Yutil
