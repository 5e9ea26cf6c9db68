import Yutil.AtomicSolo
import Yutil.AtomicAnswers

/-!
# Retries

A push goes around its loop again when the cell of its position is ahead of it,
or when its compare-exchange fails. The marks in the cells are only ever those
of tickets that were claimed, so a cell ahead of a position means that the
counter has passed it: each retry but a spurious one answers to a ticket that
another call took, and a call that runs alone retries once at most.
-/

namespace Yutil

open Interleave

namespace Atomic

/-! ## Marks -/

/-- A cell's mark is its index, or a push or a pop of the cell has left it. -/
def Mark (c e d i m : Nat) : Prop :=
  m = i ∨ (∃ k, k % c = i ∧ k < e ∧ m = k + 1) ∨ ∃ k, k % c = i ∧ k < d ∧ m = k + c

namespace Mark

variable {c e d e' d' i k m : Nat}

theorem mono (h : Mark c e d i m) (he : e ≤ e') (hd : d ≤ d') : Mark c e' d' i m := by
  rcases h with h | ⟨k, h1, h2, h3⟩ | ⟨k, h1, h2, h3⟩
  · exact .inl h
  · exact .inr (.inl ⟨k, h1, Nat.lt_of_lt_of_le h2 he, h3⟩)
  · exact .inr (.inr ⟨k, h1, Nat.lt_of_lt_of_le h2 hd, h3⟩)

theorem le (h : Mark c e d i m) (hi : i < c) (hle : d ≤ e) : m ≤ e + c := by
  rcases h with h | ⟨k, -, h2, h3⟩ | ⟨k, -, h2, h3⟩ <;> omega

theorem push_le (h : Mark c e d (e % c) m) (hle : d ≤ e) : m ≤ e := by
  rcases h with h | ⟨k, -, h2, h3⟩ | ⟨k, h1, h2, h3⟩
  · rw [h]
    exact Nat.mod_le ..
  · omega
  · have := Counter.lap_le h1.symm (by omega)
    omega

theorem pop_le (h : Mark c e d (d % c) m) (hb : e ≤ d + c) : m ≤ d + 1 := by
  rcases h with h | ⟨k, h1, h2, h3⟩ | ⟨k, h1, h2, h3⟩
  · have := Nat.mod_le d c
    omega
  · by_cases hk : d < k
    · have := Counter.lap_le h1 hk
      omega
    · omega
  · have := Counter.lap_le h1.symm h2
    omega

theorem room (h : Mark c e d (k % c) k) (hc : 2 ≤ c) : k < d + c := by
  rcases h with h | ⟨j, h1, h2, h3⟩ | ⟨j, -, h2, h3⟩
  · have := Nat.mod_lt k (show 0 < c by omega)
    omega
  · have := Counter.lap_le h1.symm (by omega)
    omega
  · omega

theorem item (h : Mark c e d (k % c) (k + 1)) (hc : 2 ≤ c) : k < e := by
  rcases h with h | ⟨j, h1, h2, h3⟩ | ⟨j, h1, h2, h3⟩
  · have := Nat.mod_le k c
    omega
  · omega
  · have := Counter.lap_le h1.symm (by omega)
    omega

end Mark

/-! ## The invariant -/

section
variable {Tid T : Type} {w c : Nat}

def Within (c e d : Nat) : Frame (BitVec w) T → Prop
  | .loadSequence _ pos _ => pos.toNat ≤ e
  | .claim _ pos _ => pos.toNat ≤ e ∧ pos.toNat < d + c
  | .construct _ pos | .publish _ pos => pos.toNat < e
  | .loadSequencePop pos _ => pos.toNat ≤ d
  | .claimPop pos _ => pos.toNat ≤ d ∧ pos.toNat < e
  | .moveOut pos | .destroy pos _ | .release pos _ => pos.toNat < d
  | _ => True

/-- The counters are at most a capacity apart, and neither a mark nor a position is ahead of them. -/
structure Bounded (c : Nat) (s : State Tid (BitVec w) T) : Prop where
  le : s.queue.dequeuePos.toNat ≤ s.queue.enqueuePos.toNat
  bound : s.queue.enqueuePos.toNat ≤ s.queue.dequeuePos.toNat + c
  marks : ∀ i, i < c → Mark c s.queue.enqueuePos.toNat s.queue.dequeuePos.toNat i (s.queue.cells i).sequence.toNat
  frames : ∀ t, Within c s.queue.enqueuePos.toNat s.queue.dequeuePos.toNat (s.pc t)

theorem Within.mono {e d e' d' : Nat} {f : Frame (BitVec w) T} (h : Within c e d f) (he : e ≤ e') (hd : d ≤ d') :
    Within c e' d' f := by
  cases f with
  | loadSequence arg pos spins => exact Nat.le_trans h he
  | claim arg pos spins => exact ⟨Nat.le_trans h.1 he, by have := h.2; omega⟩
  | construct arg pos => exact Nat.lt_of_lt_of_le h he
  | publish arg pos => exact Nat.lt_of_lt_of_le h he
  | loadSequencePop pos spins => exact Nat.le_trans h hd
  | claimPop pos spins => exact ⟨Nat.le_trans h.1 hd, Nat.lt_of_lt_of_le h.2 he⟩
  | moveOut pos => exact Nat.lt_of_lt_of_le h hd
  | destroy pos out => exact Nat.lt_of_lt_of_le h hd
  | release pos out => exact Nat.lt_of_lt_of_le h hd
  | _ => trivial

variable {s s' : State Tid (BitVec w) T} (hc : 2 ≤ c) (hpow : ∃ j, j < w ∧ c = 2 ^ j)

section
include hc hpow

theorem Bounded.mark (h : Bounded c s) (pos : BitVec w) :
    Mark c s.queue.enqueuePos.toNat s.queue.dequeuePos.toNat (pos.toNat % c) (s.queue.cell c pos).sequence.toNat := by
  unfold AtomicQueue.cell
  rw [Counter.slot_toNat hpow]
  exact h.marks _ (Nat.mod_lt _ (by omega))

theorem Bounded.dif (h : Bounded c s) (hroom : s.queue.enqueuePos.toNat + c < 2 ^ (w - 1)) {pos x : BitVec w}
    (hx : x.toNat ≤ s.queue.enqueuePos.toNat + 1) : Counter.dif (s.queue.cell c pos).sequence x =
      ((s.queue.cell c pos).sequence.toNat : Int) - x.toNat := by
  have := (h.mark hc hpow pos).le (Nat.mod_lt _ (by omega)) h.le
  exact Counter.dif_toNat (by omega) (by omega)

end

variable [DecidableEq Tid]

theorem Bounded.update (h : Bounded c s) (t : Tid) {q : AtomicQueue (BitVec w) T} {f : Frame (BitVec w) T}
    (he : s.queue.enqueuePos.toNat ≤ q.enqueuePos.toNat) (hd : s.queue.dequeuePos.toNat ≤ q.dequeuePos.toNat)
    (hle : q.dequeuePos.toNat ≤ q.enqueuePos.toNat) (hbound : q.enqueuePos.toNat ≤ q.dequeuePos.toNat + c)
    (hmarks : ∀ i, i < c → Mark c q.enqueuePos.toNat q.dequeuePos.toNat i (q.cells i).sequence.toNat)
    (hf : Within c q.enqueuePos.toNat q.dequeuePos.toNat f) : Bounded c ⟨q, Function.update s.pc t f⟩ := by
  refine ⟨hle, hbound, hmarks, fun u => ?_⟩
  by_cases hu : u = t
  · subst hu
    simpa only [Function.update_self] using hf
  · simpa only [Function.update_of_ne hu] using (h.frames u).mono he hd

theorem Bounded.frame (h : Bounded c s) (t : Tid) {f : Frame (BitVec w) T}
    (hf : Within c s.queue.enqueuePos.toNat s.queue.dequeuePos.toNat f) : Bounded c ⟨s.queue, Function.update s.pc t f⟩ :=
  h.update t (Nat.le_refl _) (Nat.le_refl _) h.le h.bound h.marks hf

include hpow

theorem Bounded.write (h : Bounded c s) (t : Tid) {pos : BitVec w} {x : Cell (BitVec w) T} {f : Frame (BitVec w) T}
    (hx : Mark c s.queue.enqueuePos.toNat s.queue.dequeuePos.toNat (pos.toNat % c) x.sequence.toNat)
    (hf : Within c s.queue.enqueuePos.toNat s.queue.dequeuePos.toNat f) :
    Bounded c ⟨{ s.queue with cells := Function.update s.queue.cells (Counter.slot c pos) x }, Function.update s.pc t f⟩ := by
  refine h.update t (Nat.le_refl _) (Nat.le_refl _) h.le h.bound (fun i hi => ?_) hf
  show Mark c _ _ i (Function.update s.queue.cells (Counter.slot c pos) x i).sequence.toNat
  by_cases he : i = Counter.slot c pos
  · subst he
    rw [Function.update_self, Counter.slot_toNat hpow]
    exact hx
  · rw [Function.update_of_ne he]
    exact h.marks i hi

include hc

variable [Elem T] {backoff : Nat → Nat} {throwing : Bool} {a : Label Tid T}

theorem Bounded.step (h : Bounded c s) (hroom : s.queue.enqueuePos.toNat + c < 2 ^ (w - 1))
    (hs : Atomic.step backoff c throwing s a = some s') : Bounded c s' := by
  have hle := h.le
  have hb := h.bound
  have hhalf := Counter.half_lt hpow
  have hplus : ∀ pos : BitVec w, pos.toNat ≤ s.queue.enqueuePos.toNat → (Counter.plus pos 1).toNat = pos.toNat + 1 :=
    fun pos hpos => Counter.plus_toNat (by omega)
  cases step_spec hs with
  | @call t op _ => exact h.frame t (by cases op <;> trivial)
  | @ret t k r _ => exact h.frame t trivial
  | @move t m q f hm ha =>
    have hf := h.frames t
    generalize s.pc t = g at ha hf
    cases ha with
    | loadEnqueue => exact h.frame t (Nat.le_refl s.queue.enqueuePos.toNat)
    | @ready arg pos spins hdif =>
      have hmark := h.mark hc hpow pos
      have he := Counter.dif_eq_zero.mp hdif
      rw [he] at hmark
      exact h.frame t ⟨hf, hmark.room hc⟩
    | @claim arg pos spins he =>
      subst he
      obtain ⟨-, hlt⟩ := hf
      have hnext := hplus _ (Nat.le_refl _)
      refine h.update t ?_ (Nat.le_refl _) ?_ ?_ (fun i hi => (h.marks i hi).mono ?_ (Nat.le_refl _)) ?_
      all_goals
        simp only [Within, hnext]
        omega
    | lost _ => exact h.frame t (Nat.le_refl s.queue.enqueuePos.toNat)
    | construct => exact h.write hpow t (h.mark hc hpow _) hf
    | @publish arg pos =>
      have hpos : pos.toNat < s.queue.enqueuePos.toNat := hf
      refine h.write hpow t (.inr (.inl ⟨pos.toNat, rfl, hpos, hplus pos ?_⟩)) trivial
      exact Nat.le_of_lt hpos
    | loadDequeue => exact h.frame t (Nat.le_refl s.queue.dequeuePos.toNat)
    | @readyPop pos spins hdif =>
      have hpos : pos.toNat ≤ s.queue.dequeuePos.toNat := hf
      have hmark := h.mark hc hpow pos
      have he := Counter.dif_eq_zero.mp hdif
      rw [he, hplus pos (by omega)] at hmark
      exact h.frame t ⟨hf, hmark.item hc⟩
    | @claimPop pos spins he =>
      subst he
      obtain ⟨-, hlt⟩ := hf
      have hnext := hplus _ hle
      refine h.update t (Nat.le_refl _) ?_ ?_ ?_ (fun i hi => (h.marks i hi).mono (Nat.le_refl _) ?_) ?_
      all_goals
        simp only [Within, hnext]
        omega
    | lostPop _ => exact h.frame t (Nat.le_refl s.queue.dequeuePos.toNat)
    | moveOut _ => exact h.write hpow t (h.mark hc hpow _) hf
    | destroy => exact h.write hpow t (h.mark hc hpow _) hf
    | @release pos out =>
      have hpos : pos.toNat < s.queue.dequeuePos.toNat := hf
      refine h.write hpow t (.inr (.inr ⟨pos.toNat, rfl, hpos, ?_⟩)) trivial
      exact Counter.plus_toNat (by omega)
    | exchangeClosed => exact h.update t (Nat.le_refl _) (Nat.le_refl _) hle hb h.marks trivial
    | _ => exact h.frame t trivial

end

end Atomic

/-! ## What a retry is -/

section
variable {N T : Type}

/-- The position a round of the loop works on. -/
def Frame.position : Frame N T → Option N
  | .loadSequence _ pos _ | .claim _ pos _ | .loadSequencePop pos _ | .claimPop pos _ => some pos
  | _ => none

namespace Side

variable [DecidableEq N] [Counter N]

def searching : Side → Frame N T → Bool
  | .push, .checkClosed _ | .push, .loadEnqueue _ _ | .push, .loadSequence _ _ _ | .push, .claim _ _ _ => true
  | .pop, .loadDequeue _ | .pop, .loadSequencePop _ _ | .pop, .claimPop _ _ => true
  | _, _ => false

/-- The position with which the thread goes around its loop again, when its
next step does that and is no spurious failure. -/
def retries (c : Nat) (q : AtomicQueue N T) : Side → Frame N T → Option N
  | .push, .loadSequence _ pos _ => if 0 < Counter.dif (q.cell c pos).sequence pos then some pos else none
  | .push, .claim _ pos _ => if q.enqueuePos = pos then none else some pos
  | .pop, .loadSequencePop pos _ =>
    if 0 < Counter.dif (q.cell c pos).sequence (Counter.plus pos 1) then some pos else none
  | .pop, .claimPop pos _ => if q.dequeuePos = pos then none else some pos
  | _, _ => none

def claims (q : AtomicQueue N T) : Side → Frame N T → Bool
  | .push, .claim _ pos _ => decide (q.enqueuePos = pos)
  | .pop, .claimPop pos _ => decide (q.dequeuePos = pos)
  | _, _ => false

variable [Elem T] {backoff : Nat → Nat} {c : Nat} {q q' : AtomicQueue N T} {m : Move} {f f' : Frame N T}

theorem cursor_acts (side : Side) (ha : q.Acts backoff c m f q' f') :
    side.cursor q' = if m = .go ∧ side.claims q f = true then Counter.plus (side.cursor q) 1 else side.cursor q := by
  cases side with
  | push =>
    cases ha with
    | claim he =>
      subst he
      rw [if_pos ⟨rfl, decide_eq_true rfl⟩]
      rfl
    | lost hl =>
      refine (if_neg ?_).symm
      rintro ⟨hm, he⟩
      rcases hl with ⟨-, hne⟩ | rfl
      · exact hne (of_decide_eq_true he)
      · cases hm
    | _ => exact (if_neg fun h => Bool.false_ne_true h.2).symm
  | pop =>
    cases ha with
    | claimPop he =>
      subst he
      rw [if_pos ⟨rfl, decide_eq_true rfl⟩]
      rfl
    | lostPop hl =>
      refine (if_neg ?_).symm
      rintro ⟨hm, he⟩
      rcases hl with ⟨-, hne⟩ | rfl
      · exact hne (of_decide_eq_true he)
      · cases hm
    | _ => exact (if_neg fun h => Bool.false_ne_true h.2).symm

/-- The steps of a thread for one side: it has its ticket or its answer, and
goes on from there; or it searches on, with the position it had, with none, or
with the counter's, and for a retry not with the one it had. -/
theorem searching_acts (side : Side) (ha : q.Acts backoff c m f q' f') :
    side.searching f' = false ∧ (m = .go → side.retries c q f = none) ∨
    side.searching f = true ∧ side.cursor q' = side.cursor q ∧
      ((m = .go → side.retries c q f = none) ∧ (f'.position = f.position ∨ f'.position = none ∨ f'.position = some (side.cursor q)) ∨
        m = .go ∧ side.retries c q f = f.position ∧ f.position.isSome = true ∧
          (f'.position = none ∨ f'.position = some (side.cursor q))) := by
  cases side with
  | push =>
    cases ha with
    | admitted _ => exact .inr ⟨rfl, rfl, .inl ⟨fun _ => rfl, .inl rfl⟩⟩
    | loadEnqueue => exact .inr ⟨rfl, rfl, .inl ⟨fun _ => rfl, .inr (.inr rfl)⟩⟩
    | ready hdif => exact .inr ⟨rfl, rfl, .inl ⟨fun _ => if_neg (by omega), .inl rfl⟩⟩
    | full hdif => exact .inl ⟨rfl, fun _ => if_neg (by omega)⟩
    | passed hdif => exact .inr ⟨rfl, rfl, .inr ⟨rfl, if_pos hdif, rfl, .inl rfl⟩⟩
    | claim he => exact .inl ⟨rfl, fun _ => if_pos he⟩
    | lost hl =>
      refine .inr ⟨rfl, rfl, ?_⟩
      rcases hl with ⟨rfl, hne⟩ | rfl
      · exact .inr ⟨rfl, if_neg hne, rfl, .inr rfl⟩
      · exact .inl ⟨nofun, .inr (.inr rfl)⟩
    | _ => exact .inl ⟨rfl, fun _ => rfl⟩
  | pop =>
    cases ha with
    | loadDequeue => exact .inr ⟨rfl, rfl, .inl ⟨fun _ => rfl, .inr (.inr rfl)⟩⟩
    | readyPop hdif => exact .inr ⟨rfl, rfl, .inl ⟨fun _ => if_neg (by omega), .inl rfl⟩⟩
    | empty hdif => exact .inl ⟨rfl, fun _ => if_neg (by omega)⟩
    | passedPop hdif => exact .inr ⟨rfl, rfl, .inr ⟨rfl, if_pos hdif, rfl, .inl rfl⟩⟩
    | claimPop he => exact .inl ⟨rfl, fun _ => if_pos he⟩
    | lostPop hl =>
      refine .inr ⟨rfl, rfl, ?_⟩
      rcases hl with ⟨rfl, hne⟩ | rfl
      · exact .inr ⟨rfl, if_neg hne, rfl, .inr rfl⟩
      · exact .inl ⟨nofun, .inr (.inr rfl)⟩
    | _ => exact .inl ⟨rfl, fun _ => rfl⟩

end Side

end

namespace Atomic

section
variable {Tid N T : Type} [DecidableEq Tid] [DecidableEq N] [Counter N]

def retriesBy (side : Side) (c : Nat) (t : Tid) (s : State Tid N T) : Label Tid T → Bool
  | .move u .go => decide (u = t) && (side.retries c s.queue (s.pc u)).isSome
  | _ => false

def claimsOther (side : Side) (t : Tid) (s : State Tid N T) : Label Tid T → Bool
  | .move u .go => decide (u ≠ t) && side.claims s.queue (s.pc u)
  | _ => false

omit [Counter N] in
theorem claimsOther_move {side : Side} {t u : Tid} {s : State Tid N T} {m : Move} :
    claimsOther side t s (.move u m) = true ↔ u ≠ t ∧ m = .go ∧ side.claims s.queue (s.pc u) = true := by
  cases m <;> simp [claimsOther]

theorem retriesBy_move {side : Side} {c : Nat} {t u : Tid} {s : State Tid N T} {m : Move} :
    retriesBy side c t s (.move u m) = true ↔ u = t ∧ m = .go ∧ (side.retries c s.queue (s.pc u)).isSome = true := by
  cases m <;> simp [retriesBy]

variable [Elem T] {backoff : Nat → Nat} {c : Nat} {throwing : Bool} {s s' : State Tid N T} {a : Label Tid T}

omit [DecidableEq Tid] in
theorem pushClaims_trace (s : State Tid N T) (t : Tid) (m : Move) : (pushClaims (trace c s (.move t m))).length =
    if m = .go ∧ Side.push.claims s.queue (s.pc t) = true then 1 else 0 := by
  cases m with
  | go =>
    cases hpc : s.pc t with
    | claim arg pos spins =>
      by_cases he : s.queue.enqueuePos = pos
      · rw [trace_claim hpc he, if_pos ⟨rfl, decide_eq_true he⟩]
        rfl
      · rw [trace_lost hpc (.inl ⟨rfl, he⟩), if_neg fun h => he (of_decide_eq_true h.2)]
        rfl
    | claimPop pos spins =>
      rw [if_neg fun h => Bool.false_ne_true h.2]
      by_cases he : s.queue.dequeuePos = pos
      · rw [trace_claimPop hpc he]
        rfl
      · rw [trace_lostPop hpc (.inl ⟨rfl, he⟩)]
        rfl
    | _ =>
      rw [if_neg fun h => Bool.false_ne_true h.2]
      simp only [trace, hpc]
      rfl
  | _ => exact (if_neg fun h => Move.noConfusion h.1).symm

/-! ## Counting the rounds of a call -/

omit [DecidableEq Tid] [Elem T] in
theorem Bounded.passed {w : Nat} {s : State Tid (BitVec w) T} (hc : 2 ≤ c) (hpow : ∃ j, j < w ∧ c = 2 ^ j)
    (h : Bounded c s) (hroom : s.queue.enqueuePos.toNat + c < 2 ^ (w - 1)) (side : Side) (t : Tid) {pos : BitVec w}
    (hr : side.retries c s.queue (s.pc t) = some pos) : pos.toNat < (side.cursor s.queue).toNat := by
  have hf := h.frames t
  have hle := h.le
  have hhalf := Counter.half_lt hpow
  have behind : ∀ pos x : BitVec w, pos.toNat ≤ x.toNat → x ≠ pos → pos.toNat < x.toNat := fun pos x h1 h2 =>
    Nat.lt_of_le_of_ne h1 fun he => h2 (BitVec.eq_of_toNat_eq he.symm)
  generalize s.pc t = f at hf hr
  cases side with
  | push =>
    cases f with
    | loadSequence arg p spins =>
      obtain ⟨hdif, he⟩ := Option.ite_none_right_eq_some.mp hr
      cases he
      have hpos : pos.toNat ≤ s.queue.enqueuePos.toNat := hf
      refine behind pos s.queue.enqueuePos hf fun he => ?_
      have hmark := h.mark hc hpow pos
      rw [h.dif hc hpow hroom (by omega)] at hdif
      rw [← he] at hmark hdif
      have := hmark.push_le hle
      omega
    | claim arg p spins =>
      obtain ⟨hne, he⟩ := Option.ite_none_left_eq_some.mp hr
      cases he
      exact behind pos _ hf.1 hne
    | _ => cases hr
  | pop =>
    cases f with
    | loadSequencePop p spins =>
      obtain ⟨hdif, he⟩ := Option.ite_none_right_eq_some.mp hr
      cases he
      have hpos : pos.toNat ≤ s.queue.dequeuePos.toNat := hf
      refine behind pos s.queue.dequeuePos hf fun he => ?_
      have hnext : (Counter.plus pos 1).toNat = pos.toNat + 1 := Counter.plus_toNat (by omega)
      have hmark := h.mark hc hpow pos
      rw [h.dif hc hpow hroom (by omega), hnext] at hdif
      rw [← he] at hmark hdif
      have := hmark.pop_le h.bound
      omega
    | claimPop p spins =>
      obtain ⟨hne, he⟩ := Option.ite_none_left_eq_some.mp hr
      cases he
      exact behind pos _ hf.1 hne
    | _ => cases hr

/-- The frame of a call that began when the counter was at `begun`, after
`rounds` retries and with `others` tickets taken by other calls. -/
structure Rounds {w : Nat} (side : Side) (begun rounds others : Nat) (q : AtomicQueue (BitVec w) T) (f : Frame (BitVec w) T) :
    Prop where
  inside : f ≠ .idle
  le : rounds ≤ others
  cursor : side.searching f = true → (side.cursor q).toNat = begun + others
  position : ∀ pos, side.searching f = true → f.position = some pos → begun + rounds ≤ pos.toNat

section
variable {w : Nat} {side : Side} {begun rounds others : Nat} {q q' : AtomicQueue (BitVec w) T} {f f' : Frame (BitVec w) T}
  {m : Move}

theorem Rounds.acts (h : Rounds side begun rounds others q f)
    (hpassed : ∀ pos, side.retries c q f = some pos → pos.toNat < (side.cursor q).toNat)
    (ha : q.Acts backoff c m f q' f') :
    Rounds side begun (rounds + if m = .go ∧ (side.retries c q f).isSome = true then 1 else 0) others q' f' := by
  have hle := h.le
  have hinside : f' ≠ .idle := by
    rintro rfl
    cases ha
  have calm : (m = .go → side.retries c q f = none) → ¬ (m = .go ∧ (side.retries c q f).isSome = true) := by
    rintro hr ⟨hm, hs⟩
    rw [hr hm] at hs
    cases hs
  rcases side.searching_acts ha with ⟨hend, hr⟩ | ⟨hg, hcur, ⟨hr, hp⟩ | ⟨hm, hr, hsome, hp⟩⟩
  · rw [if_neg (calm hr)]
    refine ⟨hinside, hle, fun hs => ?_, fun pos hs _ => ?_⟩
    · rw [hend] at hs
      cases hs
    · rw [hend] at hs
      cases hs
  · have hcursor := h.cursor hg
    rw [if_neg (calm hr)]
    refine ⟨hinside, hle, fun _ => (congrArg BitVec.toNat hcur).trans hcursor, fun pos _ hpos => ?_⟩
    rcases hp with hp | hp | hp
    · exact h.position pos hg (hp ▸ hpos)
    · rw [hp] at hpos
      cases hpos
    · obtain rfl : side.cursor q = pos := Option.some.inj (hp.symm.trans hpos)
      omega
  · obtain ⟨pos₀, hpos₀⟩ := Option.isSome_iff_exists.mp hsome
    have hcursor := h.cursor hg
    have hahead := h.position pos₀ hg hpos₀
    have hlt := hpassed pos₀ (hr.trans hpos₀)
    rw [if_pos ⟨hm, hr ▸ hsome⟩]
    refine ⟨hinside, by omega, fun _ => (congrArg BitVec.toNat hcur).trans hcursor, fun pos _ hpos => ?_⟩
    rcases hp with hp | hp
    · rw [hp] at hpos
      cases hpos
    · obtain rfl : side.cursor q = pos := Option.some.inj (hp.symm.trans hpos)
      omega

omit [Elem T] [DecidableEq N] [Counter N] [DecidableEq Tid] in
theorem Rounds.elsewhere (h : Rounds side begun rounds others q f) {n : Nat}
    (hcursor : (side.cursor q').toNat = (side.cursor q).toNat + n) : Rounds side begun rounds (others + n) q' f :=
  ⟨h.inside, Nat.le_add_right_of_le h.le, fun hs => by rw [hcursor, h.cursor hs, Nat.add_assoc], h.position⟩

theorem Rounds.step {s s' : State Tid (BitVec w) T} {a : Label Tid T} {t : Tid}
    (h : Rounds side begun rounds others s.queue (s.pc t))
    (hpassed : ∀ pos, side.retries c s.queue (s.pc t) = some pos → pos.toNat < (side.cursor s.queue).toNat)
    (hroom : (side.cursor s.queue).toNat + 1 < 2 ^ w) (hne : a ≠ .ret t) (hs : Atomic.step backoff c throwing s a = some s') :
    Rounds side begun (rounds + if retriesBy side c t s a = true then 1 else 0)
      (others + if claimsOther side t s a = true then 1 else 0) s'.queue (s'.pc t) := by
  have other : ∀ {u : Tid} {g : Frame (BitVec w) T}, u ≠ t → Function.update s.pc u g t = s.pc t := fun hu =>
    Function.update_of_ne (Ne.symm hu) ..
  cases step_spec hs with
  | @call u op hidle =>
    have hu : u ≠ t := by
      intro hu
      subst hu
      exact h.inside hidle
    simp only [other hu]
    exact h
  | @ret u k r _ =>
    simp only [other fun hu => hne (congrArg _ hu)]
    exact h
  | @move u m q f hm ha =>
    by_cases hu : u = t
    · subst hu
      simp only [Function.update_self, retriesBy_move, claimsOther_move, ne_eq, not_true_eq_false, true_and, false_and, if_false]
      exact h.acts hpassed ha
    · simp only [other hu, retriesBy_move, claimsOther_move, hu, ne_eq, not_false_eq_true, true_and, false_and, if_false]
      apply h.elsewhere
      rw [side.cursor_acts ha]
      by_cases hclaim : m = .go ∧ side.claims s.queue (s.pc u) = true
      · rw [if_pos hclaim, if_pos hclaim, Counter.plus_toNat hroom]
      · rw [if_neg hclaim, if_neg hclaim]
        rfl

end

/-! ## Runs -/

section
variable {w : Nat} (hc : 2 ≤ c) (hpow : ∃ j, j < w ∧ c = 2 ^ j)

include hc hpow

theorem bounded_reachable {x : State Tid (BitVec w) T × List (TicketEvent Tid (BitVec w) T)}
    (hx : ((machine Tid (BitVec w) T backoff c throwing).logged (trace c)).Reachable x)
    (hlt : (pushClaims x.2).length + c < 2 ^ (w - 1)) :
    Bounded c x.1 ∧ x.1.queue.enqueuePos.toNat = (pushClaims x.2).length := by
  have hhalf := Counter.half_lt hpow
  have hcw : c < 2 ^ w := by omega
  have zero : (BitVec.ofNat w 0).toNat = 0 := by rw [BitVec.toNat_ofNat, Nat.zero_mod]
  refine hx.invariant (I := fun x => (pushClaims x.2).length + c < 2 ^ (w - 1) →
    Bounded c x.1 ∧ x.1.queue.enqueuePos.toNat = (pushClaims x.2).length) ?_ ?_ hlt
  · intro _
    refine ⟨⟨Nat.le_refl _, Nat.le_add_right .., fun i hi => .inl ?_, fun _ => trivial⟩, zero⟩
    show (BitVec.ofNat w i).toNat = i
    rw [BitVec.toNat_ofNat, Nat.mod_eq_of_lt (by omega)]
  · intro x a x' hr ih hs hlt
    obtain ⟨h1, h2⟩ := Machine.logged_step.mp hs
    rw [h2, pushClaims_append, List.length_append] at hlt ⊢
    obtain ⟨hb, he⟩ := ih (by omega)
    have hroom : x.1.queue.enqueuePos.toNat + c < 2 ^ (w - 1) := by omega
    refine ⟨hb.step hc hpow hroom h1, ?_⟩
    have h1 : Atomic.step backoff c throwing x.1 a = some x'.1 := h1
    generalize x'.1 = s' at h1 ⊢
    cases step_spec h1 with
    | call _ => exact he
    | ret _ => exact he
    | @move t m q f hm ha =>
      have hcursor : q.enqueuePos = _ := Side.cursor_acts .push ha
      rw [pushClaims_trace, hcursor]
      by_cases hclaim : m = .go ∧ Side.push.claims x.1.queue (x.1.pc t) = true
      · rw [if_pos hclaim, if_pos hclaim, Counter.plus_toNat]
        · exact congrArg (· + 1) he
        · show x.1.queue.enqueuePos.toNat + 1 < 2 ^ w
          omega
      · rw [if_neg hclaim, if_neg hclaim]
        exact he

/-- The run lemma: a call has gone around its loop no more often than other calls have taken tickets. -/
theorem rounds_run {n : Nat} (r : Run ((machine Tid (BitVec w) T backoff c throwing).logged (trace c)) n)
    (hlt : (pushClaims (r.st n).2).length + c < 2 ^ (w - 1)) {side : Side} {t : Tid} {arg : T} {i j : Nat}
    (hcall : Call r t (side.op arg) i j) :
    r.count (fun x => retriesBy side c t x.1) i j ≤ r.count (fun x => claimsOther side t x.1) i j := by
  have hhalf := Counter.half_lt hpow
  have hbounded : ∀ k, k ≤ n → Bounded c (r.st k).1 ∧ (r.st k).1.queue.enqueuePos.toNat + c < 2 ^ (w - 1) := by
    intro k hk
    have hle := ((r.log_prefix hk (Nat.le_refl n)).sublist.filterMap TicketEvent.pushClaim).length_le
    have hlt' : (pushClaims (r.st k).2).length + c < 2 ^ (w - 1) := Nat.lt_of_le_of_lt (Nat.add_le_add_right hle c) hlt
    obtain ⟨hb, he⟩ := bounded_reachable hc hpow (r.reachable k hk) hlt'
    exact ⟨hb, he ▸ hlt'⟩
  have hij := hcall.lt
  have hjn := hcall.le
  have hrounds : ∀ k, i + 1 ≤ k → k ≤ j → Rounds side (side.cursor (r.st (i + 1)).1.queue).toNat
      (r.count (fun x => retriesBy side c t x.1) i k) (r.count (fun x => claimsOther side t x.1) i k)
      (r.st k).1.queue ((r.st k).1.pc t) := by
    intro k hik
    induction hik with
    | refl =>
      intro _
      have hs := (Machine.logged_step.mp (r.step i (by omega))).1
      rw [hcall.lab] at hs
      rw [r.count_succ _ (Nat.le_refl i), r.count_succ _ (Nat.le_refl i), r.count_self, r.count_self, hcall.lab]
      generalize (r.st (i + 1)).1 = s' at hs ⊢
      have hs : Atomic.step backoff c throwing (r.st i).1 (.call t (side.op arg)) = some s' := hs
      cases step_spec hs with
      | call _ =>
        simp only [Function.update_self]
        refine ⟨?_, Nat.le_refl _, fun _ => rfl, fun pos _ hpos => ?_⟩
        · cases side <;> exact nofun
        · cases side <;> cases hpos
    | @step k hik ih =>
      intro hk
      obtain ⟨hb, hroom⟩ := hbounded k (by omega)
      have hs := (Machine.logged_step.mp (r.step k (by omega))).1
      have hik' : i ≤ k := Nat.le_of_succ_le hik
      rw [r.count_succ _ hik', r.count_succ _ hik']
      refine (ih (by omega)).step (fun pos hr => hb.passed hc hpow hroom side t hr) ?_ (hcall.stays k (by omega) hik) hs
      have := hb.le
      cases side with
      | push => show (r.st k).1.queue.enqueuePos.toNat + 1 < _; omega
      | pop => show (r.st k).1.queue.dequeuePos.toNat + 1 < _; omega
  exact (hrounds j (by omega) (Nat.le_refl j)).le

end

end

end Atomic

/-! ## A call that runs alone -/

section
variable {N T : Type} [DecidableEq N] [Counter N] [Elem T]

def Frame.beginsRound : Frame N T → Bool
  | .loadSequence _ _ _ | .loadSequencePop _ _ => true
  | _ => false

def Frame.begun : Frame N T → Nat
  | .claim _ _ _ | .claimPop _ _ | .loadEnqueue _ _ | .loadDequeue _ => 1
  | _ => 0

/-- However its element operations turn out, a call that moves alone and without
spurious failures returns, and begins at most `n` more rounds of its loop. -/
inductive Finishes (backoff : Nat → Nat) (c : Nat) : Nat → AtomicQueue N T → Frame N T → Prop
  | done {n : Nat} {q : AtomicQueue N T} {k : Option N} {r : Reply T} : Finishes backoff c n q (.done k r)
  | next {n : Nat} {q : AtomicQueue N T} {f : Frame N T} : (q.act backoff c .go f).isSome = true →
      (∀ m q' f', m ≠ .spurious → q.act backoff c m f = some (q', f') → Finishes backoff c n q' f') →
      Finishes backoff c (n + if f.beginsRound then 1 else 0) q f

namespace Finishes

variable {backoff : Nat → Nat} {c n : Nat} {q : AtomicQueue N T}

theorem goesOn {f : Frame N T} (hf : f.beginsRound = false) (hs : (q.act backoff c .go f).isSome = true)
    (h : ∀ m q' f', m ≠ .spurious → q.Acts backoff c m f q' f' → Finishes backoff c n q' f') : Finishes backoff c n q f := by
  have := next (n := n) hs fun m q' f' hm ha => h m q' f' hm (AtomicQueue.act_spec ha)
  rwa [hf] at this

theorem round {f : Frame N T} (hf : f.beginsRound = true) (hs : (q.act backoff c .go f).isSome = true)
    (h : ∀ m q' f', m ≠ .spurious → q.Acts backoff c m f q' f' → Finishes backoff c n q' f') :
    Finishes backoff c (n + 1) q f := by
  have := next (n := n) hs fun m q' f' hm ha => h m q' f' hm (AtomicQueue.act_spec ha)
  rwa [hf] at this

/-! ### After the ticket -/

theorem publish {arg : T} {pos : N} : Finishes backoff c n q (.publish arg pos) := by
  refine goesOn rfl rfl fun m q' f' hm ha => ?_
  cases ha with
  | publish => exact done

theorem construct {arg : T} {pos : N} : Finishes backoff c n q (.construct arg pos) := by
  refine goesOn rfl rfl fun m q' f' hm ha => ?_
  cases ha with
  | construct => exact publish
  | constructThrows => exact done

theorem release {pos : N} {out : T} : Finishes backoff c n q (.release pos out) := by
  refine goesOn rfl rfl fun m q' f' hm ha => ?_
  cases ha with
  | release => exact done

theorem destroy {pos : N} {out : T} : Finishes backoff c n q (.destroy pos out) := by
  refine goesOn rfl rfl fun m q' f' hm ha => ?_
  cases ha with
  | destroy => exact release

theorem moveOut {pos : N} : Finishes backoff c n q (.moveOut pos) := by
  refine goesOn rfl rfl fun m q' f' hm ha => ?_
  cases ha with
  | moveOut _ => exact destroy
  | moveOutThrows => exact done

/-! ### A push, when the cell of the next ticket is not ahead of it -/

section
variable (hnot : ¬ 0 < Counter.dif (q.cell c q.enqueuePos).sequence q.enqueuePos) {arg : T} {pos : N} {spins : Nat}

theorem claim_last : Finishes backoff c n q (.claim arg q.enqueuePos spins) := by
  refine goesOn rfl (by simp [AtomicQueue.act]) fun m q' f' hm ha => ?_
  cases ha with
  | claim _ => exact construct
  | lost hl =>
    rcases hl with ⟨-, hne⟩ | rfl
    · exact absurd rfl hne
    · exact absurd rfl hm

include hnot

theorem loadSequence_last : Finishes backoff c (n + 1) q (.loadSequence arg q.enqueuePos spins) := by
  refine round rfl (by simp only [AtomicQueue.act]; split_ifs <;> rfl) fun m q' f' hm ha => ?_
  cases ha with
  | ready _ => exact claim_last
  | full _ => exact done
  | passed hdif => exact absurd hdif hnot

theorem loadEnqueue : Finishes backoff c (n + 1) q (.loadEnqueue arg spins) := by
  refine goesOn rfl rfl fun m q' f' hm ha => ?_
  cases ha with
  | loadEnqueue => exact loadSequence_last hnot

theorem claim : Finishes backoff c (n + 1) q (.claim arg pos spins) := by
  refine goesOn rfl (by simp only [AtomicQueue.act]; split_ifs <;> rfl) fun m q' f' hm ha => ?_
  cases ha with
  | claim _ => exact construct
  | lost _ => exact loadSequence_last hnot

theorem loadSequence : Finishes backoff c (n + 2) q (.loadSequence arg pos spins) := by
  refine round rfl (by simp only [AtomicQueue.act]; split_ifs <;> rfl) fun m q' f' hm ha => ?_
  cases ha with
  | ready _ => exact claim hnot
  | full _ => exact done
  | passed _ => exact loadEnqueue hnot

theorem checkClosed : Finishes backoff c (n + 1) q (.checkClosed arg) := by
  refine goesOn rfl (by simp only [AtomicQueue.act]; split_ifs <;> rfl) fun m q' f' hm ha => ?_
  cases ha with
  | refused _ => exact done
  | admitted _ => exact loadEnqueue hnot

end

/-! ### A pop, when the cell of the next ticket is not ahead of it -/

section
variable (hnot : ¬ 0 < Counter.dif (q.cell c q.dequeuePos).sequence (Counter.plus q.dequeuePos 1)) {pos : N} {spins : Nat}

theorem claimPop_last : Finishes backoff c n q (.claimPop q.dequeuePos spins) := by
  refine goesOn rfl (by simp [AtomicQueue.act]) fun m q' f' hm ha => ?_
  cases ha with
  | claimPop _ => exact moveOut
  | lostPop hl =>
    rcases hl with ⟨-, hne⟩ | rfl
    · exact absurd rfl hne
    · exact absurd rfl hm

include hnot

theorem loadSequencePop_last : Finishes backoff c (n + 1) q (.loadSequencePop q.dequeuePos spins) := by
  refine round rfl (by simp only [AtomicQueue.act]; split_ifs <;> rfl) fun m q' f' hm ha => ?_
  cases ha with
  | readyPop _ => exact claimPop_last
  | empty _ => exact done
  | passedPop hdif => exact absurd hdif hnot

theorem loadDequeue : Finishes backoff c (n + 1) q (.loadDequeue spins) := by
  refine goesOn rfl rfl fun m q' f' hm ha => ?_
  cases ha with
  | loadDequeue => exact loadSequencePop_last hnot

theorem claimPop : Finishes backoff c (n + 1) q (.claimPop pos spins) := by
  refine goesOn rfl (by simp only [AtomicQueue.act]; split_ifs <;> rfl) fun m q' f' hm ha => ?_
  cases ha with
  | claimPop _ => exact moveOut
  | lostPop _ => exact loadSequencePop_last hnot

theorem loadSequencePop : Finishes backoff c (n + 2) q (.loadSequencePop pos spins) := by
  refine round rfl (by simp only [AtomicQueue.act]; split_ifs <;> rfl) fun m q' f' hm ha => ?_
  cases ha with
  | readyPop _ => exact claimPop hnot
  | empty _ => exact done
  | passedPop _ => exact loadDequeue hnot

end

/-- Wherever a call is, it is through after the round it is in and one more. -/
theorem alone (hpush : ¬ 0 < Counter.dif (q.cell c q.enqueuePos).sequence q.enqueuePos)
    (hpop : ¬ 0 < Counter.dif (q.cell c q.dequeuePos).sequence (Counter.plus q.dequeuePos 1)) {f : Frame N T}
    (hf : f ≠ .idle) : Finishes backoff c (2 - f.begun) q f := by
  cases f with
  | idle => exact absurd rfl hf
  | checkClosed arg => exact checkClosed hpush
  | loadEnqueue arg spins => exact loadEnqueue hpush
  | loadSequence arg pos spins => exact loadSequence hpush
  | claim arg pos spins => exact claim hpush
  | construct arg pos => exact construct
  | publish arg pos => exact publish
  | loadDequeue spins => exact loadDequeue hpop
  | loadSequencePop pos spins => exact loadSequencePop hpop
  | claimPop pos spins => exact claimPop hpop
  | moveOut pos => exact moveOut
  | destroy pos out => exact destroy
  | release pos out => exact release
  | exchangeClosed =>
    refine goesOn rfl rfl fun m q' f' hm ha => ?_
    cases ha with
    | exchangeClosed => exact done
  | loadClosed =>
    refine goesOn rfl rfl fun m q' f' hm ha => ?_
    cases ha with
    | loadClosed => exact done
  | done k r => exact done

end Finishes

end

/-! ## The three versions -/

open Atomic

variable {Tid T : Type} [DecidableEq Tid] [Elem T] {fuel : Nat} {requested capacity : BitVec 64}

/-- **A retry means that somebody else progressed.** A call that goes around its
loop again, other than by a spurious failure, has been passed by the counter; in
a run it does so no more often than other calls take tickets; and wherever a
call is, alone it begins two rounds at most, the one it is in included. -/
theorem retries_mean_progress (version : AtomicVersion) (throwing : Bool)
    (hcap : normalizeCapacity fuel requested = some capacity) :
    (∀ x, (version.ticketed Tid T capacity throwing).Reachable x → (pushClaims x.2).length < 2 ^ 63 - capacity.toNat →
      ∀ t, (∀ (side : Side) pos, side.retries capacity.toNat x.1.queue (x.1.pc t) = some pos →
          pos.toNat < (side.cursor x.1.queue).toNat) ∧
        (x.1.pc t ≠ .idle → Finishes version.backoff capacity.toNat (2 - (x.1.pc t).begun) x.1.queue (x.1.pc t))) ∧
    ∀ n (r : Run (version.ticketed Tid T capacity throwing) n), (pushClaims (r.st n).2).length < 2 ^ 63 - capacity.toNat →
      ∀ t (side : Side) arg a b, Call r t (side.op arg) a b →
        r.count (fun x => retriesBy side capacity.toNat t x.1) a b ≤ r.count (fun x => claimsOther side t x.1) a b := by
  obtain ⟨hc, hpow⟩ := AtomicVersion.capacity_spec hcap
  rw [AtomicVersion.ticketed_eq]
  constructor
  · intro x hx hlt t
    obtain ⟨hb, he⟩ := bounded_reachable hc hpow hx (by omega)
    have hle := hb.le
    have hroom : x.1.queue.enqueuePos.toNat + capacity.toNat < 2 ^ (64 - 1) := by omega
    refine ⟨fun side pos => hb.passed hc hpow hroom side t, fun hin => Finishes.alone ?_ ?_ hin⟩
    · have hmark := (hb.mark hc hpow x.1.queue.enqueuePos).push_le hle
      rw [hb.dif hc hpow hroom (by omega)]
      omega
    · have hmark := (hb.mark hc hpow x.1.queue.dequeuePos).pop_le hb.bound
      have hnext : (Counter.plus x.1.queue.dequeuePos 1).toNat = x.1.queue.dequeuePos.toNat + 1 :=
        Counter.plus_toNat (by omega)
      rw [hb.dif hc hpow hroom (by omega), hnext]
      omega
  · intro n r hlt t side arg a b hcall
    exact rounds_run hc hpow r (by omega) hcall

theorem retries_mean_progress_two :
    normalizeCapacity 3 2#64 = some 2#64 ∧
    ∀ n (r : Run (AtomicVersion.V3.ticketed Nat Nat 2#64 true) n), (pushClaims (r.st n).2).length < 2 ^ 63 - 2 →
      ∀ t (side : Side) arg a b, Call r t (side.op arg) a b →
        r.count (fun x => retriesBy side 2 t x.1) a b ≤ r.count (fun x => claimsOther side t x.1) a b := by
  have hcap : normalizeCapacity 3 2#64 = some 2#64 := by decide
  exact ⟨hcap, (retries_mean_progress AtomicVersion.V3 true hcap).2⟩

end Yutil
