import Yutil.AtomicRuns

/-!
# Comparisons at the middle

`emplace` and `try_pop` subtract two words after each has been read as signed.
The difference leaves the signed range when the middle of the counters' range
lies between the words. A position or a number gets there by a load, a lost
exchange, or a store, and which of these do is said by the state before them.
-/

namespace Yutil

open Interleave

/-! ## Differences -/

section
variable {w : Nat}

/-- The difference of two words, each read as signed, is one of the signed words. -/
def InRange (x : BitVec w × BitVec w) : Prop :=
  -((2 ^ (w - 1) : Nat) : Int) ≤ x.1.toInt - x.2.toInt ∧ x.1.toInt - x.2.toInt < ((2 ^ (w - 1) : Nat) : Int)

/-- The middle of the range lies between two words that are up to half of the range apart. -/
def Straddles (x : BitVec w × BitVec w) : Prop :=
  x.1.toNat < 2 ^ (w - 1) ∧ 2 ^ (w - 1) ≤ x.2.toNat ∧ x.2.toNat ≤ x.1.toNat + 2 ^ (w - 1) ∨
    x.2.toNat < 2 ^ (w - 1) ∧ 2 ^ (w - 1) ≤ x.1.toNat ∧ x.1.toNat < x.2.toNat + 2 ^ (w - 1)

theorem inRange_iff (hw : 0 < w) (x : BitVec w × BitVec w) : InRange x ↔ ¬ Straddles x := by
  have h1 := x.1.isLt
  have h2 := x.2.isLt
  unfold InRange Straddles
  rw [BitVec.toInt_eq_toNat_cond, BitVec.toInt_eq_toNat_cond]
  rw [Counter.two_halves hw] at h1 h2 ⊢
  generalize 2 ^ (w - 1) = half at h1 h2 ⊢
  split_ifs <;> omega

theorem not_straddles {x : BitVec w × BitVec w} (h1 : x.1.toNat < 2 ^ (w - 1)) (h2 : x.2.toNat < 2 ^ (w - 1)) :
    ¬ Straddles x := by
  rintro (⟨-, h, -⟩ | ⟨-, h, -⟩)
  · exact absurd h2 (Nat.not_lt.mpr h)
  · exact absurd h1 (Nat.not_lt.mpr h)

theorem not_straddles_self (x : BitVec w) : ¬ Straddles (x, x) := by
  rintro (⟨h1, h2, -⟩ | ⟨h1, h2, -⟩)
  · exact absurd h1 (Nat.not_lt.mpr h2)
  · exact absurd h1 (Nat.not_lt.mpr h2)

/-- The middle of the range is reached in the last `n` steps up to a word. -/
def Past (n : Nat) (x : BitVec w) : Prop := 2 ^ (w - 1) ≤ x.toNat ∧ x.toNat < 2 ^ (w - 1) + n

instance (n : Nat) (x : BitVec w) : Decidable (Past n x) := inferInstanceAs (Decidable (_ ∧ _))

theorem Past.mono {m n : Nat} {x : BitVec w} (h : Past m x) (hmn : m ≤ n) : Past n x := ⟨h.1, by have := h.2; omega⟩

theorem plus_toNat_cases (hw : 0 < w) (a : BitVec w) {n : Nat} (hn : n ≤ 2 ^ (w - 1)) :
    a.toNat + n < 2 * 2 ^ (w - 1) ∧ (Counter.plus a n).toNat = a.toNat + n ∨
      2 * 2 ^ (w - 1) ≤ a.toNat + n ∧ (Counter.plus a n).toNat + 2 * 2 ^ (w - 1) = a.toNat + n := by
  have hp := Counter.two_halves hw
  have ha := a.isLt
  have hplus : (Counter.plus a n).toNat = (a.toNat + n) % 2 ^ w := by
    show (a + BitVec.ofNat w n).toNat = _
    rw [BitVec.toNat_add, BitVec.toNat_ofNat, Nat.add_mod_mod]
  by_cases hlt : a.toNat + n < 2 ^ w
  · rw [Nat.mod_eq_of_lt hlt] at hplus
    exact .inl ⟨hp ▸ hlt, hplus⟩
  · rw [Nat.mod_eq_sub_mod (by omega), Nat.mod_eq_of_lt (by omega)] at hplus
    exact .inr ⟨by omega, by omega⟩

theorem straddles_ahead (hw : 0 < w) (a : BitVec w) {n : Nat} (hn : n ≤ 2 ^ (w - 1)) :
    Straddles (a, Counter.plus a n) ↔ Past n (Counter.plus a n) := by
  have ha := a.isLt
  rw [Counter.two_halves hw] at ha
  unfold Straddles Past
  simp only
  rcases plus_toNat_cases hw a hn with ⟨h1, h2⟩ | ⟨h1, h2⟩ <;> omega

theorem straddles_behind (hw : 0 < w) (a : BitVec w) {n : Nat} (hn : n < 2 ^ (w - 1)) :
    Straddles (Counter.plus a n, a) ↔ Past n (Counter.plus a n) := by
  have ha := a.isLt
  rw [Counter.two_halves hw] at ha
  unfold Straddles Past
  simp only
  rcases plus_toNat_cases hw a (Nat.le_of_lt hn) with ⟨h1, h2⟩ | ⟨h1, h2⟩ <;> omega

theorem straddles_plus (hw : 0 < w) (a : BitVec w) {n : Nat} (hn : n < 2 ^ (w - 1)) :
    Straddles (a, Counter.plus a n) ↔ a.toNat < 2 ^ (w - 1) ∧ 2 ^ (w - 1) ≤ a.toNat + n := by
  have ha := a.isLt
  rw [Counter.two_halves hw] at ha
  rw [straddles_ahead hw a (Nat.le_of_lt hn)]
  unfold Past
  rcases plus_toNat_cases hw a (Nat.le_of_lt hn) with ⟨h1, h2⟩ | ⟨h1, h2⟩ <;> omega

theorem past_add (hw : 0 < w) (a : BitVec w) {i j : Nat} (hij : i + j ≤ 2 ^ (w - 1)) :
    Past (i + j) (Counter.plus a j) ↔ Past i a ∨ Past j (Counter.plus a j) := by
  have ha := a.isLt
  rw [Counter.two_halves hw] at ha
  unfold Past
  rcases plus_toNat_cases hw a (show j ≤ 2 ^ (w - 1) by omega) with ⟨h1, h2⟩ | ⟨h1, h2⟩ <;> omega

end

/-! ## The comparisons of a queue -/

namespace Atomic

section
variable {N T : Type} [Counter N]

def compared (c : Nat) (q : AtomicQueue N T) : Frame N T → Option (N × N)
  | .loadSequence _ pos _ => some ((q.cell c pos).sequence, pos)
  | .loadSequencePop pos _ => some ((q.cell c pos).sequence, Counter.plus pos 1)
  | _ => none

end

section
variable {Tid T : Type} {w : Nat}

def ComparesInRange (c : Nat) (s : State Tid (BitVec w) T) : Prop :=
  ∀ t x, compared c s.queue (s.pc t) = some x → InRange x

variable (capacity : BitVec w)

/-- The cell of the next push is not free, and the position is past the middle by
less than the number is behind: a lap while the ticket a lap before is claimed
and not published, one less after that. -/
def PushMeets (q : AtomicQueue (BitVec w) T) : Prop :=
  (q.cell capacity.toNat q.enqueuePos).sequence ≠ q.enqueuePos ∧ (Past (capacity.toNat - 1) q.enqueuePos ∨
    q.enqueuePos - q.dequeuePos = capacity ∧ (q.cell capacity.toNat q.dequeuePos).sequence = q.dequeuePos ∧
      Past capacity.toNat q.enqueuePos)

instance (q : AtomicQueue (BitVec w) T) : Decidable (PushMeets capacity q) :=
  inferInstanceAs (Decidable (_ ∧ (_ ∨ _ ∧ _ ∧ _)))

/-- The cell of the next pop is not published, and the position after it is past
the middle by less than the number is behind: a lap until the pop a lap before
has released the cell, one step after that. -/
def PopMeets (q : AtomicQueue (BitVec w) T) : Prop :=
  (q.cell capacity.toNat q.dequeuePos).sequence ≠ q.dequeuePos + 1 ∧ (Past 1 (q.dequeuePos + 1) ∨
    (q.cell capacity.toNat q.dequeuePos).sequence ≠ q.dequeuePos ∧ Past capacity.toNat (q.dequeuePos + 1))

instance (q : AtomicQueue (BitVec w) T) : Decidable (PopMeets capacity q) :=
  inferInstanceAs (Decidable (_ ∧ (_ ∨ _ ∧ _)))

/-- About to load the number of the cell of `k`, with a position other than `x` in a push or `y` in a pop. -/
def Awaits (k x y : BitVec w) : Frame (BitVec w) T → Prop
  | .loadSequence _ pos _ => Counter.slot capacity.toNat pos = Counter.slot capacity.toNat k ∧ pos ≠ x
  | .loadSequencePop pos _ => Counter.slot capacity.toNat pos = Counter.slot capacity.toNat k ∧ pos ≠ y
  | _ => False

instance (k x y : BitVec w) : DecidablePred (Awaits (T := T) capacity k x y)
  | .loadSequence _ _ _ | .loadSequencePop _ _ => inferInstanceAs (Decidable (_ ∧ _))
  | .idle | .checkClosed _ | .loadEnqueue _ _ | .claim _ _ _ | .construct _ _ | .publish _ _ | .loadDequeue _ | .claimPop _ _
  | .moveOut _ | .destroy _ _ | .release _ _ | .exchangeClosed | .loadClosed | .done _ _ => inferInstanceAs (Decidable False)

/-- A step in this frame reads a position that is past the middle while its cell is
not, or takes the number of a cell past it for which a thread with an older
position waits. -/
def FrameMeets (s : State Tid (BitVec w) T) (m : Move) : Frame (BitVec w) T → Prop
  | .loadEnqueue _ _ => PushMeets capacity s.queue
  | .claim _ pos _ => (m = .go → s.queue.enqueuePos ≠ pos) ∧ PushMeets capacity s.queue
  | .publish _ k => Past 1 (k + 1) ∧ ∃ u, Awaits capacity k (k + capacity) k (s.pc u)
  | .loadDequeue _ => PopMeets capacity s.queue
  | .claimPop pos _ => (m = .go → s.queue.dequeuePos ≠ pos) ∧ PopMeets capacity s.queue
  | .release k _ => Past (capacity.toNat - 1) (k + capacity) ∧ ∃ u, Awaits capacity k (k + capacity) (k + capacity) (s.pc u)
  | _ => False

def MeetsMiddle (s : State Tid (BitVec w) T) : Label Tid T → Prop
  | .move t m => FrameMeets capacity s m (s.pc t)
  | _ => False

instance [Fintype Tid] (s : State Tid (BitVec w) T) (m : Move) : DecidablePred (FrameMeets capacity s m)
  | .loadEnqueue _ _ => inferInstanceAs (Decidable (PushMeets capacity s.queue))
  | .loadDequeue _ => inferInstanceAs (Decidable (PopMeets capacity s.queue))
  | .claim _ _ _ | .claimPop _ _ => inferInstanceAs (Decidable ((_ → _) ∧ _))
  | .publish _ _ | .release _ _ => inferInstanceAs (Decidable (_ ∧ ∃ _, _))
  | .idle | .checkClosed _ | .loadSequence _ _ _ | .construct _ _ | .loadSequencePop _ _ | .moveOut _ | .destroy _ _
  | .exchangeClosed | .loadClosed | .done _ _ => inferInstanceAs (Decidable False)

instance [Fintype Tid] (s : State Tid (BitVec w) T) : DecidablePred (MeetsMiddle capacity s)
  | .move t m => inferInstanceAs (Decidable (FrameMeets capacity s m (s.pc t)))
  | .call _ _ | .ret _ => inferInstanceAs (Decidable False)

end

/-! ## Over naturals -/

section
variable {Tid T : Type} {w c : Nat} {q q' : NatQueue T} {s s' : State Tid Nat T} {f : Frame Nat T}

def Across (w c : Nat) (q : NatQueue T) : Frame Nat T → Prop
  | .loadSequence _ pos _ => Straddles (word w (q.cell c pos).sequence, word w pos)
  | .loadSequencePop pos _ => Straddles (word w (q.cell c pos).sequence, word w (pos + 1))
  | _ => False

theorem across_congr (hcell : ∀ k, (q'.cell c k).sequence = (q.cell c k).sequence) : Across w c q' f ↔ Across w c q f := by
  cases f <;> simp only [Across, hcell]

theorem comparesInRange_word (hpow : ∃ j, j < w ∧ c = 2 ^ j) :
    ComparesInRange c (s.map (word w)) ↔ ∀ t, ¬ Across w c s.queue (s.pc t) := by
  obtain ⟨j, hj, -⟩ := id hpow
  have hcell : ∀ k, ((s.map (word w)).queue.cell c (word w k)).sequence = word w (s.queue.cell c k).sequence := by
    intro k
    show ((s.queue.cells (Counter.slot c (word w k))).map (word w)).sequence = _
    rw [Counter.slot_word hpow]
    rfl
  have each : ∀ f : Frame Nat T, (∀ x, compared c (s.map (word w)).queue (f.map (word w)) = some x → InRange x) ↔
      ¬ Across w c s.queue f := by
    intro f
    cases f with
    | loadSequence arg pos spins =>
      simp only [Frame.map, compared, Option.some.injEq, forall_eq', hcell]
      exact inRange_iff (by omega) _
    | loadSequencePop pos spins =>
      simp only [Frame.map, compared, Option.some.injEq, forall_eq', hcell, Counter.plus_word]
      exact inRange_iff (by omega) _
    | _ => exact ⟨fun _ h => h, fun _ _ hx => by cases hx⟩
  exact forall_congr' fun t => each (s.pc t)

/-- A number that is raised to `v + j` comes to lie across the middle from an
older position that it did not lie across before, when the rise passes the middle. -/
theorem straddles_raised (hw : 0 < w) {v j x : Nat} (hj : 0 < j) (hbefore : ¬ Straddles (word w v, word w x))
    (hx : x ≤ v ∧ v + j < x + 2 ^ (w - 1) ∨ v + j ≤ x ∧ x ≤ v + 2 ^ (w - 1)) :
    Straddles (word w (v + j), word w x) ↔ x ≤ v ∧ Past j (word w (v + j)) := by
  have plus : ∀ a n, word w (a + n) = Counter.plus (word w a) n := fun a n => (Counter.plus_word a n).symm
  rcases hx with ⟨h1, h2⟩ | ⟨h1, h2⟩
  · obtain ⟨i, rfl⟩ := Nat.exists_eq_add_of_le h1
    rw [plus, straddles_behind hw _ (by omega)] at hbefore
    rw [Nat.add_assoc, plus, straddles_behind hw _ (by omega), ← Counter.plus_plus, past_add hw _ (by omega)]
    exact ⟨fun h => ⟨h1, h.resolve_left hbefore⟩, fun h => .inr h.2⟩
  · obtain ⟨i, rfl⟩ := Nat.exists_eq_add_of_le h1
    rw [Nat.add_assoc, plus v (j + i), straddles_ahead hw _ (by omega), ← plus, ← Nat.add_assoc] at hbefore
    rw [plus (v + j) i, straddles_ahead hw _ (by omega), ← plus]
    exact ⟨fun h => absurd (h.mono (Nat.le_add_left i j)) hbefore, fun h => by omega⟩

theorem Lap.push_number (h : Lap c q) (hc : 0 < c) : (q.cell c q.enqueuePos).sequence = q.enqueuePos ∨
    q.enqueuePos = (q.cell c q.enqueuePos).sequence + (c - 1) ∧
      ¬ (q.enqueuePos = q.dequeuePos + c ∧ (q.cell c q.dequeuePos).sequence = q.dequeuePos) ∨
    q.enqueuePos = (q.cell c q.enqueuePos).sequence + c ∧ q.enqueuePos = q.dequeuePos + c ∧
      (q.cell c q.dequeuePos).sequence = q.dequeuePos := by
  have hb := h.bound
  by_cases hfull : q.enqueuePos = q.dequeuePos + c
  · have hcell : q.cell c q.enqueuePos = q.cell c q.dequeuePos := by rw [hfull, cell_lap]
    have := h.claimed q.dequeuePos (Nat.le_refl _) (by omega)
    rw [hcell]
    omega
  · have := h.free q.enqueuePos (Nat.le_refl _) (by omega)
    omega

theorem Lap.pop_number (h : Lap c q) (hc : 0 < c) : (q.cell c q.dequeuePos).sequence = q.dequeuePos + 1 ∨
    (q.cell c q.dequeuePos).sequence = q.dequeuePos ∨ q.dequeuePos + 1 = (q.cell c q.dequeuePos).sequence + c := by
  have hle := h.le
  by_cases hempty : q.enqueuePos = q.dequeuePos
  · have := h.free q.dequeuePos (Nat.le_of_eq hempty) (by omega)
    omega
  · have := h.claimed q.dequeuePos (Nat.le_refl _) (by omega)
    omega

variable {capacity : BitVec w} (hcap : capacity.toNat = c) (hc : 2 ≤ c)

include hcap hc

theorem push_across (hq : Sized w c q) {arg : T} {spins : Nat} :
    Across w c q (.loadSequence arg q.enqueuePos spins) ↔ PushMeets capacity (q.map (word w)) := by
  obtain ⟨hw, hhalf, hlt⟩ := hq.half
  have hle := hq.lap.le
  have hb := hq.lap.bound
  have plus : ∀ a n, word w (a + n) = Counter.plus (word w a) n := fun a n => (Counter.plus_word a n).symm
  have hE : ((q.map (word w)).cell c (q.map (word w)).enqueuePos).sequence = word w (q.cell c q.enqueuePos).sequence :=
    congrArg Cell.sequence (hq.cell q.enqueuePos)
  have hD : ((q.map (word w)).cell c (q.map (word w)).dequeuePos).sequence = word w (q.cell c q.dequeuePos).sequence :=
    congrArg Cell.sequence (hq.cell q.dequeuePos)
  have hfull : (q.map (word w)).enqueuePos - (q.map (word w)).dequeuePos = capacity ↔ q.enqueuePos = q.dequeuePos + c := by
    have hsub : ((q.map (word w)).enqueuePos - (q.map (word w)).dequeuePos).toNat = q.enqueuePos - q.dequeuePos :=
      Counter.word_sub hle (by omega)
    rw [← BitVec.toNat_inj, hcap, hsub]
    omega
  unfold PushMeets
  rw [hcap, hE, hD, hfull]
  show Straddles (word w (q.cell c q.enqueuePos).sequence, word w q.enqueuePos) ↔
    word w (q.cell c q.enqueuePos).sequence ≠ word w q.enqueuePos ∧ (Past (c - 1) (word w q.enqueuePos) ∨
      q.enqueuePos = q.dequeuePos + c ∧ word w (q.cell c q.dequeuePos).sequence = word w q.dequeuePos ∧
        Past c (word w q.enqueuePos))
  by_cases hfree : (q.cell c q.enqueuePos).sequence = q.enqueuePos
  · rw [hfree]
    exact ⟨fun h => absurd h (not_straddles_self _), fun h => absurd rfl h.1⟩
  · obtain ⟨hlow, -⟩ := hq.lap.le_sequence hq.pos (Nat.le_refl q.enqueuePos)
    have hup := (hq.lap.next_le hc).1
    have hne : word w (q.cell c q.enqueuePos).sequence ≠ word w q.enqueuePos := fun he =>
      hfree ((Counter.word_eq hup (by omega)).mp he.symm).symm
    have behind : ∀ n, q.enqueuePos = (q.cell c q.enqueuePos).sequence + n → n ≤ c →
        (Straddles (word w (q.cell c q.enqueuePos).sequence, word w q.enqueuePos) ↔ Past n (word w q.enqueuePos)) := by
      intro n hn hle
      have h := straddles_ahead hw (word w (q.cell c q.enqueuePos).sequence) (show n ≤ 2 ^ (w - 1) by omega)
      rwa [← plus, ← hn] at h
    rcases hq.lap.push_number hq.pos with h | ⟨h, hno⟩ | ⟨h, h1, h2⟩
    · exact absurd h hfree
    · -- published and taken, or not free yet
      rw [behind (c - 1) h (by omega)]
      refine ⟨fun hp => ⟨hne, .inl hp⟩, fun hp => hp.2.resolve_right ?_⟩
      rintro ⟨g1, g2, -⟩
      refine hno ⟨g1, ?_⟩
      have := hq.lap.claimed q.dequeuePos (Nat.le_refl _) (by omega)
      have := (Counter.word_eq (w := w) (show q.dequeuePos ≤ (q.cell c q.dequeuePos).sequence by omega) (by omega)).mp g2
      omega
    · -- claimed only
      rw [behind c h (Nat.le_refl c)]
      refine ⟨fun hp => ⟨hne, .inr ⟨h1, by rw [h2], hp⟩⟩, fun hp => ?_⟩
      exact hp.2.elim (fun hp => hp.mono (Nat.sub_le c 1)) fun hp => hp.2.2

theorem pop_across (hq : Sized w c q) {spins : Nat} :
    Across w c q (.loadSequencePop q.dequeuePos spins) ↔ PopMeets capacity (q.map (word w)) := by
  obtain ⟨hw, hhalf, hlt⟩ := hq.half
  have plus : ∀ a n, word w (a + n) = Counter.plus (word w a) n := fun a n => (Counter.plus_word a n).symm
  have hD : ((q.map (word w)).cell c (q.map (word w)).dequeuePos).sequence = word w (q.cell c q.dequeuePos).sequence :=
    congrArg Cell.sequence (hq.cell q.dequeuePos)
  have hnext : (q.map (word w)).dequeuePos + 1 = word w (q.dequeuePos + 1) := (plus q.dequeuePos 1).symm
  unfold PopMeets
  rw [hcap, hD, hnext]
  show Straddles (word w (q.cell c q.dequeuePos).sequence, word w (q.dequeuePos + 1)) ↔
    word w (q.cell c q.dequeuePos).sequence ≠ word w (q.dequeuePos + 1) ∧ (Past 1 (word w (q.dequeuePos + 1)) ∨
      word w (q.cell c q.dequeuePos).sequence ≠ word w q.dequeuePos ∧ Past c (word w (q.dequeuePos + 1)))
  have behind : ∀ n, q.dequeuePos + 1 = (q.cell c q.dequeuePos).sequence + n → n ≤ c →
      (Straddles (word w (q.cell c q.dequeuePos).sequence, word w (q.dequeuePos + 1)) ↔ Past n (word w (q.dequeuePos + 1))) := by
    intro n hn hle
    have h := straddles_ahead hw (word w (q.cell c q.dequeuePos).sequence) (show n ≤ 2 ^ (w - 1) by omega)
    rwa [← plus, ← hn] at h
  have differ : ∀ {a b : Nat}, a < b → b < a + 2 ^ w → word w a ≠ word w b := fun h1 h2 he =>
    Nat.ne_of_gt h1 ((Counter.word_eq (Nat.le_of_lt h1) h2).mp he.symm)
  rcases hq.lap.pop_number hq.pos with h | h | h
  · rw [h]
    exact ⟨fun h => absurd h (not_straddles_self _), fun h => absurd rfl h.1⟩
  · -- not published
    rw [behind 1 (by omega) (by omega), h]
    refine ⟨fun hp => ⟨differ (Nat.lt_succ_self _) (by omega), .inl hp⟩, fun hp => hp.2.resolve_right fun hno => hno.1 rfl⟩
  · -- still that of the pop a lap before
    rw [behind c h (Nat.le_refl c)]
    refine ⟨fun hp => ⟨differ (by omega) (by omega), .inr ⟨differ (by omega) (by omega), hp⟩⟩, fun hp => ?_⟩
    exact hp.2.elim (fun hp => hp.mono (by omega)) fun hp => hp.2

theorem across_raised (hq : Sized w c q) {k v j y : Nat}
    (hkind : v = k ∧ j = 1 ∧ y = k ∧ q.dequeuePos ≤ k ∧ k < q.enqueuePos ∨
      v = k + 1 ∧ v + j = k + c ∧ y = k + c ∧ k < q.dequeuePos ∧ q.enqueuePos ≤ k + c)
    (hcell : ∀ i, i % c ≠ k % c → q'.cell c i = q.cell c i) (hv : (q.cell c k).sequence = v)
    (hv' : (q'.cell c k).sequence = v + j) (hf : FrameOk c q f) (hn : Near w c q f) (hbefore : ¬ Across w c q f) :
    Across w c q' f ↔ Past j (word w (v + j)) ∧ Awaits capacity (word w k) (word w (k + c)) (word w y) (f.map (word w)) := by
  obtain ⟨hw, hhalf, hlt⟩ := hq.half
  have hle := hq.lap.le
  have hb := hq.lap.bound
  have slot : ∀ i, Counter.slot capacity.toNat (word w i) = i % c := fun i => by rw [hcap, Counter.slot_word hq.pow]
  -- a position `pos` of this cell, compared as `x`, against the one that stays behind the number
  have raised : ∀ {pos x z : Nat}, pos % c = k % c → ¬ Straddles (word w v, word w x) →
      (x ≤ v ∧ v + j < x + 2 ^ (w - 1) ∨ v + j ≤ x ∧ x ≤ v + 2 ^ (w - 1)) → (x ≤ v ↔ pos ≠ z) → pos ≤ z → z < pos + 2 ^ w →
      (Straddles (word w (v + j), word w x) ↔ Past j (word w (v + j)) ∧ pos % c = k % c ∧ word w pos ≠ word w z) := by
    intro pos x z hmod hbefore hx hz h1 h2
    have hne : word w pos ≠ word w z ↔ pos ≠ z := not_congr ((eq_comm.trans (Counter.word_eq h1 h2)).trans eq_comm)
    rw [straddles_raised hw (by omega) hbefore hx, hne, hz]
    exact ⟨fun h => ⟨h.2, hmod, h.1⟩, fun h => ⟨h.2.2, h.1⟩⟩
  cases f with
  | loadSequence arg pos spins =>
    have hf : pos ≤ q.enqueuePos := hf
    have hn : q.enqueuePos + c ≤ pos + 2 ^ (w - 1) := hn
    simp only [Across, Awaits, Frame.map, slot] at hbefore ⊢
    by_cases hmod : pos % c = k % c
    · have hpos : pos ≤ k ∨ pos = k + c := by
        rcases Nat.lt_or_ge k pos with hlt | hge
        · have := Counter.lap_le hmod hlt
          omega
        · exact .inl hge
      rw [cell_mod q hmod, hv] at hbefore
      rw [cell_mod q' hmod, hv']
      exact raised hmod hbefore (by omega) (by omega) (by omega) (by omega)
    · rw [hcell pos hmod]
      exact ⟨fun h => absurd h hbefore, fun h => absurd h.2.1 hmod⟩
  | loadSequencePop pos spins =>
    have hf : pos ≤ q.dequeuePos := hf
    have hn : q.dequeuePos + c ≤ pos + 2 ^ (w - 1) := hn
    simp only [Across, Awaits, Frame.map, slot] at hbefore ⊢
    by_cases hmod : pos % c = k % c
    · have hpos : pos ≤ k ∧ (pos < k → pos + c ≤ k) ∨ pos = k + c := by
        rcases Nat.lt_trichotomy k pos with hlt | rfl | hgt
        · have := Counter.lap_le hmod hlt
          omega
        · exact .inl ⟨Nat.le_refl _, fun h => absurd h (Nat.lt_irrefl _)⟩
        · have := Counter.lap_le hmod.symm hgt
          exact .inl ⟨Nat.le_of_lt hgt, fun _ => this⟩
      rw [cell_mod q hmod, hv] at hbefore
      rw [cell_mod q' hmod, hv']
      exact raised hmod hbefore (by omega) (by omega) (by omega) (by omega)
    · rw [hcell pos hmod]
      exact ⟨fun h => absurd h hbefore, fun h => absurd h.2.1 hmod⟩
  | _ => exact ⟨False.elim, fun h => h.2.elim⟩

variable [DecidableEq Tid] {t : Tid}

omit hcap hc in
theorem inRange_moved (hpow : ∃ j, j < w ∧ c = 2 ^ j) (hbefore : ∀ u, ¬ Across w c s.queue (s.pc u))
    (hcell : ∀ k, (q.cell c k).sequence = (s.queue.cell c k).sequence) :
    ComparesInRange c ((⟨q, Function.update s.pc t f⟩ : State Tid Nat T).map (word w)) ↔ ¬ Across w c q f := by
  rw [comparesInRange_word hpow]
  constructor
  · intro h
    simpa only [Function.update_self] using h t
  · intro h u
    by_cases hu : u = t
    · subst hu
      simpa only [Function.update_self] using h
    · simp only [Function.update_of_ne hu]
      exact fun hacross => hbefore u ((across_congr hcell).mp hacross)

theorem inRange_raised (hI : Inv c s) (hq : Sized w c s.queue) (hn : ∀ u, Near w c s.queue (s.pc u))
    (hbefore : ∀ u, ¬ Across w c s.queue (s.pc u)) {k v j y : Nat}
    (hkind : v = k ∧ j = 1 ∧ y = k ∧ s.queue.dequeuePos ≤ k ∧ k < s.queue.enqueuePos ∨
      v = k + 1 ∧ v + j = k + c ∧ y = k + c ∧ k < s.queue.dequeuePos ∧ s.queue.enqueuePos ≤ k + c)
    (hcell : ∀ i, i % c ≠ k % c → q.cell c i = s.queue.cell c i) (hv : (s.queue.cell c k).sequence = v)
    (hv' : (q.cell c k).sequence = v + j)
    (hself : ¬ Awaits capacity (word w k) (word w (k + c)) (word w y) ((s.pc t).map (word w))) (r : Reply T) :
    ComparesInRange c ((⟨q, Function.update s.pc t (.done (some k) r)⟩ : State Tid Nat T).map (word w)) ↔
      ¬ (Past j (word w (v + j)) ∧
        ∃ u, Awaits capacity (word w k) (word w (k + c)) (word w y) ((s.map (word w)).pc u)) := by
  have each := fun u => across_raised hcap hc hq hkind hcell hv hv' (hI.frames u) (hn u) (hbefore u)
  rw [comparesInRange_word hq.pow]
  constructor
  · rintro h ⟨hp, u, hu⟩
    have hut : u ≠ t := by
      rintro rfl
      exact hself hu
    have hu' := h u
    simp only [Function.update_of_ne hut] at hu'
    exact hu' ((each u).mpr ⟨hp, hu⟩)
  · intro h u
    by_cases hut : u = t
    · subst hut
      simp only [Function.update_self]
      exact id
    · simp only [Function.update_of_ne hut]
      intro hacross
      obtain ⟨hp, hu⟩ := (each u).mp hacross
      exact h ⟨hp, u, hu⟩

variable [Elem T] {backoff : Nat → Nat} {throwing : Bool} {a : Label Tid T}

/-- One step keeps the comparisons in range unless it meets the middle. -/
theorem middle_step (hpow : ∃ j, j < w ∧ c = 2 ^ j) (hI : Inv c s) (hn : ∀ u, Near w c s.queue (s.pc u))
    (hs : Atomic.step backoff c throwing s a = some s') (hin : ComparesInRange c (s.map (word w))) :
    ComparesInRange c (s'.map (word w)) ↔ ¬ MeetsMiddle capacity (s.map (word w)) a := by
  have hq := Sized.mk hI.lap hpow
  have hbefore := (comparesInRange_word hpow).mp hin
  have quiet : ∀ (q : NatQueue T) (t : Tid) (f : Frame Nat T), (∀ k, (q.cell c k).sequence = (s.queue.cell c k).sequence) →
      (ComparesInRange c ((⟨q, Function.update s.pc t f⟩ : State Tid Nat T).map (word w)) ↔ ¬ Across w c q f) :=
    fun q t f hcell => inRange_moved hpow hbefore hcell
  cases step_spec hs with
  | @call t op _ =>
    refine (quiet s.queue t _ fun _ => rfl).trans ?_
    cases op <;> exact Iff.rfl
  | @ret t k r _ => exact quiet s.queue t .idle fun _ => rfl
  | @move t m q f _ ha =>
    have hf := hI.frames t
    have hnt := hn t
    have hframe : (s.map (word w)).pc t = (s.pc t).map (word w) := rfl
    have hqueue : (s.map (word w)).queue = s.queue.map (word w) := rfl
    have hcapacity : ∀ k, word w k + capacity = word w (k + c) := by
      intro k
      refine Eq.trans ?_ (Counter.plus_word k c)
      show word w k + capacity = word w k + BitVec.ofNat w c
      rw [← hcap, BitVec.ofNat_toNat, BitVec.setWidth_eq]
    have hone : ∀ k, word w k + 1 = word w (k + 1) := fun k => Counter.plus_word k 1
    simp only [MeetsMiddle, hframe]
    generalize hpc : s.pc t = g at ha hf hnt
    cases ha with
    | loadEnqueue => exact (quiet s.queue t _ fun _ => rfl).trans (not_congr (push_across hcap hc hq))
    | loadDequeue => exact (quiet s.queue t _ fun _ => rfl).trans (not_congr (pop_across hcap hc hq))
    | @lost m arg pos spins hl =>
      have hb : pos ≤ s.queue.enqueuePos := by rcases hf with hf | hf <;> omega
      have hlost : m = .go → (s.map (word w)).queue.enqueuePos ≠ word w pos := by
        intro hm
        rw [ne_eq, hqueue, hq.enqueuePos_eq hb hnt]
        rcases hl with hl | hl
        · exact hl.2
        · rw [hm] at hl
          cases hl
      refine (quiet s.queue t _ fun _ => rfl).trans (not_congr ((push_across hcap hc hq).trans ?_))
      exact ⟨fun h => ⟨hlost, h⟩, fun h => h.2⟩
    | @lostPop m pos spins hl =>
      have hb : pos ≤ s.queue.dequeuePos := by rcases hf with hf | hf <;> omega
      have hlost : m = .go → (s.map (word w)).queue.dequeuePos ≠ word w pos := by
        intro hm
        rw [ne_eq, hqueue, hq.dequeuePos_eq hb hnt]
        rcases hl with hl | hl
        · exact hl.2
        · rw [hm] at hl
          cases hl
      refine (quiet s.queue t _ fun _ => rfl).trans (not_congr ((pop_across hcap hc hq).trans ?_))
      exact ⟨fun h => ⟨hlost, h⟩, fun h => h.2⟩
    | @publish arg pos =>
      have h := inRange_raised hcap hc hI hq hn hbefore (q := s.queue.store c pos (Counter.plus pos 1)) (t := t) (v := pos)
        (j := 1) (y := pos) (.inl ⟨rfl, rfl, rfl, hf.1, hf.2.1⟩) (fun i hi => cell_store_ne _ _ hi) hf.2.2.1
        (by rw [cell_store_self]; rfl) (by rw [hpc]; exact id) (.pushed true arg)
      simp only [Frame.map, FrameMeets, hone, hcapacity]
      exact h
    | @release pos out =>
      have h := inRange_raised hcap hc hI hq hn hbefore (q := s.queue.store c pos (Counter.plus pos c)) (t := t) (v := pos + 1)
        (j := c - 1) (y := pos + c) (.inr ⟨rfl, by omega, rfl, hf.1, hf.2.1⟩) (fun i hi => cell_store_ne _ _ hi) hf.2.2.1
        (by rw [cell_store_self]; show pos + c = _; omega) (by rw [hpc]; exact id) (.popped (some out))
      rw [show pos + 1 + (c - 1) = pos + c by omega] at h
      simp only [Frame.map, FrameMeets, hcapacity, hcap]
      exact h
    | construct | moveOut | destroy => exact quiet _ t _ fun k => sequence_place ..
    | @claim arg pos spins he =>
      refine (quiet { s.queue with enqueuePos := Counter.plus pos 1 } t _ fun _ => rfl).trans ?_
      exact ⟨fun _ h => h.1 rfl (congrArg (word w) he), fun _ => id⟩
    | @claimPop pos spins he =>
      refine (quiet { s.queue with dequeuePos := Counter.plus pos 1 } t _ fun _ => rfl).trans ?_
      exact ⟨fun _ h => h.1 rfl (congrArg (word w) he), fun _ => id⟩
    | exchangeClosed => exact quiet _ t _ fun _ => rfl
    | _ => exact quiet s.queue t _ fun _ => rfl

/-- **A run stays in range** exactly as long as no step meets the middle. -/
theorem in_range_run {n : Nat} (hpow : ∃ j, j < w ∧ c = 2 ^ j)
    (r : Run ((machine Tid (BitVec w) T backoff c throwing).logged (trace c)) n) (hk : KeepsUp c r) :
    (∀ i, i ≤ n → ComparesInRange c (r.st i).1) ↔ ∀ i, i < n → ¬ MeetsMiddle capacity (r.st i).1 (r.lab i) := by
  obtain ⟨r', hlab, hr'⟩ := run_reads r hc hpow hk
  have hstep : ∀ i, i < n → ComparesInRange c (r.st i).1 →
      (ComparesInRange c (r.st (i + 1)).1 ↔ ¬ MeetsMiddle capacity (r.st i).1 (r.lab i)) := by
    intro i hi hin
    obtain ⟨hy, hreads⟩ := hr' i (Nat.le_of_lt hi)
    have hs := (Machine.logged_step.mp (r'.step i hi)).1
    rw [hlab] at hs
    rw [hy] at hin ⊢
    rw [(hr' (i + 1) hi).1]
    exact middle_step hcap hc hpow hreads.numbered.inv (fun u => hreads.near hk hy u (Nat.le_succ _) (Nat.le_succ _)) hs hin
  constructor
  · intro h i hi
    exact (hstep i hi (h i (Nat.le_of_lt hi))).mp (h (i + 1) hi)
  · intro h i
    induction i with
    | zero =>
      intro _ t x hx
      rw [r.start] at hx
      cases hx
    | succ i ih =>
      intro hi
      exact (hstep i hi (ih (Nat.le_of_succ_le hi))).mpr (h i hi)

end

end Atomic

end Yutil
