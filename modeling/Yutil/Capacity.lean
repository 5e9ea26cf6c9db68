import Mathlib.Algebra.Group.Nat.Defs

/-!
# Capacities

`normalize_capacity` of the queues that mask their positions.
-/

namespace Yutil

variable {w : Nat}

/-- `normalize_capacity`, when its loop ends within `fuel` rounds. -/
def normalizeCapacity (fuel : Nat) (capacity : BitVec w) : Option (BitVec w) :=
  let rec loop : Nat → BitVec w → Option (BitVec w)
    | 0, _ => none
    | fuel + 1, normalized =>
      if normalized < capacity then loop fuel (normalized <<< 1)
      else some (if normalized < 2 then 2 else normalized)
  loop fuel 1

variable {requested capacity : BitVec w}

theorem normalizeCapacity_loop_zero (h : 0#w < requested) (fuel : Nat) :
    normalizeCapacity.loop requested fuel 0#w = none := by
  induction fuel with
  | zero => rfl
  | succ fuel ih =>
    unfold normalizeCapacity.loop
    rw [if_pos h, BitVec.zero_shiftLeft]
    exact ih

theorem normalizeCapacity_loop {fuel i : Nat} (hi : i < w)
    (h : normalizeCapacity.loop requested fuel (BitVec.twoPow w i) = some capacity) :
    ∃ j, i ≤ j ∧ j < w ∧ requested.toNat ≤ 2 ^ j ∧ (∀ k, i ≤ k → k < j → 2 ^ k < requested.toNat) ∧
      capacity = if BitVec.twoPow w j < 2 then 2 else BitVec.twoPow w j := by
  induction fuel generalizing i with
  | zero => cases h
  | succ fuel ih =>
    unfold normalizeCapacity.loop at h
    split at h
    · rename_i hlt
      rw [BitVec.lt_def, BitVec.toNat_twoPow_of_lt hi] at hlt
      rw [BitVec.twoPow_eq, ← BitVec.shiftLeft_add, ← BitVec.twoPow_eq] at h
      by_cases hi' : i + 1 = w
      · have hz : BitVec.twoPow w (i + 1) = 0#w := BitVec.eq_of_toNat_eq (by
          rw [BitVec.toNat_twoPow_of_le (by omega), BitVec.toNat_ofNat, Nat.zero_mod])
        rw [hz, normalizeCapacity_loop_zero] at h
        · cases h
        · rw [BitVec.lt_def, BitVec.toNat_ofNat, Nat.zero_mod]
          exact Nat.lt_of_le_of_lt (Nat.zero_le _) hlt
      · obtain ⟨j, h1, h2, h3, h4, h5⟩ := ih (by omega) h
        refine ⟨j, by omega, h2, h3, fun k hk hkj => ?_, h5⟩
        by_cases hki : k = i
        · rw [hki]
          exact hlt
        · exact h4 k (by omega) hkj
    · rename_i hge
      cases h
      rw [BitVec.lt_def, BitVec.toNat_twoPow_of_lt hi, Nat.not_lt] at hge
      exact ⟨i, Nat.le_refl _, hi, hge, fun k h1 h2 => absurd h1 (by omega), rfl⟩

/-- An accepted capacity is the first power of two, from two up, that covers the request. -/
theorem normalizeCapacity_least (hw : 2 ≤ w) {fuel : Nat} (h : normalizeCapacity fuel requested = some capacity) :
    ∃ j, 0 < j ∧ j < w ∧ capacity.toNat = 2 ^ j ∧ requested.toNat ≤ 2 ^ j ∧
      ∀ k, 0 < k → k < j → 2 ^ k < requested.toNat := by
  have hl : normalizeCapacity.loop requested fuel (BitVec.twoPow w 0) = some capacity := by
    rw [BitVec.twoPow_zero]
    exact h
  obtain ⟨j, -, hj, hreq, hlow, rfl⟩ := normalizeCapacity_loop (by omega) hl
  have h2 : (2 : BitVec w).toNat = 2 := by
    have : 2 ^ 2 ≤ 2 ^ w := Nat.pow_le_pow_right (by omega) hw
    simp [Nat.mod_eq_of_lt (show 2 < 2 ^ w by omega)]
  by_cases hz : j = 0
  · subst hz
    refine ⟨1, by omega, by omega, ?_, by omega, fun k h1 h2 => absurd h1 (by omega)⟩
    rw [if_pos, h2]
    · rfl
    · rw [BitVec.lt_def, h2, BitVec.toNat_twoPow_of_lt hj]
      decide
  · have hpow : 2 ^ 1 ≤ 2 ^ j := Nat.pow_le_pow_right (by omega) (by omega)
    refine ⟨j, by omega, hj, ?_, hreq, fun k h1 => hlow k (by omega)⟩
    rw [if_neg, BitVec.toNat_twoPow_of_lt hj]
    rw [BitVec.lt_def, h2, BitVec.toNat_twoPow_of_lt hj]
    omega

theorem normalizeCapacity_spec (hw : 2 ≤ w) {fuel : Nat} (h : normalizeCapacity fuel requested = some capacity) :
    ∃ j, 0 < j ∧ j < w ∧ capacity.toNat = 2 ^ j := by
  obtain ⟨j, h1, h2, h3, -, -⟩ := normalizeCapacity_least hw h
  exact ⟨j, h1, h2, h3⟩

/-- Requests up to half of the range are accepted. -/
theorem normalizeCapacity_exists (hw : 0 < w) (h : requested.toNat ≤ 2 ^ (w - 1)) :
    ∃ capacity, normalizeCapacity w requested = some capacity := by
  have rounds : ∀ n, n < w → ∃ capacity, normalizeCapacity.loop requested (n + 1) (BitVec.twoPow w (w - 1 - n)) = some capacity := by
    intro n hn
    induction n with
    | zero =>
      unfold normalizeCapacity.loop
      rw [if_neg]
      · exact ⟨_, rfl⟩
      · rw [BitVec.lt_def, BitVec.toNat_twoPow_of_lt (by omega)]
        exact Nat.not_lt.mpr h
    | succ n ih =>
      unfold normalizeCapacity.loop
      split
      · rw [BitVec.twoPow_eq, ← BitVec.shiftLeft_add, ← BitVec.twoPow_eq, show w - 1 - (n + 1) + 1 = w - 1 - n by omega]
        exact ih (by omega)
      · exact ⟨_, rfl⟩
  obtain ⟨n, rfl⟩ := Nat.exists_eq_add_of_lt hw
  have := rounds (0 + n) (by omega)
  rw [show 0 + n + 1 - 1 - (0 + n) = 0 by omega, BitVec.twoPow_zero] at this
  exact this

theorem normalizeCapacity_none (hw : 2 ≤ w) (h : 2 ^ (w - 1) < requested.toNat) (fuel : Nat) :
    normalizeCapacity fuel requested = none := by
  cases hx : normalizeCapacity fuel requested with
  | none => rfl
  | some capacity =>
    obtain ⟨j, -, hj, -, hreq, -⟩ := normalizeCapacity_least hw hx
    have : 2 ^ j ≤ 2 ^ (w - 1) := Nat.pow_le_pow_right (by omega) (by omega)
    omega

theorem and_mask {j : Nat} (h : capacity.toNat = 2 ^ j) (x : BitVec w) : x &&& (capacity - 1) = x % capacity := by
  have hpos := Nat.two_pow_pos j
  have hlt := capacity.isLt
  have h1 : (1 : BitVec w).toNat = 1 % 2 ^ w := BitVec.toNat_ofNat ..
  have hmask : (capacity - 1).toNat = 2 ^ j - 1 := by
    by_cases hw : w = 0
    · subst hw
      rw [Nat.pow_zero] at hlt
      omega
    · have : 2 ^ 1 ≤ 2 ^ w := Nat.pow_le_pow_right (by omega) (by omega)
      rw [Nat.mod_eq_of_lt (by omega)] at h1
      rw [BitVec.toNat_sub_of_le, h1, h]
      rw [BitVec.le_def, h1]
      omega
  apply BitVec.eq_of_toNat_eq
  rw [BitVec.toNat_and, hmask, Nat.and_two_pow_sub_one_eq_mod, BitVec.toNat_umod, h]

/-! ## What it is for -/

/-- The least power of two that covers a request and is at least two, with its mask. -/
structure Covers (requested capacity : BitVec w) : Prop where
  pow : ∃ j, capacity.toNat = 2 ^ j
  covers : max requested.toNat 2 ≤ capacity.toNat
  least : ∀ j, max requested.toNat 2 ≤ 2 ^ j → capacity.toNat ≤ 2 ^ j
  mask : ∀ x : BitVec w, x &&& (capacity - 1) = x % capacity
  divides : capacity.toNat ∣ 2 ^ w

/-- The loop ends, and with the least power of two where the word has one. -/
def Normalizes (requested : BitVec w) : Prop :=
  (∃ fuel capacity, normalizeCapacity fuel requested = some capacity) ∧
    ((∃ j, j < w ∧ max requested.toNat 2 ≤ 2 ^ j) →
      ∀ fuel capacity, normalizeCapacity fuel requested = some capacity → Covers requested capacity)

theorem normalizeCapacity_covers (hw : 2 ≤ w) {fuel : Nat} (h : normalizeCapacity fuel requested = some capacity) :
    Covers requested capacity := by
  obtain ⟨j, hpos, hj, hcap, hreq, hlow⟩ := normalizeCapacity_least hw h
  have h2 : 2 ^ 1 ≤ 2 ^ j := Nat.pow_le_pow_right (by omega) (by omega)
  refine ⟨⟨j, hcap⟩, ?_, fun k hk => ?_, and_mask hcap, ?_⟩
  · rw [hcap]
    omega
  · rw [hcap]
    apply Nat.pow_le_pow_right (by omega)
    refine Nat.le_of_not_lt fun hkj => ?_
    by_cases hz : k = 0
    · subst hz
      omega
    · have := hlow k (by omega) (by omega)
      omega
  · rw [hcap]
    exact Nat.pow_dvd_pow 2 (by omega)

/-- **The loop of `normalize_capacity` ends exactly for requests up to half of
the range**, and returns the least power of two then. -/
theorem normalizes_iff (requested : BitVec 64) : Normalizes requested ↔ requested.toNat ≤ 2 ^ 63 := by
  constructor
  · rintro ⟨⟨fuel, capacity, h⟩, -⟩
    refine Nat.le_of_not_lt fun hlt => ?_
    rw [normalizeCapacity_none (by decide) (by omega)] at h
    cases h
  · intro h
    obtain ⟨capacity, hcap⟩ := normalizeCapacity_exists (by decide) h
    exact ⟨⟨64, capacity, hcap⟩, fun _ fuel capacity hx => normalizeCapacity_covers (by decide) hx⟩

theorem normalizes_not : ¬ Normalizes 0x8000000000000001#64 := by
  rintro ⟨⟨fuel, capacity, h⟩, -⟩
  rw [normalizeCapacity_none (by decide) (by decide)] at h
  cases h

end Yutil
