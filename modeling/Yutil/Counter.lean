import Mathlib.Algebra.Group.Nat.Defs

/-!
# Free-running counters

A queue's positions and sequence numbers, over natural numbers or over words
that wrap. Words below half of their range agree with the naturals on equality
and on signed differences, and a mask of a power of two is the remainder.
-/

namespace Interleave

class Counter (N : Type) where
  ofNat : Nat → N
  plus : N → Nat → N
  /-- The index of a position in a table of the given length. -/
  slot : Nat → N → Nat
  dif : N → N → Int

namespace Counter

instance : Counter Nat where
  ofNat k := k
  plus a n := a + n
  slot capacity pos := pos % capacity
  dif a b := a - b

/-- The index is `pos & mask_`, the difference a subtraction of signed words in two's complement. -/
instance (w : Nat) : Counter (BitVec w) where
  ofNat k := BitVec.ofNat w k
  plus a n := a + BitVec.ofNat w n
  slot capacity pos := (pos &&& (BitVec.ofNat w capacity - 1)).toNat
  dif a b := (a - b).toInt

variable {w : Nat}

theorem plus_word (a n : Nat) : plus (BitVec.ofNat w a) n = BitVec.ofNat w (a + n) := (BitVec.ofNat_add a n).symm

theorem word_inj {a b : Nat} (ha : a < 2 ^ w) (hb : b < 2 ^ w) (h : BitVec.ofNat w a = BitVec.ofNat w b) : a = b := by
  have h := congrArg BitVec.toNat h
  simpa [Nat.mod_eq_of_lt ha, Nat.mod_eq_of_lt hb] using h

theorem slot_word {c : Nat} (hc : ∃ j, j < w ∧ c = 2 ^ j) (k : Nat) : slot c (BitVec.ofNat w k) = k % c := by
  obtain ⟨j, hj, rfl⟩ := hc
  have hlt : 2 ^ j < 2 ^ w := Nat.pow_lt_pow_right (by omega) hj
  have hpos := Nat.two_pow_pos j
  have hmask : (BitVec.ofNat w (2 ^ j) - 1).toNat = 2 ^ j - 1 := by
    have h1 : (1 : BitVec w).toNat = 1 := by
      have : 1 < 2 ^ w := by omega
      simp [Nat.mod_eq_of_lt this]
    rw [BitVec.toNat_sub_of_le]
    · rw [h1, BitVec.toNat_ofNat, Nat.mod_eq_of_lt hlt]
    · rw [BitVec.le_def, h1, BitVec.toNat_ofNat, Nat.mod_eq_of_lt hlt]
      omega
  show (BitVec.ofNat w k &&& (BitVec.ofNat w (2 ^ j) - 1)).toNat = k % 2 ^ j
  rw [BitVec.toNat_and, hmask, Nat.and_two_pow_sub_one_eq_mod, BitVec.toNat_ofNat,
    Nat.mod_mod_of_dvd _ (Nat.pow_dvd_pow 2 (by omega))]

theorem word_sub {a b : Nat} (h1 : b ≤ a) (h2 : a < b + 2 ^ w) : (BitVec.ofNat w a - BitVec.ofNat w b).toNat = a - b := by
  obtain ⟨n, rfl⟩ := Nat.exists_eq_add_of_le h1
  rw [BitVec.ofNat_add, BitVec.add_comm, BitVec.add_sub_cancel, BitVec.toNat_ofNat, Nat.mod_eq_of_lt (by omega),
    Nat.add_sub_cancel_left]

theorem word_eq {a b : Nat} (h1 : b ≤ a) (h2 : a < b + 2 ^ w) : BitVec.ofNat w a = BitVec.ofNat w b ↔ a = b := by
  constructor
  · intro h
    have hz := word_sub h1 h2
    rw [h, BitVec.sub_self, BitVec.toNat_ofNat, Nat.zero_mod] at hz
    omega
  · intro h
    rw [h]

theorem dif_word_near (hw : 0 < w) {a b : Nat} (h1 : a < b + 2 ^ (w - 1)) (h2 : b ≤ a + 2 ^ (w - 1)) :
    dif (BitVec.ofNat w a) (BitVec.ofNat w b) = dif a b := by
  have hp : 2 ^ w = 2 * 2 ^ (w - 1) := by rw [← Nat.pow_succ', Nat.succ_eq_add_one, Nat.sub_add_cancel hw]
  show (BitVec.ofNat w a - BitVec.ofNat w b).toInt = (a : Int) - b
  rw [BitVec.toInt_sub, BitVec.toInt_ofNat', BitVec.toInt_ofNat', Int.bmod_sub_bmod, Int.sub_bmod_bmod]
  apply Int.bmod_eq_of_le <;> rw [hp] <;> omega

theorem dif_word {a b : Nat} (ha : a < 2 ^ (w - 1)) (hb : b < 2 ^ (w - 1)) :
    dif (BitVec.ofNat w a) (BitVec.ofNat w b) = dif a b := by
  rcases Nat.eq_zero_or_pos w with rfl | hw
  · simp only [Nat.zero_sub, Nat.pow_zero, Nat.lt_one_iff] at ha hb
    rw [ha, hb]
    rfl
  · exact dif_word_near hw (by omega) (by omega)

theorem dif_toNat {a b : BitVec w} (ha : a.toNat < 2 ^ (w - 1)) (hb : b.toNat < 2 ^ (w - 1)) :
    dif a b = (a.toNat : Int) - b.toNat := by
  have h := dif_word ha hb
  rw [BitVec.ofNat_toNat, BitVec.ofNat_toNat, BitVec.setWidth_eq, BitVec.setWidth_eq] at h
  exact h

theorem plus_toNat {a : BitVec w} {n : Nat} (h : a.toNat + n < 2 ^ w) : (plus a n).toNat = a.toNat + n := by
  show (a + BitVec.ofNat w n).toNat = _
  rw [BitVec.toNat_add, BitVec.toNat_ofNat, Nat.add_mod_mod, Nat.mod_eq_of_lt h]

theorem window_inj {c d j k : Nat} (hj : d ≤ j) (hj' : j < d + c) (hk : d ≤ k) (hk' : k < d + c) (h : j % c = k % c) :
    j = k := by
  have key : ∀ a b, d ≤ a → a ≤ b → b < d + c → a % c = b % c → a = b := by
    intro a b ha hab hb h
    have hdvd := Nat.dvd_of_mod_eq_zero (Nat.sub_mod_eq_zero_of_mod_eq h.symm)
    have := Nat.eq_zero_of_dvd_of_lt hdvd (by omega)
    omega
  rcases Nat.le_total j k with hle | hle
  · exact key j k hj hle hk' h
  · exact (key k j hk hle hj' h.symm).symm

theorem exists_window {c : Nat} (hc : 0 < c) (d k : Nat) : ∃ j, d ≤ j ∧ j < d + c ∧ j % c = k % c := by
  have hd := Nat.div_add_mod d c
  have hr := Nat.mod_lt d hc
  have hm := Nat.mod_lt k hc
  rcases Nat.lt_trichotomy (d % c) (k % c) with hlt | heq | hgt
  · refine ⟨c * (d / c) + k % c, by omega, by omega, ?_⟩
    rw [Nat.mul_add_mod, Nat.mod_mod]
  · exact ⟨d, Nat.le_refl _, by omega, heq⟩
  · refine ⟨c * (d / c + 1) + k % c, ?_, ?_, ?_⟩
    · rw [Nat.mul_add]; omega
    · rw [Nat.mul_add]; omega
    · rw [Nat.mul_add_mod, Nat.mod_mod]

theorem lap_le {c j k : Nat} (h : j % c = k % c) (hlt : k < j) : k + c ≤ j := by
  have hdvd := Nat.dvd_of_mod_eq_zero (Nat.sub_mod_eq_zero_of_mod_eq h)
  have := Nat.le_of_dvd (by omega) hdvd
  omega

/-! ## Words that wrap -/

variable {c : Nat} (hc : ∃ j, j < w ∧ c = 2 ^ j)

theorem plus_plus (a : BitVec w) (i j : Nat) : plus (plus a i) j = plus a (i + j) := by
  show a + BitVec.ofNat w i + BitVec.ofNat w j = a + BitVec.ofNat w (i + j)
  rw [BitVec.ofNat_add, BitVec.add_assoc]

theorem plus_zero (a : BitVec w) : plus a 0 = a := BitVec.add_zero a

theorem dif_eq_zero {a b : BitVec w} : dif a b = 0 ↔ a = b := by
  show (a - b).toInt = 0 ↔ a = b
  constructor
  · intro h
    have hz : a - b = 0#w := BitVec.toInt_inj.mp (h.trans BitVec.toInt_zero.symm)
    rw [← BitVec.sub_add_cancel a b, hz, BitVec.zero_add]
  · intro h
    rw [h, BitVec.sub_self]
    exact BitVec.toInt_zero

theorem two_halves (hw : 0 < w) : 2 ^ w = 2 * 2 ^ (w - 1) := by
  obtain ⟨n, rfl⟩ := Nat.exists_eq_add_of_lt hw
  rw [Nat.pow_succ, Nat.add_sub_cancel, Nat.mul_comm]

theorem dif_neg (a : BitVec w) {i j : Nat} (hij : i < j) (hj : j ≤ i + 2 ^ (w - 1)) (hw : 0 < w) :
    dif (plus a i) (plus a j) < 0 := by
  obtain ⟨k, rfl⟩ := Nat.exists_eq_add_of_lt hij
  have hp := two_halves hw
  have hd : plus a i - plus a (i + k + 1) = -BitVec.ofNat w (k + 1) := by
    rw [Nat.add_assoc, ← plus_plus]
    show plus a i - (plus a i + BitVec.ofNat w (k + 1)) = _
    rw [BitVec.sub_eq_add_neg, BitVec.neg_add, BitVec.sub_eq_add_neg, ← BitVec.add_assoc, BitVec.add_right_neg, BitVec.zero_add]
  show (plus a i - plus a (i + k + 1)).toInt < 0
  have hk : (BitVec.ofNat w (k + 1)).toNat = k + 1 := by rw [BitVec.toNat_ofNat, Nat.mod_eq_of_lt (by omega)]
  rw [hd, BitVec.toInt_neg_iff, BitVec.toNat_neg, hk, Nat.mod_eq_of_lt (by omega)]
  omega

include hc

theorem half_lt : 2 ^ (w - 1) < 2 ^ w := by
  obtain ⟨j, hj, -⟩ := hc
  exact Nat.pow_lt_pow_right (by omega) (by omega)

theorem slot_plus (a : BitVec w) (i : Nat) : slot c (plus a i) = (a.toNat + i) % c := by
  rw [← slot_word hc, ← plus_word, BitVec.ofNat_toNat, BitVec.setWidth_eq]

theorem slot_toNat (a : BitVec w) : slot c a = a.toNat % c := by
  have h := slot_plus hc a 0
  rwa [plus_zero] at h

theorem slot_plus_ne (a : BitVec w) {i j : Nat} (hij : i < j) (hj : j < i + c) :
    slot c (plus a j) ≠ slot c (plus a i) := by
  rw [slot_plus hc, slot_plus hc]
  intro h
  have := lap_le h (by omega)
  omega

theorem slot_lap (a : BitVec w) (i : Nat) : slot c (plus a (i + c)) = slot c (plus a i) := by
  rw [slot_plus hc, slot_plus hc, ← Nat.add_assoc, Nat.add_mod_right]

theorem plus_lap_ne (a : BitVec w) (i : Nat) : plus a (i + c) ≠ plus a i := by
  obtain ⟨j, hj, rfl⟩ := hc
  rw [← plus_plus]
  intro h
  have h : BitVec.ofNat w (2 ^ j) = 0#w := BitVec.add_right_eq_self.mp h
  have hlt := Nat.pow_lt_pow_right (a := 2) (by omega) hj
  have hz := word_inj hlt (Nat.two_pow_pos w) h
  have := Nat.two_pow_pos j
  omega

end Counter

end Interleave
