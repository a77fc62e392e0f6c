import DocIndex.Proofs.Sql.Order
import Mathlib.Algebra.Order.Ring.Int

/-! # Rounding of integers

An integer with more than 53 binary digits is rounded to 53 of them when it is taken as a binary64. Only where the
rounding reaches the next power of two does the exponent grow, and then the significand is the smallest again.
-/

namespace DocIndex

namespace Binary64

theorem exists_one : ∃ m, m = 1074 ∧ one = 2 ^ m := by
  refine ⟨1074, rfl, ?_⟩
  unfold one
  generalize 1074 = m
  rfl

/-! ## Rounded quotients -/

theorem divRound_mul_right (num den : Nat) {k : Nat} (hk : 0 < k) :
    divRound (num * k) (den * k) = divRound num den := by
  have hbelow : 2 * (num % den * k) < den * k ↔ 2 * (num % den) < den := by
    rw [← Nat.mul_assoc]
    exact Nat.mul_lt_mul_right hk
  have habove : den * k < 2 * (num % den * k) ↔ den < 2 * (num % den) := by
    rw [← Nat.mul_assoc]
    exact Nat.mul_lt_mul_right hk
  simp only [divRound, Nat.mul_div_mul_right _ _ hk, Nat.mul_mod_mul_right, hbelow, habove]

theorem divRound_cases (num den : Nat) : divRound num den = num / den ∨ divRound num den = num / den + 1 := by
  simp only [divRound]
  split_ifs <;> simp

/-! ## Codes -/

def ofCode (code : Nat) : Binary64 := ⟨UInt64.ofNat code⟩

theorem bits_ofCode {code : Nat} (h : code < 2 ^ 63) : (ofCode code).bits.toNat = code := by
  have hsize : code < UInt64.size := by
    unfold UInt64.size
    omega
  exact UInt64.toNat_ofNat_of_lt' hsize

theorem magnitude_ofCode {code : Nat} (exponent fraction : Nat) (hcode : code < 2 ^ 63)
    (h : code = (exponent + 1) * 2 ^ 52 + fraction) (hfraction : fraction < 2 ^ 52) :
    (ofCode code).magnitude = (2 ^ 52 + fraction) * 2 ^ exponent := by
  have hexponent : (ofCode code).exponentField = exponent + 1 := by
    show (ofCode code).bits.toNat / 2 ^ 52 % 2 ^ 11 = exponent + 1
    rw [bits_ofCode hcode]
    omega
  have hfield : (ofCode code).fractionField = fraction := by
    show (ofCode code).bits.toNat % 2 ^ 52 = fraction
    rw [bits_ofCode hcode]
    omega
  rw [magnitude, significand, shift, hexponent, hfield, if_neg (Nat.succ_ne_zero exponent)]
  rfl

theorem units_ofCode {places rounded : Nat} (hplaces : places ≤ 2044) (hle : 2 ^ 52 ≤ rounded)
    (hge : rounded ≤ 2 ^ 53) : (ofCode (places * 2 ^ 52 + rounded)).units = rounded * 2 ^ places := by
  have hcode : places * 2 ^ 52 + rounded < 2 ^ 63 := by omega
  have hsign : (ofCode (places * 2 ^ 52 + rounded)).isNegative = false := by
    have hsmall : (ofCode (places * 2 ^ 52 + rounded)).bits.toNat / 2 ^ 63 = 0 := by
      rw [bits_ofCode hcode]
      exact Nat.div_eq_of_lt hcode
    unfold isNegative
    rw [beq_eq_false_iff_ne]
    show (ofCode (places * 2 ^ 52 + rounded)).bits.toNat / 2 ^ 63 ≠ 1
    omega
  have hmagnitude : (ofCode (places * 2 ^ 52 + rounded)).magnitude = rounded * 2 ^ places := by
    rcases Nat.lt_or_eq_of_le hge with hlt | rfl
    · have h := magnitude_ofCode places (rounded - 2 ^ 52) hcode (by omega) (by omega)
      rw [h, Nat.add_sub_cancel' hle]
    · have h := magnitude_ofCode (places + 1) 0 hcode (by omega) (by omega)
      have hcarry : 2 ^ 53 = 2 ^ 52 * 2 := rfl
      rw [h, Nat.add_zero, hcarry, Nat.pow_succ 2 places, ← Nat.mul_assoc, Nat.mul_right_comm]
  rw [units, hsign, if_neg Bool.false_ne_true, hmagnitude]
  push_cast
  rfl

/-- A natural of more than 52 binary digits as a binary64: its first 53 digits, rounded. -/
theorem units_ofNat {n k : Nat} (hk : k ≤ 900) (hle : 2 ^ (52 + k) ≤ n) (hlt : n < 2 ^ (53 + k)) :
    (ofNat n).units = divRound n (2 ^ k) * 2 ^ k * one := by
  obtain ⟨m, hm, hone⟩ := exists_one
  have hpos : 0 < 2 ^ m := Nat.two_pow_pos m
  have hlog : Nat.log2 (n * 2 ^ m) = 52 + k + m := by
    have hn : n * 2 ^ m ≠ 0 := by
      have := Nat.two_pow_pos (52 + k)
      exact Nat.mul_ne_zero (by omega) (by omega)
    rw [Nat.log2_eq_iff hn, Nat.pow_add 2 (52 + k) m, show 52 + k + m + 1 = 53 + k + m by omega,
      Nat.pow_add 2 (53 + k) m]
    exact ⟨Nat.mul_le_mul_right _ hle, Nat.mul_lt_mul_of_pos_right hlt hpos⟩
  have hrounded : divRound (n * 2 ^ m) (1 * 2 ^ (k + m)) = divRound n (2 ^ k) := by
    rw [Nat.one_mul, Nat.pow_add, divRound_mul_right _ _ hpos]
  have hquotient : 2 ^ 52 ≤ n / 2 ^ k ∧ n / 2 ^ k < 2 ^ 53 := by
    rw [Nat.le_div_iff_mul_le (Nat.two_pow_pos k), Nat.div_lt_iff_lt_mul (Nat.two_pow_pos k), ← Nat.pow_add,
      ← Nat.pow_add]
    exact ⟨hle, hlt⟩
  have hbounds : 2 ^ 52 ≤ divRound n (2 ^ k) ∧ divRound n (2 ^ k) ≤ 2 ^ 53 := by
    rcases divRound_cases n (2 ^ k) with h | h <;> omega
  have hcode : (k + m) * 2 ^ 52 + divRound n (2 ^ k) < 0x7ff0000000000000 := by omega
  have hnearest : ofNat n = ofCode ((k + m) * 2 ^ 52 + divRound n (2 ^ k)) := by
    have hplaces : Nat.log2 (n * one / 1) - 52 = k + m := by
      rw [Nat.div_one, hone, hlog]
      omega
    simp only [ofNat, nearest, hplaces]
    rw [hone]
    show (if (k + m) * 2 ^ 52 + divRound (n * 2 ^ m) (1 * 2 ^ (k + m)) < 0x7ff0000000000000 then
      ofCode ((k + m) * 2 ^ 52 + divRound (n * 2 ^ m) (1 * 2 ^ (k + m))) else infinity) = _
    rw [hrounded, if_pos hcode]
  rw [hnearest, units_ofCode (by omega) hbounds.1 hbounds.2, hone, Int.pow_add]
  push_cast
  exact (Int.mul_assoc _ _ _).symm

end Binary64

end DocIndex
