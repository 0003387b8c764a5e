import Mathlib.Algebra.Ring.GeomSum
import Mathlib.Data.Fintype.EquivFin
import Mathlib.Logic.Function.Iterate
import Mathlib.Tactic

/-!
# Linear congruential generators

The map `x ↦ x * a + c` on words of `w` bits. With `a ≡ 1 (mod 4)` and `c` odd it runs from every
word through all `2 ^ w` words.
-/

namespace LinearCongruence

def next {w : ℕ} (a c x : BitVec w) : BitVec w := x * a + c

/-- The sum `1 + a + … + a ^ (n - 1)`. -/
def powers (a n : ℕ) : ℕ := ∑ i ∈ Finset.range n, a ^ i

theorem powers_succ (a n : ℕ) : powers a (n + 1) = a * powers a n + 1 := geom_sum_succ

theorem powers_double (a m : ℕ) : powers a (2 * m) = powers a m * (a ^ m + 1) := by
  rw [powers, two_mul, Finset.sum_range_add, powers, mul_add, mul_one, add_comm, Finset.sum_mul]
  simp_rw [pow_add, mul_comm]

variable {a c : ℕ}

theorem powers_mod_two (ha : a % 2 = 1) (n : ℕ) : powers a n % 2 = n % 2 := by
  induction n with
  | zero => rfl
  | succ n ih => rw [powers_succ, Nat.add_mod, Nat.mul_mod, ha, ih]; omega

theorem pow_mod_four (ha : a % 4 = 1) (m : ℕ) : a ^ m % 4 = 1 := by
  simp [Nat.pow_mod, ha]

/-- Doubling `n` doubles the sum, up to an odd factor. -/
theorem two_pow_dvd_powers (ha : a % 4 = 1) (k n : ℕ) : 2 ^ k ∣ powers a n ↔ 2 ^ k ∣ n := by
  induction k generalizing n with
  | zero => simp
  | succ k ih =>
      rcases Nat.even_or_odd' n with ⟨m, rfl | rfl⟩
      · have hodd := pow_mod_four ha m
        obtain ⟨u, hu⟩ : ∃ u, a ^ m + 1 = 2 * (2 * u + 1) := ⟨(a ^ m - 1) / 4, by omega⟩
        have hcoprime : Nat.Coprime (2 ^ k) (2 * u + 1) := Nat.Coprime.pow_left k (by simp)
        rw [powers_double, hu, pow_succ', mul_left_comm, Nat.mul_dvd_mul_iff_left two_pos,
          Nat.mul_dvd_mul_iff_left two_pos, ← ih m]
        exact ⟨hcoprime.dvd_of_dvd_mul_right, fun h => h.mul_right _⟩
      · have hmod := powers_mod_two (show a % 2 = 1 by omega) (2 * m + 1)
        have hpow : 2 ∣ 2 ^ (k + 1) := Dvd.intro_left _ rfl
        constructor
        · intro h
          have := hpow.trans h
          omega
        · intro h
          have := hpow.trans h
          omega

theorem iterate_nat (b c x n : ℕ) :
    (fun x => x * (b + 1) + c)^[n] x = x + powers (b + 1) n * (x * b + c) := by
  induction n with
  | zero => simp [powers]
  | succ n ih =>
      rw [Function.iterate_succ_apply', ih, powers_succ]
      ring

section word
variable {w : ℕ}

theorem next_ofNat (x : ℕ) : next (BitVec.ofNat w a) (BitVec.ofNat w c) (BitVec.ofNat w x) =
    BitVec.ofNat w (x * a + c) := by
  rw [next, BitVec.ofNat_add, BitVec.ofNat_mul]

theorem iterate_next (x : BitVec w) (b n : ℕ) :
    (next (BitVec.ofNat w (b + 1)) (BitVec.ofNat w c))^[n] x =
      BitVec.ofNat w (x.toNat + powers (b + 1) n * (x.toNat * b + c)) := by
  rw [← iterate_nat]
  have hsemi : Function.Semiconj (BitVec.ofNat w) (fun x => x * (b + 1) + c)
      (next (BitVec.ofNat w (b + 1)) (BitVec.ofNat w c)) := fun x => (next_ofNat x).symm
  rw [(hsemi.iterate_right n).eq, BitVec.ofNat_toNat, BitVec.setWidth_eq]

/-- The generator is back where it was after a multiple of `2 ^ w` steps, and not before. -/
theorem iterate_eq_self_iff (ha : a % 4 = 1) (hc : c % 2 = 1) (x : BitVec w) (n : ℕ) :
    (next (BitVec.ofNat w a) (BitVec.ofNat w c))^[n] x = x ↔ 2 ^ w ∣ n := by
  obtain ⟨b, rfl⟩ : ∃ b, a = b + 1 := ⟨a - 1, by omega⟩
  have hodd : (x.toNat * b + c) % 2 = 1 := by
    have hb : b % 2 = 0 := by omega
    simp [Nat.add_mod, Nat.mul_mod, hb, hc]
  have hcoprime : Nat.Coprime (2 ^ w) (x.toNat * b + c) :=
    Nat.Coprime.pow_left w (Nat.coprime_two_left.mpr (Nat.odd_iff.mpr hodd))
  rw [iterate_next, ← BitVec.toNat_inj, BitVec.toNat_ofNat, ← two_pow_dvd_powers ha]
  constructor
  · intro h
    have hmod : x.toNat + powers (b + 1) n * (x.toNat * b + c) ≡ x.toNat + 0 [MOD 2 ^ w] :=
      h.trans (Nat.mod_eq_of_lt x.isLt).symm
    exact hcoprime.dvd_of_dvd_mul_right
      (Nat.modEq_zero_iff_dvd.mp (Nat.ModEq.add_left_cancel' _ hmod))
  · rintro ⟨q, hq⟩
    rw [hq, mul_assoc, Nat.add_mul_mod_self_left, Nat.mod_eq_of_lt x.isLt]

theorem iterate_injective (ha : a % 4 = 1) (hc : c % 2 = 1) (x : BitVec w) :
    Function.Injective (fun i : Fin (2 ^ w) =>
      (next (BitVec.ofNat w a) (BitVec.ofNat w c))^[i] x) := by
  have hle {i j : Fin (2 ^ w)} (hij : i ≤ j) (h : (next (BitVec.ofNat w a) (BitVec.ofNat w c))^[i] x =
      (next (BitVec.ofNat w a) (BitVec.ofNat w c))^[j] x) : i = j := by
    rw [← Nat.sub_add_cancel hij, Function.iterate_add_apply] at h
    have hdvd := (iterate_eq_self_iff ha hc _ _).mp h.symm
    have hzero := Nat.eq_zero_of_dvd_of_lt hdvd (by omega)
    omega
  intro i j h
  rcases le_total i j with hij | hij
  · exact hle hij h
  · exact (hle hij h.symm).symm

/-- Every word is reached from every other. -/
theorem exists_iterate_eq (ha : a % 4 = 1) (hc : c % 2 = 1) (x y : BitVec w) :
    ∃ n < 2 ^ w, (next (BitVec.ofNat w a) (BitVec.ofNat w c))^[n] x = y := by
  have hinj : Function.Injective (fun i : Fin (2 ^ w) =>
      ((next (BitVec.ofNat w a) (BitVec.ofNat w c))^[i] x).toFin) := fun i j h =>
    iterate_injective ha hc x (BitVec.toFin_inj.mp h)
  obtain ⟨i, hi⟩ := Finite.surjective_of_injective hinj y.toFin
  exact ⟨i, i.isLt, BitVec.toFin_inj.mp hi⟩

end word

end LinearCongruence
