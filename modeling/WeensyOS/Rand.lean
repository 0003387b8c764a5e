import WeensyOS.LinearCongruence

/-!
# Pseudo-random numbers

`rand` and `srand` of lib.c. Every value is returned exactly twice in any `2 ^ 32` calls.
-/

namespace WeensyOS
open LinearCongruence

/-- `rand_seed_set` and `rand_seed`. -/
structure RandState where
  seedSet : Bool
  seed : BitVec 32
  deriving DecidableEq, Repr

@[simp] abbrev randMax : ℕ := 0x7FFFFFFF

def srand (seed : BitVec 32) : RandState := ⟨true, seed⟩

def rand (s : RandState) : ℕ × RandState :=
  let s := if s.seedSet then s else srand 819234718
  let seed := s.seed * 1664525 + 1013904223
  ((seed &&& BitVec.ofNat 32 randMax).toNat, { s with seed := seed })

namespace RandState

/-- The state after `n` calls of `rand`. -/
def after (n : ℕ) (s : RandState) : RandState := (fun s => (rand s).2)^[n] s

/-- The seed that the next call of `rand` starts from. -/
def start (s : RandState) : BitVec 32 := if s.seedSet then s.seed else 819234718

/-- The generator of `rand`. -/
def generator : BitVec 32 → BitVec 32 := next (BitVec.ofNat 32 1664525) (BitVec.ofNat 32 1013904223)

theorem rand_eq (s : RandState) :
    rand s = ((generator s.start).toNat % 2 ^ 31, ⟨true, generator s.start⟩) := by
  have hmask (x : BitVec 32) : (x &&& BitVec.ofNat 32 randMax).toNat = x.toNat % 2 ^ 31 :=
    Nat.and_two_pow_sub_one_eq_mod x.toNat 31
  obtain ⟨_ | _, seed⟩ := s <;> exact Prod.ext (hmask _) rfl

@[simp] theorem start_mk (x : BitVec 32) : start ⟨true, x⟩ = x := rfl

theorem after_rand (n : ℕ) (s : RandState) : s.after (n + 1) = (rand s).2.after n :=
  Function.iterate_succ_apply ..

theorem after_succ (n : ℕ) (s : RandState) :
    s.after (n + 1) = ⟨true, generator^[n + 1] s.start⟩ := by
  have hfirst (s : RandState) : (rand s).2 = ⟨true, generator s.start⟩ := by rw [rand_eq]
  induction n generalizing s with
  | zero => rw [after_rand, hfirst, Function.iterate_succ_apply]; rfl
  | succ n ih => rw [after_rand, ih, hfirst, start_mk, Function.iterate_succ_apply _ (n + 1)]

theorem start_after (n : ℕ) (s : RandState) : (s.after n).start = generator^[n] s.start := by
  cases n with
  | zero => rw [Function.iterate_zero_apply]; rfl
  | succ n => rw [after_succ, start_mk]

/-- The value that the call after `n` calls returns. -/
theorem rand_after (n : ℕ) (s : RandState) :
    (rand (s.after n)).1 = (generator^[n + 1] s.start).toNat % 2 ^ 31 := by
  rw [Function.iterate_succ_apply', rand_eq, start_after]

theorem generator_injOn (x : BitVec 32) :
    Set.InjOn (fun n => generator^[n + 1] x) {n | n < 2 ^ 32} := by
  intro i hi j hj h
  have hiter (n : ℕ) : generator^[n + 1] x = generator^[n] (generator x) :=
    Function.iterate_succ_apply ..
  have h' : generator^[i] (generator x) = generator^[j] (generator x) :=
    (hiter i).symm.trans (h.trans (hiter j))
  have hij := @iterate_injective 1664525 1013904223 32 (by norm_num) (by norm_num) (generator x)
    ⟨i, hi⟩ ⟨j, hj⟩ h'
  exact congrArg Fin.val hij

theorem generator_surjOn (x y : BitVec 32) : ∃ n < 2 ^ 32, generator^[n + 1] x = y := by
  obtain ⟨n, hn, h⟩ := @exists_iterate_eq 1664525 1013904223 32 (by norm_num) (by norm_num)
    (generator x) y
  exact ⟨n, hn, (Function.iterate_succ_apply ..).trans h⟩

/-- The two words that differ in the bit that `rand` masks. -/
theorem low_bits_iff {v : ℕ} (hv : v ≤ randMax) (y : BitVec 32) :
    y.toNat % 2 ^ 31 = v ↔ y = BitVec.ofNat 32 v ∨ y = BitVec.ofNat 32 (v + 2 ^ 31) := by
  simp only [randMax] at hv
  have hy := y.isLt
  rw [← BitVec.toNat_inj, ← BitVec.toNat_inj, BitVec.toNat_ofNat, BitVec.toNat_ofNat,
    Nat.mod_eq_of_lt (a := v) (by omega), Nat.mod_eq_of_lt (a := v + 2 ^ 31) (by omega)]
  omega

end RandState

/-- From any state, `rand` returns each value in `[0, RAND_MAX]` exactly twice in `2 ^ 32` calls. -/
theorem rand_equidistributed (s : RandState) {v : ℕ} (hv : v ≤ randMax) :
    ((Finset.range (2 ^ 32)).filter (fun n => (rand (s.after n)).1 = v)).card = 2 := by
  have himage : ((Finset.range (2 ^ 32)).filter (fun n => (rand (s.after n)).1 = v)).image
      (fun n => RandState.generator^[n + 1] s.start) =
        {BitVec.ofNat 32 v, BitVec.ofNat 32 (v + 2 ^ 31)} := by
    ext y
    rw [Finset.mem_image, Finset.mem_insert, Finset.mem_singleton, ← RandState.low_bits_iff hv]
    constructor
    · rintro ⟨n, hn, rfl⟩
      rw [← s.rand_after]
      exact (Finset.mem_filter.mp hn).2
    · intro hy
      obtain ⟨n, hn, rfl⟩ := RandState.generator_surjOn s.start y
      exact ⟨n, Finset.mem_filter.mpr ⟨Finset.mem_range.mpr hn, (s.rand_after n).trans hy⟩, rfl⟩
  have hinj : Set.InjOn (fun n => RandState.generator^[n + 1] s.start)
      ((Finset.range (2 ^ 32)).filter (fun n => (rand (s.after n)).1 = v)) :=
    (RandState.generator_injOn s.start).mono fun n hn =>
      Finset.mem_range.mp (Finset.mem_filter.mp (Finset.mem_coe.mp hn)).1
  rw [← Finset.card_image_of_injOn hinj, himage, Finset.card_pair]
  simp only [randMax] at hv
  rw [Ne, ← BitVec.toNat_inj, BitVec.toNat_ofNat, BitVec.toNat_ofNat]
  omega

theorem rand_equidistributed_sample : ((Finset.range (2 ^ 32)).filter
    (fun n => (rand ((⟨false, 0⟩ : RandState).after n)).1 = 17)).card = 2 :=
  rand_equidistributed _ (by decide)

end WeensyOS
