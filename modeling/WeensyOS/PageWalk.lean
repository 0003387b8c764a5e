import WeensyOS.TableTree

/-!
# Walks through arbitrary page tables

`virtual_memory_lookup` on page tables of any shape, with any flags at any level. The entries that a
walk reads are `pathEntry`; the lookup is computed from them, next to the processor's own walk. The
kernel carries the write and user bits from level to level through a mask that complements them each
time, so its answer about permissions is right for some combinations of flags only.
-/

namespace WeensyOS
open ByteMemory

/-- The table that the path of `va` reaches after `i` levels. -/
def pathTable (m : Memory) (pt va : ℕ) : ℕ → ℕ
  | 0 => pt
  | i + 1 => pteAddr (entry m (pathTable m pt va i) (pageindex va i))

/-- The entry for `va` at level `i`. -/
def pathEntry (m : Memory) (pt va i : ℕ) : ℕ := entry m (pathTable m pt va i) (pageindex va i)

/-- The first `n` entries on the path of `va` are present. -/
def Reached (m : Memory) (pt va n : ℕ) : Prop := ∀ i < n, pathEntry m pt va i &&& pteP ≠ 0

instance (m : Memory) (pt va n : ℕ) : Decidable (Reached m pt va n) :=
  inferInstanceAs (Decidable (∀ i < n, _))

section flags
variable {x y k : ℕ}

theorem and_two_pow_ne_zero : x &&& 2 ^ k ≠ 0 ↔ x.testBit k = true := by
  rw [Nat.and_two_pow]
  cases x.testBit k <;> simp

theorem testBit_lnot64 (hk : k < 64) : (lnot64 x).testBit k = !x.testBit k := by
  have hsub : lnot64 x = 2 ^ 64 - (x % 2 ^ 64 + 1) := by
    unfold lnot64
    omega
  rw [hsub, Nat.testBit_two_pow_sub_succ (Nat.mod_lt _ (by norm_num)), Nat.testBit_mod_two_pow]
  simp [hk]

/-- Masking with the complement of the write and user bits of `y`. -/
theorem masked_flag (hk : k = 1 ∨ k = 2) :
    (x &&& lnot64 (y &&& 6)) &&& 2 ^ k ≠ 0 ↔ x &&& 2 ^ k ≠ 0 ∧ y &&& 2 ^ k = 0 := by
  have hsix : (6 : ℕ).testBit k = true := by
    rcases hk with rfl | rfl <;> decide
  have hzero : y &&& 2 ^ k = 0 ↔ y.testBit k = false := by
    rw [Nat.and_two_pow]
    cases y.testBit k <;> simp
  rw [and_two_pow_ne_zero, and_two_pow_ne_zero, hzero, Nat.testBit_and, testBit_lnot64 (by omega),
    Nat.testBit_and, hsix]
  simp

theorem masked_present : (x &&& lnot64 (y &&& 6)) &&& pteP ≠ 0 ↔ x &&& pteP ≠ 0 := by
  change _ &&& 2 ^ 0 ≠ 0 ↔ _ &&& 2 ^ 0 ≠ 0
  have hsix : (6 : ℕ).testBit 0 = false := by decide
  rw [and_two_pow_ne_zero, and_two_pow_ne_zero, Nat.testBit_and, testBit_lnot64 (by norm_num),
    Nat.testBit_and, hsix]
  simp

theorem masked_frame (hx : x < 2 ^ 64) : (x &&& lnot64 (y &&& 6)) / 4096 = x / 4096 := by
  have hle : y &&& 6 ≤ 6 := Nat.and_le_right
  have hand : x % 4096 &&& (4095 - (y &&& 6)) ≤ x % 4096 := Nat.and_le_left
  rw [and_lnot64_flags hx (by omega)]
  omega

theorem masked_lt (hx : x < 2 ^ 64) : x &&& lnot64 (y &&& 6) < 2 ^ 64 :=
  lt_of_le_of_lt Nat.and_le_left hx

end flags

section walk
variable (m : Memory) (pt va : ℕ)

theorem pathEntry_lt (i : ℕ) : pathEntry m pt va i < 2 ^ 64 := entry_lt _ _ _

/-- The variable `pe` of `virtual_memory_lookup` after `i` rounds. -/
def carried : ℕ → ℕ
  | 0 => pteW ||| pteU ||| pteP
  | i + 1 => pathEntry m pt va i &&& lnot64 (carried i &&& (pteW ||| pteU))

theorem carried_lt (i : ℕ) : carried m pt va i < 2 ^ 64 := by
  cases i with
  | zero => exact (by decide : 7 < 2 ^ 64)
  | succ i => exact masked_lt (pathEntry_lt m pt va i)

theorem carried_present : carried m pt va 0 &&& pteP ≠ 0 := (by decide : 7 &&& 1 ≠ 0)

theorem carried_frame (i : ℕ) : carried m pt va (i + 1) / 4096 = pathEntry m pt va i / 4096 :=
  masked_frame (pathEntry_lt m pt va i)

theorem carried_addr (i : ℕ) : pteAddr (carried m pt va (i + 1)) = pathTable m pt va (i + 1) := by
  rw [pteAddr_eq (carried_lt m pt va (i + 1)), carried_frame]
  exact (pteAddr_eq (pathEntry_lt m pt va i)).symm

/-- The loop stops early just when it meets an entry that is not present. -/
theorem lookupLevels_path (n i : ℕ) (hi : carried m pt va i &&& pteP ≠ 0) :
    if ∀ j, i ≤ j → j < i + n → pathEntry m pt va j &&& pteP ≠ 0 then
      lookupLevels m va n i (pathTable m pt va i) (carried m pt va i) = carried m pt va (i + n)
    else lookupLevels m va n i (pathTable m pt va i) (carried m pt va i) &&& pteP = 0 := by
  induction n generalizing i with
  | zero =>
      rw [if_pos fun j h1 h2 => by omega]
      rfl
  | succ n ih =>
      have hstep : lookupLevels m va (n + 1) i (pathTable m pt va i) (carried m pt va i) =
          lookupLevels m va n (i + 1) (pathTable m pt va (i + 1)) (carried m pt va (i + 1)) := by
        rw [lookupLevels_present _ _ _ _ _ _ hi, ← carried_addr]
        rfl
      rw [hstep]
      by_cases hp : pathEntry m pt va i &&& pteP ≠ 0
      · have hall : (∀ j, i ≤ j → j < i + (n + 1) → pathEntry m pt va j &&& pteP ≠ 0) ↔
            ∀ j, i + 1 ≤ j → j < i + 1 + n → pathEntry m pt va j &&& pteP ≠ 0 := by
          refine ⟨fun h j h1 h2 => h j (by omega) (by omega), fun h j h1 h2 => ?_⟩
          by_cases hj : j = i
          · rwa [hj]
          · exact h j (by omega) (by omega)
        rw [if_congr hall rfl rfl, show i + (n + 1) = i + 1 + n by omega]
        exact ih (i + 1) (masked_present.mpr hp)
      · have habsent : carried m pt va (i + 1) &&& pteP = 0 :=
          not_not.mp fun h => hp (masked_present.mp h)
        rw [if_neg fun h => hp (h i le_rfl (by omega)), lookupLevels_absent _ _ _ _ _ _ habsent]
        exact habsent

/-- The lookup in terms of the four entries on the path. -/
theorem lookup_path : virtualMemoryLookup m pt va =
    if Reached m pt va 4 then
      ⟨pageNumber (carried m pt va 4), pteAddr (pathEntry m pt va 3) + pageOffset va,
        pteFlags (carried m pt va 4)⟩
    else VaMapping.unmapped := by
  have hloop := lookupLevels_path m pt va 4 0 (carried_present m pt va)
  have hall : (∀ j, 0 ≤ j → j < 0 + 4 → pathEntry m pt va j &&& pteP ≠ 0) ↔ Reached m pt va 4 :=
    ⟨fun h j hj => h j (Nat.zero_le j) (by omega), fun h j _ hj => h j (by omega)⟩
  rw [if_congr hall rfl rfl] at hloop
  have hlookup : virtualMemoryLookup m pt va =
      VaMapping.ofEntry (lookupLevels m va 4 0 (pathTable m pt va 0) (carried m pt va 0)) va := rfl
  rw [hlookup]
  unfold VaMapping.ofEntry
  by_cases hr : Reached m pt va 4
  · have hpres : carried m pt va 4 &&& pteP ≠ 0 := masked_present.mpr (hr 3 (by norm_num))
    rw [if_pos hr] at hloop ⊢
    rw [hloop, Nat.zero_add, if_pos hpres, carried_addr]
    rfl
  · rw [if_neg hr] at hloop ⊢
    rw [hloop, if_neg (by simp)]

theorem lookup_mapped : virtualMemoryLookup m pt va ≠ VaMapping.unmapped ↔ Reached m pt va 4 := by
  rw [lookup_path]
  split_ifs with hr
  · simp only [iff_true, hr]
    intro heq
    have hpres : carried m pt va 4 &&& pteP ≠ 0 := masked_present.mpr (hr 3 (by norm_num))
    have hperm : pteFlags (carried m pt va 4) = 0 := congrArg VaMapping.perm heq
    rw [pteFlags_eq] at hperm
    rw [and_flag_split (by norm_num), hperm] at hpres
    exact hpres rfl
  · simp [hr]

/-- The permissions that survive the masks. -/
theorem carried_four {k : ℕ} (hk : k = 1 ∨ k = 2) : carried m pt va 4 &&& 2 ^ k ≠ 0 ↔
    pathEntry m pt va 3 &&& 2 ^ k ≠ 0 ∧
      (pathEntry m pt va 2 &&& 2 ^ k ≠ 0 → pathEntry m pt va 1 &&& 2 ^ k ≠ 0) := by
  have hstep (i : ℕ) : carried m pt va (i + 1) &&& 2 ^ k ≠ 0 ↔
      pathEntry m pt va i &&& 2 ^ k ≠ 0 ∧ carried m pt va i &&& 2 ^ k = 0 := masked_flag hk
  have hroot : carried m pt va 0 &&& 2 ^ k ≠ 0 := by
    rcases hk with rfl | rfl
    · exact (by decide : 7 &&& 2 ≠ 0)
    · exact (by decide : 7 &&& 4 ≠ 0)
  have h1 : carried m pt va 1 &&& 2 ^ k = 0 := not_not.mp fun h => hroot ((hstep 0).mp h).2
  have h2 : carried m pt va 2 &&& 2 ^ k = 0 ↔ ¬ pathEntry m pt va 1 &&& 2 ^ k ≠ 0 := by
    rw [← (hstep 1).trans (and_iff_left h1), not_not]
  have h3 : carried m pt va 3 &&& 2 ^ k = 0 ↔
      (pathEntry m pt va 2 &&& 2 ^ k ≠ 0 → pathEntry m pt va 1 &&& 2 ^ k ≠ 0) := by
    constructor
    · intro hz he hn
      exact (hstep 2).mpr ⟨he, h2.mpr (not_not.mpr hn)⟩ hz
    · intro himp
      by_contra hne
      obtain ⟨he, hz⟩ := (hstep 2).mp hne
      exact h2.mp hz (himp he)
  rw [hstep 3, h3]

/-- The lookup of `va` says what the four entries on its path say. -/
structure LookupExact : Prop where
  mapped : virtualMemoryLookup m pt va ≠ VaMapping.unmapped ↔ Reached m pt va 4
  target : Reached m pt va 4 →
    (virtualMemoryLookup m pt va).pa = pteAddr (pathEntry m pt va 3) + pageOffset va ∧
      (virtualMemoryLookup m pt va).pn = (pathEntry m pt va 3 / pageSize : ℕ)
  writable : Reached m pt va 4 → ((virtualMemoryLookup m pt va).perm &&& pteW ≠ 0 ↔
    ∀ i < 4, pathEntry m pt va i &&& pteW ≠ 0)
  user : Reached m pt va 4 → ((virtualMemoryLookup m pt va).perm &&& pteU ≠ 0 ↔
    ∀ i < 4, pathEntry m pt va i &&& pteU ≠ 0)

/-- Where the kernel's masks leave the right answer about a flag of the leaf entry. -/
def FlagSurvives (f : ℕ) : Prop := pathEntry m pt va 3 &&& f ≠ 0 →
  pathEntry m pt va 2 &&& f ≠ 0 ∧
    (pathEntry m pt va 1 &&& f ≠ 0 → pathEntry m pt va 0 &&& f ≠ 0)

theorem flagSurvives_iff {k : ℕ} (hk : k = 1 ∨ k = 2) (hr : Reached m pt va 4) :
    ((virtualMemoryLookup m pt va).perm &&& 2 ^ k ≠ 0 ↔
      ∀ i < 4, pathEntry m pt va i &&& 2 ^ k ≠ 0) ↔ FlagSurvives m pt va (2 ^ k) := by
  have hlt : 2 ^ k < 4096 := by
    rcases hk with rfl | rfl <;> norm_num
  have hperm : (virtualMemoryLookup m pt va).perm = carried m pt va 4 % 4096 := by
    rw [lookup_path, if_pos hr, pteFlags_eq]
  have hfour := carried_four m pt va hk
  rw [hperm, ← and_flag_split hlt, hfour]
  unfold FlagSurvives
  constructor
  · intro h h3
    by_cases h2 : pathEntry m pt va 2 &&& 2 ^ k ≠ 0
    · refine ⟨h2, fun h1 => ?_⟩
      exact h.mp ⟨h3, fun _ => h1⟩ 0 (by norm_num)
    · exact absurd (h.mp ⟨h3, fun h2' => absurd h2' h2⟩ 2 (by norm_num)) h2
  · intro h
    refine ⟨fun ⟨h3, himp⟩ i hi => ?_, fun hall =>
      ⟨hall 3 (by norm_num), fun _ => hall 1 (by norm_num)⟩⟩
    obtain ⟨h2, h10⟩ := h h3
    have h1 := himp h2
    obtain rfl | rfl | rfl | rfl : i = 0 ∨ i = 1 ∨ i = 2 ∨ i = 3 := by omega
    · exact h10 h1
    · exact h1
    · exact h2
    · exact h3

/-- The lookup agrees with the walk of the processor exactly when the leaf's frame number fits into
an `int` and both flags survive. -/
theorem lookupExact_iff : LookupExact m pt va ↔ (Reached m pt va 4 →
    pathEntry m pt va 3 < 2 ^ 43 ∧ FlagSurvives m pt va pteW ∧ FlagSurvives m pt va pteU) := by
  have hlt := pathEntry_lt m pt va 3
  have hpn (hr : Reached m pt va 4) : (virtualMemoryLookup m pt va).pn =
      (pathEntry m pt va 3 / pageSize : ℕ) ↔ pathEntry m pt va 3 < 2 ^ 43 := by
    rw [lookup_path, if_pos hr, pageNumber, Nat.shiftRight_eq_div_pow,
      show (2 : ℕ) ^ 12 = 4096 from rfl, carried_frame]
    unfold toInt32
    simp only [pageSize]
    omega
  constructor
  · intro h hr
    exact ⟨(hpn hr).mp (h.target hr).2,
      (flagSurvives_iff m pt va (Or.inl rfl) hr).mp (h.writable hr),
      (flagSurvives_iff m pt va (Or.inr rfl) hr).mp (h.user hr)⟩
  · intro h
    refine ⟨lookup_mapped m pt va, fun hr => ⟨?_, (hpn hr).mpr (h hr).1⟩,
      fun hr => (flagSurvives_iff m pt va (Or.inl rfl) hr).mpr (h hr).2.1,
      fun hr => (flagSurvives_iff m pt va (Or.inr rfl) hr).mpr (h hr).2.2⟩
    rw [lookup_path, if_pos hr]

end walk

/-- A page table for address 0 whose third-level entry denies writing. -/
def deniedTable : Memory :=
  setEntry (setEntry (setEntry (setEntry (fun _ => 0) 0x1000 0 0x2007) 0x2000 0 0x3007)
    0x3000 0 0x4005) 0x4000 0 0x5007

/-- The lookup reports the page as writable, which the third level denies. -/
theorem not_lookupExact : ¬ LookupExact deniedTable 0x1000 0 := by
  rw [lookupExact_iff]
  intro h
  have hr : Reached deniedTable 0x1000 0 4 := by decide +kernel
  have hleaf : pathEntry deniedTable 0x1000 0 3 &&& pteW ≠ 0 := by decide +kernel
  exact ((h hr).2.1 hleaf).1 (by decide +kernel)

end WeensyOS
