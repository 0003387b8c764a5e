import Mathlib.Logic.Function.Basic
import Mathlib.Tactic.Ring

/-!
# Byte-addressed memory with little-endian words

A memory is a total map from addresses to bytes. Multi-byte loads and stores are little-endian,
and `memset` and `memcpy` are the usual forward byte loops. `AgreeOff` says that two memories
differ only inside a set of blocks; it is the frame condition that every writer below satisfies.
-/

namespace ByteMemory

abbrev Memory := ℕ → UInt8

def loadLE (m : Memory) (a : ℕ) : ℕ → ℕ
  | 0 => 0
  | n + 1 => (m a).toNat + 256 * loadLE m (a + 1) n

def storeLE (m : Memory) (a w : ℕ) : ℕ → Memory
  | 0 => m
  | n + 1 => storeLE (Function.update m a (UInt8.ofNat w)) (a + 1) (w / 256) n

def memset (m : Memory) (a : ℕ) (c : UInt8) : ℕ → Memory
  | 0 => m
  | n + 1 => memset (Function.update m a c) (a + 1) c n

def memcpy (m : Memory) (dst src : ℕ) : ℕ → Memory
  | 0 => m
  | n + 1 => memcpy (Function.update m dst (m src)) (dst + 1) (src + 1) n

theorem loadLE_lt (m : Memory) (a n : ℕ) : loadLE m a n < 256 ^ n := by
  induction n generalizing a with
  | zero => simp [loadLE]
  | succ n ih =>
      have hb : (m a).toNat < 256 := (m a).toNat_lt
      have hr := ih (a + 1)
      rw [loadLE, pow_succ]
      omega

/-- The same bytes at another place load as the same number. -/
theorem loadLE_shift {m m' : Memory} {a b n : ℕ} (h : ∀ i < n, m' (a + i) = m (b + i)) :
    loadLE m' a n = loadLE m b n := by
  induction n generalizing a b with
  | zero => rfl
  | succ n ih =>
      have hrest : ∀ i < n, m' (a + 1 + i) = m (b + 1 + i) := by
        intro i hi
        rw [Nat.add_assoc, Nat.add_assoc, Nat.add_comm 1 i]
        exact h (i + 1) (by omega)
      have hfirst : m' a = m b := h 0 (by omega)
      rw [loadLE, loadLE, ih hrest, hfirst]

theorem loadLE_congr {m m' : Memory} {a n : ℕ}
    (h : ∀ x, a ≤ x → x < a + n → m' x = m x) : loadLE m' a n = loadLE m a n :=
  loadLE_shift fun i hi => h (a + i) (by omega) (by omega)

/-- A number determines its bytes. -/
theorem eq_of_loadLE {m m' : Memory} {a n : ℕ} (h : loadLE m' a n = loadLE m a n) :
    ∀ x, a ≤ x → x < a + n → m' x = m x := by
  induction n generalizing a with
  | zero =>
      intro x hlo hhi
      omega
  | succ n ih =>
      have hb : (m a).toNat < 256 := (m a).toNat_lt
      have hb' : (m' a).toNat < 256 := (m' a).toNat_lt
      rw [loadLE, loadLE] at h
      have hrest : loadLE m' (a + 1) n = loadLE m (a + 1) n := by omega
      intro x hlo hhi
      by_cases hx : x = a
      · rw [hx]
        apply UInt8.toNat_inj.mp
        omega
      · exact ih hrest x (by omega) (by omega)

theorem storeLE_of_outside (m : Memory) (a w n x : ℕ) (h : x < a ∨ a + n ≤ x) :
    storeLE m a w n x = m x := by
  induction n generalizing m a w with
  | zero => rfl
  | succ n ih =>
      rw [storeLE, ih _ _ _ (by omega), Function.update_of_ne (by omega)]

theorem storeLE_apply (m : Memory) (a w n x : ℕ) : storeLE m a w n x =
    if a ≤ x ∧ x < a + n then UInt8.ofNat (w / 256 ^ (x - a)) else m x := by
  induction n generalizing m a w with
  | zero => exact (if_neg (by omega)).symm
  | succ n ih =>
      rw [storeLE, ih]
      by_cases hx : x = a
      · subst x
        simp
      · rw [Function.update_of_ne hx]
        by_cases hin : a + 1 ≤ x ∧ x < a + 1 + n
        · rw [if_pos hin, if_pos (by omega), Nat.div_div_eq_div_mul, ← pow_succ',
            show x - (a + 1) + 1 = x - a by omega]
        · rw [if_neg hin, if_neg (by omega)]

theorem loadLE_storeLE_same (m : Memory) (a w n : ℕ) :
    loadLE (storeLE m a w n) a n = w % 256 ^ n := by
  induction n generalizing m a w with
  | zero => simp [loadLE, Nat.mod_one]
  | succ n ih =>
      have hbyte : (storeLE m a w (n + 1) a).toNat = w % 256 := by
        rw [storeLE, storeLE_of_outside _ _ _ _ _ (by omega), Function.update_self]
        simp
      rw [loadLE, hbyte, storeLE, ih, pow_succ, mul_comm (256 ^ n) 256, Nat.mod_mul]

theorem loadLE_storeLE_disjoint (m : Memory) (a b w n k : ℕ) (h : b + k ≤ a ∨ a + n ≤ b) :
    loadLE (storeLE m a w n) b k = loadLE m b k :=
  loadLE_congr (fun x hx hx' => storeLE_of_outside m a w n x (by omega))

theorem storeLE_congr {m m' : Memory} {a w n x : ℕ} (h : m' x = m x) :
    storeLE m' a w n x = storeLE m a w n x := by
  induction n generalizing m m' a w with
  | zero => exact h
  | succ n ih =>
      rw [storeLE, storeLE]
      apply ih
      by_cases hx : x = a
      · simp [hx]
      · rw [Function.update_of_ne hx, Function.update_of_ne hx, h]

theorem memset_apply (m : Memory) (a : ℕ) (c : UInt8) (n x : ℕ) :
    memset m a c n x = if a ≤ x ∧ x < a + n then c else m x := by
  induction n generalizing m a with
  | zero => simp [memset]
  | succ n ih =>
      rw [memset, ih]
      by_cases hx : x = a
      · subst x
        simp
      · rw [Function.update_of_ne hx]
        exact if_congr (by omega) rfl rfl

/-- A forward copy between disjoint ranges moves every byte unchanged. -/
theorem memcpy_apply (m : Memory) (dst src n x : ℕ) (h : dst + n ≤ src ∨ src + n ≤ dst) :
    memcpy m dst src n x = if dst ≤ x ∧ x < dst + n then m (src + (x - dst)) else m x := by
  induction n generalizing m dst src with
  | zero => simp [memcpy]
  | succ n ih =>
      rw [memcpy, ih _ _ _ (by omega)]
      by_cases hx : x = dst
      · subst x
        simp
      · by_cases hin : dst + 1 ≤ x ∧ x < dst + 1 + n
        · rw [if_pos hin, if_pos (by omega), Function.update_of_ne (by omega)]
          congr 1
          omega
        · rw [if_neg hin, if_neg (by omega), Function.update_of_ne hx]

theorem memcpy_of_outside (m : Memory) (dst src n x : ℕ) (h : x < dst ∨ dst + n ≤ x) :
    memcpy m dst src n x = m x := by
  induction n generalizing m dst src with
  | zero => rfl
  | succ n ih =>
      rw [memcpy, ih _ _ _ (by omega), Function.update_of_ne (by omega)]

theorem memcpy_self (m : Memory) (a n : ℕ) : memcpy m a a n = m := by
  induction n generalizing a with
  | zero => rfl
  | succ n ih => rw [memcpy, Function.update_eq_self, ih]

theorem div_eq_block {size a b : ℕ} (hlo : b * size ≤ a) (hhi : a < b * size + size) :
    a / size = b := by
  rw [Nat.div_eq_iff (by omega)]
  omega

/-- The memories differ only inside blocks, of `size` bytes each, that satisfy `P`. -/
def AgreeOff (size : ℕ) (P : ℕ → Prop) (m m' : Memory) : Prop :=
  ∀ a, ¬ P (a / size) → m' a = m a

namespace AgreeOff

variable {size : ℕ} {P Q : ℕ → Prop} {m m' m'' : Memory}

theorem refl (size : ℕ) (P : ℕ → Prop) (m : Memory) : AgreeOff size P m m := fun _ _ => rfl

theorem trans (h : AgreeOff size P m m') (h' : AgreeOff size P m' m'') :
    AgreeOff size P m m'' := fun a ha => (h' a ha).trans (h a ha)

/-- Two memories that differ on `Q` still do after each has been written to on `P`. -/
theorem square {n n' : Memory} (h : AgreeOff size Q m n) (hm : AgreeOff size P m m')
    (hn : AgreeOff size P n n') : AgreeOff size (fun b => Q b ∨ P b) m' n' := by
  intro a ha
  rw [hm a fun hp => ha (Or.inr hp), hn a fun hp => ha (Or.inr hp)]
  exact h a fun hq => ha (Or.inl hq)

theorem mono (h : AgreeOff size P m m') (hpq : ∀ b, P b → Q b) : AgreeOff size Q m m' :=
  fun a ha => h a (fun hp => ha (hpq _ hp))

theorem loadLE_eq (h : AgreeOff size P m m') {b o n : ℕ} (hb : ¬ P b) (hn : o + n ≤ size) :
    loadLE m' (b * size + o) n = loadLE m (b * size + o) n := by
  apply loadLE_congr
  intro x hx hx'
  apply h
  rwa [div_eq_block (b := b) (by omega) (by omega)]

end AgreeOff

theorem agreeOff_storeLE (size : ℕ) (m : Memory) (b o w n : ℕ) (hn : o + n ≤ size) :
    AgreeOff size (· = b) m (storeLE m (b * size + o) w n) := by
  intro a ha
  apply storeLE_of_outside
  by_contra! hin
  exact ha (div_eq_block (by omega) (by omega))

theorem agreeOff_memset (size : ℕ) (m : Memory) (b : ℕ) (c : UInt8) :
    AgreeOff size (· = b) m (memset m (b * size) c size) := by
  intro a ha
  rw [memset_apply, if_neg]
  rintro ⟨hlo, hhi⟩
  exact ha (div_eq_block hlo hhi)

theorem agreeOff_memcpy (size : ℕ) (m : Memory) (b src : ℕ) :
    AgreeOff size (· = b) m (memcpy m (b * size) src size) := by
  intro a ha
  apply memcpy_of_outside
  by_contra! hin
  exact ha (div_eq_block (by omega) (by omega))

theorem agreeOff_update (size : ℕ) (m : Memory) (a : ℕ) (v : UInt8) :
    AgreeOff size (· = a / size) m (Function.update m a v) := by
  intro x hx
  apply Function.update_of_ne
  rintro rfl
  exact hx rfl

/-- Every byte of the result depends on that byte alone. -/
def Pointwise (f : Memory → Memory) : Prop := ∀ m m' x, m' x = m x → f m' x = f m x

theorem pointwise_storeLE (a w n : ℕ) : Pointwise fun m => storeLE m a w n :=
  fun _ _ _ h => storeLE_congr h

theorem pointwise_memset (a : ℕ) (c : UInt8) (n : ℕ) : Pointwise fun m => memset m a c n := by
  intro m m' x h
  dsimp only
  rw [memset_apply, memset_apply, h]

theorem Pointwise.comp {f g : Memory → Memory} (hf : Pointwise f) (hg : Pointwise g) :
    Pointwise fun m => f (g m) := fun m m' x h => hf _ _ x (hg m m' x h)

theorem Pointwise.foldl {α : Type} {f : Memory → α → Memory} (h : ∀ a, Pointwise fun m => f m a)
    (l : List α) : Pointwise fun m => l.foldl f m := by
  induction l with
  | nil => exact fun _ _ _ h => h
  | cons a l ih => exact ih.comp (h a)

section AgreeOff
variable {size : ℕ} {P : ℕ → Prop} {m m' : Memory}

/-- Where two memories agree, a pointwise update keeps them so. -/
theorem AgreeOff.map {f : Memory → Memory} (h : AgreeOff size P m m') (hf : Pointwise f) :
    AgreeOff size P (f m) (f m') := fun a ha => hf _ _ a (h a ha)

/-- So does a copy from a block in which they agree. -/
theorem AgreeOff.memcpy (h : AgreeOff size P m m') (dst : ℕ) {src : ℕ} (hsrc : ¬ P src) :
    AgreeOff size P (memcpy m (dst * size) (src * size) size)
      (memcpy m' (dst * size) (src * size) size) := by
  by_cases heq : dst = src
  · rw [heq, memcpy_self, memcpy_self]
    exact h
  · intro a ha
    have hdisj : dst * size + size ≤ src * size ∨ src * size + size ≤ dst * size := by
      rcases Nat.lt_or_gt_of_ne heq with hlt | hlt
      · left
        rw [← Nat.succ_mul]
        exact Nat.mul_le_mul_right size hlt
      · right
        rw [← Nat.succ_mul]
        exact Nat.mul_le_mul_right size hlt
    rw [memcpy_apply _ _ _ _ _ hdisj, memcpy_apply _ _ _ _ _ hdisj]
    split_ifs with hin
    · apply h
      rwa [div_eq_block (b := src) (by omega) (by omega)]
    · exact h a ha

end AgreeOff

end ByteMemory
