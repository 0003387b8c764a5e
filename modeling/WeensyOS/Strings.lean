import WeensyOS.Boot

/-!
# Copies and C strings

`memmove`, `strcpy`, `strcmp` and the other loops of lib.c over bytes. The copies are described for
all positions of source and destination: `memmove` moves a block, `memcpy` repeats the bytes in
front of a destination inside the source, and `strcpy` never ends there. Loops up to a NUL count
down a fuel. `kernel` tells its commands apart with `strcmp`.
-/

namespace WeensyOS
open ByteMemory

/-! Blocks. -/

/-- `*--d = *--s`, `n` times. -/
def moveDown : ℕ → Memory → ℕ → ℕ → Memory
  | 0, m, _, _ => m
  | n + 1, m, d, s => moveDown n (Function.update m (d - 1) (m (s - 1))) (d - 1) (s - 1)

def memmove (m : Memory) (dst src n : ℕ) : Memory :=
  if src < dst ∧ src + n > dst then moveDown n m (dst + n) (src + n) else memcpy m dst src n

/-- The memory with a copy of the `n` bytes at `src` at `dst`. -/
def moved (m : Memory) (dst src n : ℕ) : Memory := fun x =>
  if dst ≤ x ∧ x < dst + n then m (src + (x - dst)) else m x

section blocks
variable (m : Memory) {dst src : ℕ} (n : ℕ)

theorem moveDown_eq (h : src < dst) : moveDown n m (dst + n) (src + n) = moved m dst src n := by
  induction n generalizing m with
  | zero =>
      funext x
      exact (if_neg (by omega)).symm
  | succ n ih =>
      rw [moveDown, ← Nat.add_assoc, ← Nat.add_assoc, Nat.add_sub_cancel, Nat.add_sub_cancel, ih]
      funext x
      unfold moved
      by_cases hx : x = dst + n
      · rw [if_neg (by omega), if_pos (by omega), hx, Function.update_self,
          Nat.add_sub_cancel_left]
      · by_cases hin : dst ≤ x ∧ x < dst + n
        · rw [if_pos hin, if_pos (by omega), Function.update_of_ne (by omega)]
        · rw [if_neg hin, if_neg (by omega), Function.update_of_ne hx]

/-- A forward copy towards lower addresses. -/
theorem memcpy_down (h : dst ≤ src) : memcpy m dst src n = moved m dst src n := by
  induction n generalizing m dst src with
  | zero =>
      funext x
      exact (if_neg (by omega)).symm
  | succ n ih =>
      rw [memcpy, ih _ (by omega)]
      funext x
      unfold moved
      by_cases hx : x = dst
      · rw [if_neg (by omega), if_pos (by omega), hx, Function.update_self, Nat.sub_self,
          Nat.add_zero]
      · by_cases hin : dst + 1 ≤ x ∧ x < dst + 1 + n
        · rw [if_pos hin, if_pos (by omega), Function.update_of_ne (by omega)]
          congr 1
          omega
        · rw [if_neg hin, if_neg (by omega), Function.update_of_ne hx]

/-- A forward copy towards higher addresses repeats the bytes between source and destination. -/
theorem memcpy_up (h : src < dst) (x : ℕ) : memcpy m dst src n x =
    if dst ≤ x ∧ x < dst + n then m (src + (x - dst) % (dst - src)) else m x := by
  obtain ⟨d, hd, rfl⟩ : ∃ d, 0 < d ∧ dst = src + d := ⟨dst - src, by omega, by omega⟩
  rw [Nat.add_sub_cancel_left]
  induction n generalizing m src with
  | zero => exact (if_neg (by omega)).symm
  | succ n ih =>
      rw [memcpy, Nat.add_right_comm, ih _ (by omega)]
      by_cases hx : x = src + d
      · rw [if_neg (by omega), if_pos (by omega), hx, Function.update_self, Nat.sub_self,
          Nat.zero_mod, Nat.add_zero]
      by_cases hin : src + 1 + d ≤ x ∧ x < src + 1 + d + n
      · obtain ⟨k, rfl⟩ : ∃ k, x = src + 1 + d + k := ⟨x - (src + 1 + d), by omega⟩
        have hk : src + 1 + d + k - (src + d) = k + 1 := by omega
        have hlt := Nat.mod_lt k hd
        rw [if_pos hin, if_pos (by omega), Nat.add_sub_cancel_left, hk]
        by_cases hlast : k % d = d - 1
        · have hzero : (k + 1) % d = 0 := by
            rw [← Nat.mod_add_mod, hlast, Nat.sub_add_cancel hd, Nat.mod_self]
          rw [hlast, hzero, show src + 1 + (d - 1) = src + d by omega, Function.update_self,
            Nat.add_zero]
        · have hnext : (k + 1) % d = k % d + 1 := by
            rw [← Nat.mod_add_mod, Nat.mod_eq_of_lt (by omega)]
          rw [hnext, Function.update_of_ne (by omega)]
          congr 1
          omega
      · rw [if_neg hin, if_neg (by omega), Function.update_of_ne hx]

theorem memmove_eq (dst src : ℕ) : memmove m dst src n = moved m dst src n := by
  unfold memmove
  split_ifs with h
  · exact moveDown_eq m n h.1
  · rcases Nat.lt_or_ge src dst with hlt | hle
    · funext x
      rw [memcpy_up m n hlt, moved]
      split_ifs with hx
      · rw [Nat.mod_eq_of_lt (by omega)]
      · rfl
    · exact memcpy_down m n hle

/-- `memmove` copies its source as it was, however the blocks overlap. `memcpy` does the same just
if the source repeats itself from any destination inside it on. -/
theorem memmove_memcpy (dst src : ℕ) :
    (∀ x, memmove m dst src n x =
      if dst ≤ x ∧ x < dst + n then m (src + (x - dst)) else m x) ∧
    (memcpy m dst src n = memmove m dst src n ↔
      (src < dst → ∀ i < n, m (src + i % (dst - src)) = m (src + i))) := by
  rw [memmove_eq]
  refine ⟨fun x => rfl, ?_⟩
  rcases Nat.lt_or_ge src dst with hlt | hle
  · constructor
    · intro heq _ i hi
      have hx := congrFun heq (dst + i)
      rwa [memcpy_up m n hlt, moved, if_pos (by omega), if_pos (by omega),
        Nat.add_sub_cancel_left] at hx
    · intro hrep
      funext x
      rw [memcpy_up m n hlt, moved]
      split_ifs with hx
      · exact hrep hlt (x - dst) (by omega)
      · rfl
  · exact ⟨fun _ hlt => absurd hlt (by omega), fun _ => memcpy_down m n hle⟩

end blocks

/-! Strings. -/

def stringBytes (s : String) : List UInt8 := s.toUTF8.data.toList

/-- The string `text` at `s`, with its NUL. -/
structure CString (m : Memory) (s : ℕ) (text : List UInt8) : Prop where
  char : ∀ i (hi : i < text.length), m (s + i) = text[i]
  nul : m (s + text.length) = 0
  nonzero : 0 ∉ text

def strlenLoop (m : Memory) : ℕ → ℕ → ℕ → Option ℕ
  | 0, _, _ => none
  | fuel + 1, s, n => if m s ≠ 0 then strlenLoop m fuel (s + 1) (n + 1) else some n

def strlen (m : Memory) (fuel s : ℕ) : Option ℕ := strlenLoop m fuel s 0

def strnlenLoop (m : Memory) : ℕ → ℕ → ℕ → ℕ
  | 0, _, n => n
  | left + 1, s, n => if m s ≠ 0 then strnlenLoop m left (s + 1) (n + 1) else n

/-- The `maxlen` rounds that are possible bound the loop. -/
def strnlen (m : Memory) (s maxlen : ℕ) : ℕ := strnlenLoop m maxlen s 0

/-- `do *d++ = *src++; while (d[-1]);` -/
def strcpyLoop : ℕ → Memory → ℕ → ℕ → Option Memory
  | 0, _, _, _ => none
  | fuel + 1, m, d, s =>
    let m' := Function.update m d (m s)
    if m' d ≠ 0 then strcpyLoop fuel m' (d + 1) (s + 1) else some m'

def strcpy (m : Memory) (fuel dst src : ℕ) : Option Memory := strcpyLoop fuel m dst src

def strcmp (m : Memory) : ℕ → ℕ → ℕ → Option ℤ
  | 0, _, _ => none
  | fuel + 1, a, b =>
    if m a ≠ 0 ∧ m b ≠ 0 ∧ m a = m b then strcmp m fuel (a + 1) (b + 1)
    else some ((if m a > m b then 1 else 0) - (if m a < m b then 1 else 0))

/-- The result `none` is `NULL`. -/
def strchr (m : Memory) (c : UInt8) : ℕ → ℕ → Option (Option ℕ)
  | 0, _ => none
  | fuel + 1, s =>
    if m s ≠ 0 ∧ m s ≠ c then strchr m c fuel (s + 1)
    else some (if m s = c then some s else none)

section strings
variable {m : Memory} {s a b fuel : ℕ} {c : UInt8} {text : List UInt8}

theorem cString_cons : CString m s (c :: text) ↔ m s = c ∧ c ≠ 0 ∧ CString m (s + 1) text := by
  constructor
  · rintro ⟨hchar, hnul, hne⟩
    rw [List.mem_cons, not_or] at hne
    refine ⟨hchar 0 (Nat.succ_pos _), Ne.symm hne.1, fun i hi => ?_, ?_, hne.2⟩
    · rw [Nat.add_assoc, Nat.add_comm 1]
      exact hchar (i + 1) (Nat.succ_lt_succ hi)
    · rw [Nat.add_assoc, Nat.add_comm 1]
      exact hnul
  · rintro ⟨hc, hne, hchar, hnul, hzero⟩
    refine ⟨fun i hi => ?_, ?_, ?_⟩
    · cases i with
      | zero => exact hc
      | succ i =>
          rw [← Nat.add_assoc, Nat.add_right_comm]
          exact hchar i (Nat.lt_of_succ_lt_succ hi)
    · rw [List.length_cons, ← Nat.add_assoc, Nat.add_right_comm]
      exact hnul
    · rw [List.mem_cons, not_or]
      exact ⟨Ne.symm hne, hzero⟩

theorem cString_nil : CString m s [] ↔ m s = 0 :=
  ⟨fun h => h.nul, fun h => ⟨fun _ hi => absurd hi (Nat.not_lt_zero _), h, List.not_mem_nil⟩⟩

theorem strlenLoop_eq (h : CString m s text) (n : ℕ) (hfuel : text.length < fuel) :
    strlenLoop m fuel s n = some (n + text.length) := by
  induction text generalizing s n fuel with
  | nil =>
      obtain ⟨fuel, rfl⟩ := Nat.exists_eq_add_of_lt hfuel
      rw [strlenLoop, if_neg (not_not.mpr (cString_nil.mp h))]
      rfl
  | cons c text ih =>
      obtain ⟨hc, hne, htext⟩ := cString_cons.mp h
      obtain ⟨fuel, rfl⟩ : ∃ f, fuel = f + 1 := ⟨fuel - 1, by omega⟩
      rw [List.length_cons] at hfuel ⊢
      rw [strlenLoop, if_pos (hc ▸ hne), ih htext _ (by omega), Nat.add_assoc, Nat.add_comm 1]

theorem strlen_eq (h : CString m s text) (hfuel : text.length < fuel) :
    strlen m fuel s = some text.length := by
  rw [strlen, strlenLoop_eq h 0 hfuel, Nat.zero_add]

theorem strnlenLoop_eq (h : CString m s text) (left n : ℕ) :
    strnlenLoop m left s n = n + min text.length left := by
  induction left generalizing text s n with
  | zero => rw [Nat.min_zero]; rfl
  | succ left ih =>
      cases text with
      | nil =>
          rw [strnlenLoop, if_neg (not_not.mpr (cString_nil.mp h)), List.length_nil, Nat.zero_min]
          rfl
      | cons c text =>
          obtain ⟨hc, hne, htext⟩ := cString_cons.mp h
          rw [strnlenLoop, if_pos (hc ▸ hne), ih htext, List.length_cons,
            Nat.succ_min_succ]
          omega

theorem strnlen_eq (h : CString m s text) (maxlen : ℕ) :
    strnlen m s maxlen = min text.length maxlen := by
  rw [strnlen, strnlenLoop_eq h, Nat.zero_add]

theorem strchr_eq (h : CString m s text) (hfuel : text.length < fuel) : strchr m c fuel s =
    some (if c ∈ text ++ [0] then some (s + (text ++ [0]).idxOf c) else none) := by
  induction text generalizing s fuel with
  | nil =>
      obtain ⟨fuel, rfl⟩ : ∃ f, fuel = f + 1 := ⟨fuel - 1, by omega⟩
      have hs := cString_nil.mp h
      rw [strchr, hs, if_neg (fun hne => hne.1 rfl)]
      by_cases hc : c = 0
      · rw [hc]
        simp
      · rw [if_neg (Ne.symm hc), if_neg (by simpa using hc)]
  | cons t text ih =>
      obtain ⟨ht, hne, htext⟩ := cString_cons.mp h
      rw [List.length_cons] at hfuel
      obtain ⟨fuel, rfl⟩ : ∃ f, fuel = f + 1 := ⟨fuel - 1, by omega⟩
      rw [strchr, ht]
      by_cases hc : t = c
      · rw [if_neg (fun hne => hne.2 hc), if_pos hc, hc]
        simp
      · have hmem : c ∈ t :: (text ++ [0]) ↔ c ∈ text ++ [0] := by
          rw [List.mem_cons, or_iff_right (Ne.symm hc)]
        rw [if_pos ⟨hne, hc⟩, ih htext (by omega), List.cons_append, List.idxOf_cons_ne _ hc,
          Nat.add_assoc, Nat.add_comm 1]
        exact congrArg some (if_congr hmem.symm rfl rfl)

/-- `strcmp` orders strings as lists of unsigned bytes. -/
theorem strcmp_eq {x y : List UInt8} (ha : CString m a x) (hb : CString m b y)
    (hfuel : min x.length y.length < fuel) :
    strcmp m fuel a b = some (if x < y then -1 else if y < x then 1 else 0) := by
  induction x generalizing a b y fuel with
  | nil =>
      obtain ⟨fuel, rfl⟩ : ∃ f, fuel = f + 1 := ⟨fuel - 1, by omega⟩
      have hzero := cString_nil.mp ha
      rw [strcmp, hzero, if_neg (fun hne => hne.1 rfl)]
      cases y with
      | nil =>
          rw [cString_nil.mp hb]
          rfl
      | cons c y =>
          obtain ⟨hc, hne, -⟩ := cString_cons.mp hb
          have hpos : 0 < c := UInt8.pos_iff_ne_zero.mpr hne
          rw [hc, if_neg (UInt8.not_lt.mpr UInt8.zero_le), if_pos hpos,
            if_pos (List.nil_lt_cons c y)]
          rfl
  | cons d x ih =>
      obtain ⟨fuel, rfl⟩ : ∃ f, fuel = f + 1 := ⟨fuel - 1, by omega⟩
      obtain ⟨hd, hdne, hx⟩ := cString_cons.mp ha
      rw [strcmp, hd]
      cases y with
      | nil =>
          rw [cString_nil.mp hb, if_neg (fun hne => hne.2.1 rfl)]
          have hpos : 0 < d := UInt8.pos_iff_ne_zero.mpr hdne
          rw [if_pos hpos, if_neg (UInt8.not_lt.mpr UInt8.zero_le), if_neg (List.not_lt_nil _),
            if_pos (List.nil_lt_cons d x)]
          rfl
      | cons c y =>
          obtain ⟨hc, hcne, hy⟩ := cString_cons.mp hb
          have hlt : d :: x < c :: y ↔ d < c ∨ d = c ∧ x < y := List.cons_lt_cons_iff
          have hgt : c :: y < d :: x ↔ c < d ∨ c = d ∧ y < x := List.cons_lt_cons_iff
          rw [hc]
          by_cases heq : d = c
          · subst heq
            have hself : ¬ d < d := UInt8.lt_irrefl d
            simp only [List.length_cons, Nat.succ_min_succ] at hfuel
            simp only [hself, false_or, true_and] at hlt hgt
            rw [if_pos ⟨hdne, hdne, rfl⟩, ih hx hy (by omega)]
            exact congrArg some (if_congr hlt.symm rfl (if_congr hgt.symm rfl rfl))
          · rw [if_neg (fun hne => heq hne.2.2)]
            rcases UInt8.lt_or_lt_of_ne heq with hdc | hcd
            · rw [if_neg (UInt8.not_lt.mpr (UInt8.le_of_lt hdc)), if_pos hdc,
                if_pos (hlt.mpr (.inl hdc))]
              rfl
            · have hno : ¬ d < c := UInt8.not_lt.mpr (UInt8.le_of_lt hcd)
              rw [if_pos hcd, if_neg hno, if_neg (fun h => (hlt.mp h).elim hno fun he => heq he.1),
                if_pos (hgt.mpr (.inl hcd))]
              rfl

end strings

/-! `strcpy`. -/

section strcpy
variable {m : Memory} {dst src fuel : ℕ} {text : List UInt8}

theorem memcpy_succ (m : Memory) (dst src n : ℕ) : memcpy m dst src (n + 1) =
    Function.update (memcpy m dst src n) (dst + n) (memcpy m dst src n (src + n)) := by
  induction n generalizing m dst src with
  | zero => rfl
  | succ n ih =>
      rw [memcpy, ih, memcpy, Nat.add_assoc dst, Nat.add_assoc src, Nat.add_comm 1]

/-- The byte that round `n` of a forward copy reads. -/
theorem memcpy_read (m : Memory) (dst src n : ℕ) : memcpy m dst src n (src + n) =
    m (src + if src < dst then n % (dst - src) else n) := by
  split_ifs with h
  · rw [memcpy_up m n h]
    split_ifs with hx
    · rw [show src + n - dst = n - (dst - src) by omega, ← Nat.mod_eq_sub_mod (by omega)]
    · rw [Nat.mod_eq_of_lt (by omega)]
  · rw [memcpy_down m n (by omega), moved, if_neg (by omega)]

/-- After `k` rounds of `strcpy`, when the next NUL is `j` rounds away. -/
theorem strcpyLoop_eq {k j : ℕ} (hfuel : j < fuel)
    (hchar : ∀ i, k ≤ i → i < k + j → memcpy m dst src i (src + i) ≠ 0)
    (hnul : memcpy m dst src (k + j) (src + (k + j)) = 0) :
    strcpyLoop fuel (memcpy m dst src k) (dst + k) (src + k) =
      some (memcpy m dst src (k + j + 1)) := by
  induction j generalizing k fuel with
  | zero =>
      obtain ⟨fuel, rfl⟩ : ∃ f, fuel = f + 1 := ⟨fuel - 1, by omega⟩
      rw [Nat.add_zero] at hnul ⊢
      rw [strcpyLoop, ← memcpy_succ, memcpy_succ, Function.update_self, if_neg (not_not.mpr hnul)]
  | succ j ih =>
      obtain ⟨fuel, rfl⟩ : ∃ f, fuel = f + 1 := ⟨fuel - 1, by omega⟩
      have hk := hchar k le_rfl (by omega)
      have hnext := ih (k := k + 1) (show j < fuel by omega)
        (fun i hi hi' => hchar i (by omega) (by omega))
        (by rwa [Nat.add_right_comm, Nat.add_assoc])
      rw [strcpyLoop, ← memcpy_succ, memcpy_succ m dst src k, Function.update_self, if_pos hk,
        ← memcpy_succ]
      rw [Nat.add_right_comm k 1, Nat.add_assoc k j] at hnext
      exact hnext

theorem strcpyLoop_eq_none {k : ℕ} (hchar : ∀ i, memcpy m dst src i (src + i) ≠ 0) :
    strcpyLoop fuel (memcpy m dst src k) (dst + k) (src + k) = none := by
  induction fuel generalizing k with
  | zero => rfl
  | succ fuel ih =>
      rw [strcpyLoop, ← memcpy_succ, memcpy_succ m dst src k, Function.update_self,
        if_pos (hchar k), ← memcpy_succ]
      exact ih

theorem CString.moved (h : CString m src text) (dst : ℕ) :
    CString (moved m dst src (text.length + 1)) dst text := by
  refine ⟨fun i hi => ?_, ?_, h.nonzero⟩
  · rw [WeensyOS.moved, if_pos (by omega), Nat.add_sub_cancel_left]
    exact h.char i hi
  · rw [WeensyOS.moved, if_pos (by omega), Nat.add_sub_cancel_left]
    exact h.nul

/-- `strcpy` copies a string with its NUL and nothing else, unless the copy would begin in the
string behind its first byte: then it overwrites the NUL before it gets there and never ends. -/
theorem strcpy_spec (h : CString m src text) (dst : ℕ) :
    (¬ (src < dst ∧ dst ≤ src + text.length) → ∀ fuel, text.length < fuel → ∃ m',
      strcpy m fuel dst src = some m' ∧ CString m' dst text ∧
        ∀ x, x < dst ∨ dst + text.length < x → m' x = m x) ∧
    (src < dst ∧ dst ≤ src + text.length → ∀ fuel, strcpy m fuel dst src = none) := by
  have hchar {i : ℕ} (hi : i < text.length) : m (src + i) ≠ 0 := by
    rw [h.char i hi]
    exact fun hz => h.nonzero (hz ▸ List.getElem_mem hi)
  constructor
  · intro hout fuel hfuel
    have hread {i : ℕ} (hi : i ≤ text.length) :
        memcpy m dst src i (src + i) = m (src + i) := by
      rw [memcpy_read]
      split_ifs with hlt
      · rw [Nat.mod_eq_of_lt (by omega)]
      · rfl
    have hcopy : memcpy m dst src (text.length + 1) =
        WeensyOS.moved m dst src (text.length + 1) := by
      rw [← memmove_eq]
      refine (memmove_memcpy m _ dst src).2.mpr fun hlt i hi => ?_
      rw [Nat.mod_eq_of_lt (by omega)]
    have hloop := strcpyLoop_eq (k := 0) (j := text.length) hfuel
      (fun i _ hi => by rw [hread (by omega)]; exact hchar (by omega))
      (by rw [Nat.zero_add, hread le_rfl]; exact h.nul)
    rw [Nat.zero_add, hcopy] at hloop
    refine ⟨_, hloop, h.moved dst, fun x hx => ?_⟩
    rw [WeensyOS.moved, if_neg (by omega)]
  · rintro ⟨hlt, hle⟩ fuel
    refine strcpyLoop_eq_none (k := 0) fun i => ?_
    have hmod := Nat.mod_lt i (show 0 < dst - src by omega)
    rw [memcpy_read, if_pos hlt]
    exact hchar (by omega)

/-- The literals of `kernel`, one behind the other. -/
def sampleStrings : Memory := fun x =>
  (stringBytes "fork" ++ [0] ++ stringBytes "forkexit" ++ [0] ++ stringBytes "test" ++ [0] ++
    stringBytes "test2" ++ [0]).getD (x - 0x100) 0

theorem sampleStrings_fork : CString sampleStrings 0x100 (stringBytes "fork") :=
  ⟨by decide, by decide, by decide⟩

theorem strcpy_spec_sample :
    (∃ m', strcpy sampleStrings 5 0x80 0x100 = some m' ∧ CString m' 0x80 (stringBytes "fork")) ∧
    ∀ fuel, strcpy sampleStrings fuel 0x104 0x100 = none := by
  obtain ⟨m', hm, hcopy, -⟩ := (strcpy_spec sampleStrings_fork 0x80).1 (by decide) 5 (by decide)
  exact ⟨⟨m', hm, hcopy⟩, (strcpy_spec sampleStrings_fork 0x104).2 (by decide)⟩

end strcpy

/-! The command. -/

/-- The string with the bytes `text`, if there is one. -/
def commandOf (text : List UInt8) : Option String := String.fromUTF8? ⟨text.toArray⟩

/-- `command && strcmp(command, literal) == 0` -/
def commandIs (m : Memory) (fuel command literal : ℕ) : Option Bool :=
  if command = 0 then some false else (strcmp m fuel command literal).map (· == 0)

/-- The processes that `kernel(command)` sets up, by its tests on the bytes of `command`. `literal`
is where the compiler puts a string literal. -/
def kernelSetups (m : Memory) (fuel command : ℕ) (literal : String → ℕ) :
    Option (List (ℕ × ℕ)) := do
  if ← commandIs m fuel command (literal "fork") then
    return [(1, 4)]
  if ← commandIs m fuel command (literal "forkexit") then
    return [(1, 5)]
  if ← commandIs m fuel command (literal "test") then
    return [(1, 6)]
  if ← commandIs m fuel command (literal "test2") then
    return [(1, 6), (2, 6)]
  return [(1, 0), (2, 1), (3, 2), (4, 3)]

section command
variable {m : Memory} {fuel command : ℕ} {text : List UInt8} {literal : String → ℕ}

theorem commandOf_eq_some {s : String} : commandOf text = some s ↔ text = stringBytes s := by
  unfold commandOf String.fromUTF8?
  constructor
  · intro h
    split_ifs at h with hvalid
    obtain rfl := Option.some.inj h
    rfl
  · rintro rfl
    exact dif_pos s.isValidUTF8

/-- `strcmp` is zero on equal strings only. -/
theorem strcmp_beq_zero {a b : ℕ} {x y : List UInt8} (ha : CString m a x) (hb : CString m b y)
    (hfuel : y.length < fuel) : (strcmp m fuel a b).map (· == 0) = some (decide (x = y)) := by
  rw [strcmp_eq ha hb (by omega), Option.map_some, Option.some.injEq]
  by_cases heq : x = y
  · subst heq
    rw [if_neg (List.lt_irrefl x), if_neg (List.lt_irrefl x), decide_eq_true rfl]
    rfl
  · rw [decide_eq_false heq]
    split_ifs with hlt hgt
    · rfl
    · rfl
    · exact absurd (List.le_antisymm (List.not_lt.mp hgt) (List.not_lt.mp hlt)) heq

theorem commandIs_eq {s : String} (hne : command ≠ 0) (h : CString m command text)
    (hlit : CString m (literal s) (stringBytes s)) (hfuel : (stringBytes s).length < fuel) :
    commandIs m fuel command (literal s) = some (decide (commandOf text = some s)) := by
  rw [commandIs, if_neg hne, strcmp_beq_zero h hlit hfuel]
  exact congrArg some (decide_eq_decide.mpr commandOf_eq_some.symm)

/-- `kernel` starts the processes of the command that its argument spells, and the allocators for
all other strings and for `NULL`. -/
theorem kernelSetups_eq (hlit : ∀ s ∈ ["fork", "forkexit", "test", "test2"],
      CString m (literal s) (stringBytes s)) (hfuel : 8 < fuel) :
    kernelSetups m fuel 0 literal = some (setups none) ∧
    ∀ command text, command ≠ 0 → CString m command text →
      kernelSetups m fuel command literal = some (setups (commandOf text)) := by
  refine ⟨rfl, fun command text hne h => ?_⟩
  have hlength : ∀ s ∈ ["fork", "forkexit", "test", "test2"], (stringBytes s).length ≤ 8 := by
    decide
  have his (s : String) (hs : s ∈ ["fork", "forkexit", "test", "test2"]) :=
    commandIs_eq hne h (hlit s hs) ((hlength s hs).trans_lt hfuel)
  unfold kernelSetups setups
  rw [his "fork" (by simp), his "forkexit" (by simp), his "test" (by simp), his "test2" (by simp)]
  simp only [Option.bind_eq_bind, Option.bind_some, decide_eq_true_eq]
  split_ifs <;> rfl

def sampleLiteral : String → ℕ
  | "fork" => 0x100
  | "forkexit" => 0x105
  | "test" => 0x10E
  | _ => 0x113

theorem sampleLiteral_spec : ∀ s ∈ ["fork", "forkexit", "test", "test2"],
    CString sampleStrings (sampleLiteral s) (stringBytes s) := by
  intro s hs
  simp only [List.mem_cons, List.not_mem_nil, or_false] at hs
  rcases hs with rfl | rfl | rfl | rfl
  · exact ⟨by decide, by decide, by decide⟩
  · exact ⟨by decide, by decide, by decide⟩
  · exact ⟨by decide, by decide, by decide⟩
  · exact ⟨by decide, by decide, by decide⟩

theorem kernelSetups_eq_sample :
    kernelSetups sampleStrings 9 0x100 sampleLiteral = some (setups (some "fork")) := by
  have hfork := (kernelSetups_eq sampleLiteral_spec (show 8 < 9 by norm_num)).2 0x100
    (stringBytes "fork") (by norm_num) sampleStrings_fork
  rwa [commandOf_eq_some.mpr rfl] at hfork

end command

end WeensyOS
