import WeensyOS.ByteMemory
import WeensyOS.Printer
import Mathlib.Data.List.Basic

/-!
# Printing to a buffer

`vsnprintf` keeps the characters that fit before the last byte of the buffer and ends them with a
NUL. Its result is an `int`. `panic` relies on the longest text that it can leave in its own buffer.
-/

namespace WeensyOS.Printer
open ByteMemory

/-- `string_printer`: the next byte to write, and the one kept for the NUL. -/
structure StringPrinter where
  mem : Memory
  s : ℕ
  last : ℕ

def stringPutc (sp : StringPrinter) (c : UInt8) (_color : BitVec 32) : StringPrinter :=
  if sp.s < sp.last then { sp with mem := Function.update sp.mem sp.s c, s := sp.s + 1 } else sp

/-- `vsnprintf`: the memory and the result. -/
def vsnprintf (m : Memory) (s size : ℕ) (format : Chars) (val : VaList) : Memory × ℤ :=
  if size ≠ 0 then
    let sp := printerVprintf stringPutc ⟨m, s, s + size - 1⟩ 0 val format
    (Function.update sp.mem sp.s 0, toInt32 (sp.s - s))
  else (m, 0)

/-- The characters that `printer_vprintf` emits. -/
def out (val : VaList) (format : Chars) : Chars := (emitted 0 val format).map Prod.fst

/-- `text` from address `a` on. -/
def storeChars (m : Memory) (a : ℕ) : Chars → Memory
  | [] => m
  | c :: text => storeChars (Function.update m a c) (a + 1) text

theorem storeChars_of_outside (m : Memory) (a : ℕ) (text : Chars) {x : ℕ}
    (h : x < a ∨ a + text.length ≤ x) : storeChars m a text x = m x := by
  induction text generalizing m a with
  | nil => rfl
  | cons c text ih =>
      rw [List.length_cons] at h
      rw [storeChars, ih _ _ (by omega), Function.update_of_ne (by omega)]

theorem storeChars_getElem (m : Memory) (a : ℕ) (text : Chars) {i : ℕ} (hi : i < text.length) :
    storeChars m a text (a + i) = text[i] := by
  induction text generalizing m a i with
  | nil => exact absurd hi (Nat.not_lt_zero i)
  | cons c text ih =>
      cases i with
      | zero =>
          rw [storeChars, storeChars_of_outside _ _ _ (by omega), Nat.add_zero,
            Function.update_self]
          rfl
      | succ i =>
          rw [storeChars, show a + (i + 1) = a + 1 + i by omega, ih _ _ (by simpa using hi)]
          rfl

/-- The printer stores what fits and drops the rest. -/
theorem foldl_stringPutc (l : List (UInt8 × BitVec 32)) (sp : StringPrinter) (h : sp.s ≤ sp.last) :
    l.foldl (fun sp p => stringPutc sp p.1 p.2) sp =
      ⟨storeChars sp.mem sp.s ((l.map Prod.fst).take (sp.last - sp.s)),
        sp.s + min l.length (sp.last - sp.s), sp.last⟩ := by
  induction l generalizing sp with
  | nil => simp [storeChars]
  | cons p l ih =>
      rw [List.foldl_cons, stringPutc]
      split_ifs with hlt
      · rw [ih ⟨Function.update sp.mem sp.s p.1, sp.s + 1, sp.last⟩ hlt, List.map_cons,
          show sp.last - sp.s = (sp.last - (sp.s + 1)) + 1 by omega,
          List.take_succ_cons, storeChars, List.length_cons]
        congr 1
        dsimp only
        omega
      · have hzero : sp.last - sp.s = 0 := by omega
        rw [ih _ h, hzero]
        simp [storeChars]

theorem storeChars_append (m : Memory) (a : ℕ) (text text' : Chars) :
    storeChars m a (text ++ text') = storeChars (storeChars m a text) (a + text.length) text' := by
  induction text generalizing m a with
  | nil => rfl
  | cons c text ih =>
      rw [List.cons_append, storeChars, ih, storeChars, List.length_cons,
        show a + 1 + text.length = a + (text.length + 1) by omega]

/-- A text that is written over the end of another and reaches as far. -/
theorem storeChars_overwrite (m : Memory) (a : ℕ) (text old new : Chars)
    (h : old.length ≤ new.length) :
    storeChars (storeChars m a (text ++ old)) (a + text.length) new =
      storeChars m a (text ++ new) := by
  rw [storeChars_append, storeChars_append]
  generalize storeChars m a text = m'
  generalize a + text.length = b
  funext x
  by_cases hx : b ≤ x ∧ x < b + new.length
  · obtain ⟨i, rfl⟩ := Nat.exists_eq_add_of_le hx.1
    rw [storeChars_getElem _ _ _ (by omega), storeChars_getElem _ _ _ (by omega)]
  · rw [storeChars_of_outside _ _ _ (by omega), storeChars_of_outside _ _ _ (by omega),
      storeChars_of_outside _ _ _ (by omega)]

/-- The buffer of `size` bytes at `s` holds the string `text`; the rest of memory is as in `m`. -/
structure HoldsString (m m' : Memory) (s size : ℕ) (text : Chars) : Prop where
  fits : text.length < size
  chars : ∀ i (hi : i < text.length), m' (s + i) = text[i]
  nul : m' (s + text.length) = 0
  frame : ∀ a, a < s ∨ s + size ≤ a → m' a = m a

theorem holdsString_storeChars (m : Memory) (s size : ℕ) (text : Chars) (h : text.length < size) :
    HoldsString m (storeChars m s (text ++ [0])) s size text where
  fits := h
  chars i hi := by
    rw [storeChars_getElem _ _ _ (by rw [List.length_append]; omega), List.getElem_append_left hi]
  nul := by
    rw [storeChars_getElem _ _ _ (by simp)]
    simp
  frame a ha := by
    apply storeChars_of_outside
    rw [List.length_append, List.length_singleton]
    omega

theorem vsnprintf_eq (m : Memory) (s size : ℕ) (format : Chars) (val : VaList) :
    vsnprintf m s (size + 1) format val =
      (storeChars m s ((out val format).take size ++ [0]),
        toInt32 (min (out val format).length size : ℕ)) := by
  have hlast : s + (size + 1) - 1 - s = size := by omega
  rw [vsnprintf, if_pos (Nat.succ_ne_zero size), printerVprintf_eq,
    foldl_stringPutc _ _ (by dsimp only; omega)]
  dsimp only
  rw [hlast, storeChars_append, out, List.length_take, List.length_map, Nat.min_comm size]
  congr 2
  push_cast
  ring

/-! The buffer of `panic`. -/

def panicPrefix : Chars := [0x50, 0x41, 0x4E, 0x49, 0x43, 0x3A, 0x20]

/-- `panic`, up to the `console_printf` of its 160 bytes at `buf`. -/
def panicBuffer (m : Memory) (buf : ℕ) (format : Chars) (val : VaList) : Memory :=
  let m := storeChars m buf panicPrefix
  let r := vsnprintf m (buf + 7) (160 - 7) format val
  let len := r.2 + 7
  if len > 0 ∧ r.1 (buf + len - 1).toNat ≠ 0x0A then
    storeChars r.1 (buf + len - (if len = 160 - 1 then 1 else 0)).toNat [0x0A, 0]
  else r.1

theorem out_ne_zero (val : VaList) (format : CString) : (0 : UInt8) ∉ out val format.1 := by
  intro h
  obtain ⟨p, hp, hzero⟩ := List.mem_map.mp h
  exact emitted_ne_zero 0 val format.2 p hp hzero

theorem panicBuffer_eq (m : Memory) (buf : ℕ) (format : Chars) (val : VaList) {t : Chars}
    (ht : t = (out val format).take 152) : panicBuffer m buf format val =
      if storeChars m buf (panicPrefix ++ (t ++ [0])) (buf + (6 + t.length)) ≠ 0x0A then
        storeChars (storeChars m buf (panicPrefix ++ (t ++ [0])))
          (buf + (7 + t.length - if t.length = 152 then 1 else 0)) [0x0A, 0]
      else storeChars m buf (panicPrefix ++ (t ++ [0])) := by
  have hprint := vsnprintf_eq (storeChars m buf panicPrefix) (buf + 7) 152 format val
  have hjoin (text : Chars) : storeChars (storeChars m buf panicPrefix) (buf + 7) text =
      storeChars m buf (panicPrefix ++ text) := (storeChars_append m buf panicPrefix text).symm
  have hlen : t.length = min (out val format).length 152 := by
    rw [ht, List.length_take, Nat.min_comm]
  have hint : toInt32 (min (out val format).length 152 : ℕ) = t.length := by
    rw [← hlen]
    exact Int.bmod_eq_of_le (by omega) (by omega)
  rw [hjoin, hint, ← ht] at hprint
  unfold panicBuffer
  dsimp only
  rw [show (160 - 7 : ℕ) = 152 + 1 from rfl, hprint]
  dsimp only
  have hlast : ((buf : ℤ) + ((t.length : ℤ) + 7) - 1).toNat = buf + (6 + t.length) := by omega
  have hspot : ((buf : ℤ) + ((t.length : ℤ) + 7) -
      if (t.length : ℤ) + 7 = 160 - 1 then 1 else 0).toNat
      = buf + (7 + t.length - if t.length = 152 then 1 else 0) := by
    split_ifs <;> omega
  rw [hlast, hspot]
  apply if_congr _ rfl rfl
  exact and_iff_right (by omega)

/-- What `panic` prints: as much of the text as fits before a newline. -/
theorem panicBuffer_holds (m : Memory) (buf : ℕ) (format : Chars) (val : VaList) :
    ∃ n ≤ 151, HoldsString m (panicBuffer m buf format val) buf 160
        (panicPrefix ++ (out val format).take n ++ [0x0A]) ∧
      (n = 151 ∨ out val format = (out val format).take n ∨
        out val format = (out val format).take n ++ [0x0A]) := by
  have heq := panicBuffer_eq m buf format val rfl
  generalize panicBuffer m buf format val = m' at heq
  generalize out val format = text at heq
  obtain ⟨t, ht⟩ : ∃ t, t = text.take 152 := ⟨_, rfl⟩
  rw [← ht] at heq
  have hlen : t.length = min 152 text.length := by rw [ht, List.length_take]
  have hwhole (h : t.length < 152) : text = t := by
    rw [ht, List.take_of_length_le (by omega)]
  have hholds {init : Chars} (hinit : init.length ≤ 151) :
      HoldsString m (storeChars m buf (panicPrefix ++ init ++ [0x0A, 0])) buf 160
        (panicPrefix ++ init ++ [0x0A]) := by
    have h := holdsString_storeChars m buf 160 (panicPrefix ++ init ++ [0x0A]) (by
      simp only [List.length_append, panicPrefix, List.length_cons, List.length_nil]
      omega)
    rwa [List.append_assoc (panicPrefix ++ init)] at h
  obtain hnil | ⟨init, c, hc⟩ := List.eq_nil_or_concat' t
  · rw [hnil] at heq
    have hread : storeChars m buf (panicPrefix ++ ([] ++ [0])) (buf + (6 + ([] : Chars).length)) =
        0x20 := storeChars_getElem m buf _ (by decide)
    rw [hread, if_pos (by decide), if_neg (by decide)] at heq
    have hover := storeChars_overwrite m buf panicPrefix [0] [0x0A, 0] (by decide)
    have hempty : HoldsString m (storeChars m buf (panicPrefix ++ [0x0A, 0])) buf 160
        (panicPrefix ++ [0x0A]) := hholds (Nat.zero_le 151)
    refine ⟨0, by norm_num, ?_, .inr (.inl ((hwhole (by simp [hnil])).trans hnil))⟩
    rw [heq]
    exact hover.symm ▸ hempty
  · have hinit : init = text.take init.length := by
      have hpre : init <+: text := (List.prefix_append init [c]).trans
        (hc ▸ ht ▸ List.take_prefix 152 text)
      exact List.prefix_iff_eq_take.mp hpre
    have hsize : t.length = init.length + 1 := by rw [hc, List.length_append]; rfl
    have hplace : (panicPrefix ++ init).length = 7 + init.length := by
      rw [List.length_append]
      rfl
    have hsplit : panicPrefix ++ (t ++ [0]) = panicPrefix ++ init ++ [c, 0] := by
      rw [hc, List.append_assoc, List.append_assoc]
      rfl
    have hread : storeChars m buf (panicPrefix ++ (t ++ [0])) (buf + (6 + t.length)) = c := by
      rw [hsplit, storeChars_append,
        show buf + (6 + t.length) = buf + (panicPrefix ++ init).length + 0 by omega]
      exact storeChars_getElem _ _ [c, 0] (by simp)
    rw [hread] at heq
    by_cases hnl : c = 0x0A
    · rw [if_neg (not_not_intro hnl)] at heq
      refine ⟨init.length, by omega, ?_, ?_⟩
      · rw [← hinit, heq, hsplit, hnl]
        exact hholds (by omega)
      · by_cases hfull : init.length = 151
        · exact .inl hfull
        · rw [← hinit, ← hnl, ← hc]
          exact .inr (.inr (hwhole (by omega)))
    · rw [if_pos hnl] at heq
      by_cases hfull : t.length = 152
      · have hover := storeChars_overwrite m buf (panicPrefix ++ init) [c, 0] [0x0A, 0] (by simp)
        rw [if_pos hfull, hsplit,
          show buf + (7 + t.length - 1) = buf + (panicPrefix ++ init).length by omega, hover] at heq
        refine ⟨151, le_rfl, ?_, .inl rfl⟩
        rw [show 151 = init.length by omega, ← hinit, heq]
        exact hholds (by omega)
      · have hover := storeChars_overwrite m buf (panicPrefix ++ t) [0] [0x0A, 0] (by simp)
        have htext := hwhole (by omega)
        rw [if_neg hfull, ← List.append_assoc,
          show buf + (7 + t.length - 0) = buf + (panicPrefix ++ t).length by
            simp only [List.length_append, panicPrefix, List.length_cons, List.length_nil]
            omega, hover] at heq
        refine ⟨t.length, by omega, ?_, ?_⟩
        · rw [htext, List.take_length, heq]
          exact hholds (by omega)
        · rw [htext, List.take_length]
          exact .inr (.inl rfl)

/-- `vsnprintf` keeps what fits, and `panic` leaves a line in its buffer. -/
theorem vsnprintf_truncates (m : Memory) (s size : ℕ) (format : CString) (val : VaList) :
    vsnprintf m s 0 format.1 val = (m, 0) ∧
      (HoldsString m (vsnprintf m s (size + 1) format.1 val).1 s (size + 1)
        ((out val format.1).take size) ∧
      (vsnprintf m s (size + 1) format.1 val).2 =
      toInt32 (min (out val format.1).length size : ℕ)) ∧
      (0 : UInt8) ∉ out val format.1 ∧
      ∃ n ≤ 151, HoldsString m (panicBuffer m s format.1 val) s 160
          (panicPrefix ++ (out val format.1).take n ++ [0x0A]) ∧
        (n = 151 ∨ out val format.1 = (out val format.1).take n ∨
          out val format.1 = (out val format.1).take n ++ [0x0A]) := by
  have hfits : ((out val format.1).take size).length < size + 1 := by
    rw [List.length_take]
    omega
  have hprint := vsnprintf_eq m s size format.1 val
  have hzero : vsnprintf m s 0 format.1 val = (m, 0) := if_neg (not_not_intro rfl)
  refine ⟨hzero, ⟨?_, ?_⟩, out_ne_zero val format, panicBuffer_holds m s format.1 val⟩
  · rw [hprint]
    exact holdsString_storeChars m s (size + 1) _ hfits
  · rw [hprint]

theorem out_replicate (val : VaList) (n : ℕ) :
    out val (List.replicate n 0x61) = List.replicate n 0x61 := by
  unfold out
  induction n with
  | zero => simp
  | succ n ih =>
      rw [List.replicate_succ, emitted_plain _ _ (by decide), List.map_cons, ih]

/-- The result of 2^31 characters is negative. -/
theorem not_vsnprintf_length : ¬ ∀ (m : Memory) (s size : ℕ) (format : CString) (val : VaList),
    (vsnprintf m s (size + 1) format.1 val).2 = (min (out val format.1).length size : ℕ) := by
  intro hall
  obtain ⟨n, hn⟩ : ∃ n : ℕ, n = 2 ^ 31 := ⟨_, rfl⟩
  have hstring : (0 : UInt8) ∉ List.replicate n (0x61 : UInt8) := by
    intro h
    exact absurd (List.eq_of_mem_replicate h) (by decide)
  have h := hall (fun _ => 0) 0 n ⟨_, hstring⟩ ⟨fun _ => 0, fun _ => ⟨[], List.not_mem_nil⟩⟩
  rw [vsnprintf_eq] at h
  dsimp only at h
  rw [out_replicate, List.length_replicate, Nat.min_self, hn] at h
  exact absurd h (by decide)

end WeensyOS.Printer
