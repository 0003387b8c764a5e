import Mathlib.Data.Int.Basic
import Mathlib.Data.List.TakeWhile
import Mathlib.Tactic.NormNum
import Mathlib.Tactic.Ring

/-!
# `printer_vprintf`

The format interpreter writes through a `putc` of any kind; `σ` is the state of the printer behind
it. Integer arguments are 64-bit words in order, and `%s` takes its string from the memory that the
word points to, which nothing writes during the call. `int` arithmetic wraps around.
-/

namespace WeensyOS.Printer

abbrev Chars := List UInt8

def toInt32 (x : ℤ) : ℤ := x.bmod (2 ^ 32)

/-- The bytes of a string before its NUL. -/
abbrev CString := {l : Chars // (0 : UInt8) ∉ l}

/-- The string at the beginning of a buffer. -/
def CString.ofBytes (l : Chars) : CString :=
  ⟨l.takeWhile (· ≠ 0), fun h => by simpa using List.mem_takeWhile_imp h⟩

structure VaList where
  word : ℕ → BitVec 64
  string : BitVec 64 → CString

namespace VaList

def skip (val : VaList) : VaList := { val with word := fun i => val.word (i + 1) }

/-- `va_arg(val, int)`, before the list moves on. -/
def int (val : VaList) : ℤ := ((val.word 0).setWidth 32).toInt

end VaList

structure Flags where
  alt : Bool := false
  zero : Bool := false
  leftjustify : Bool := false
  spacepositive : Bool := false
  pluspositive : Bool := false
  numeric : Bool := false
  signed : Bool := false
  negative : Bool := false
  alt2 : Bool := false

/-- The characters `#0- +`. -/
def flagChars : Chars := [0x23, 0x30, 0x2D, 0x20, 0x2B]

/-- `flags |= 1 << i` for the flags with a character. -/
def Flags.set (flags : Flags) : ℕ → Flags
  | 0 => { flags with alt := true }
  | 1 => { flags with zero := true }
  | 2 => { flags with leftjustify := true }
  | 3 => { flags with spacepositive := true }
  | 4 => { flags with pluspositive := true }
  | _ => flags

def parseFlags : Flags → Chars → Flags × Chars
  | flags, [] => (flags, [])
  | flags, c :: rest =>
      if c ∈ flagChars then parseFlags (flags.set (flagChars.idxOf c)) rest else (flags, c :: rest)

def IsDigit (c : UInt8) : Prop := 0x30 ≤ c ∧ c ≤ 0x39

instance (c : UInt8) : Decidable (IsDigit c) := inferInstanceAs (Decidable (_ ∧ _))

/-- The loops that read a width or a precision. -/
def parseNumber : ℤ → Chars → ℤ × Chars
  | n, [] => (n, [])
  | n, c :: rest =>
      if IsDigit c then parseNumber (toInt32 (10 * n + c.toNat - 0x30)) rest else (n, c :: rest)

def parseWidth (val : VaList) : Chars → ℤ × VaList × Chars
  | [] => (-1, val, [])
  | c :: rest =>
      if 0x31 ≤ c ∧ c ≤ 0x39 then
        let (width, rest) := parseNumber 0 (c :: rest)
        (width, val, rest)
      else if c = 0x2A then (val.int, val.skip, rest)
      else (-1, val, c :: rest)

/-- The part of a precision behind its point. -/
def parsePrecisionNumber (val : VaList) : Chars → ℤ × VaList × Chars
  | [] => (-1, val, [])
  | c :: rest =>
      if IsDigit c then
        let (precision, rest) := parseNumber 0 (c :: rest)
        (precision, val, rest)
      else if c = 0x2A then (val.int, val.skip, rest)
      else (-1, val, c :: rest)

def parsePrecision (val : VaList) : Chars → ℤ × VaList × Chars
  | [] => (-1, val, [])
  | c :: rest =>
      if c = 0x2E then
        let (precision, val, rest) := parsePrecisionNumber val rest
        (if precision < 0 then 0 else precision, val, rest)
      else (-1, val, c :: rest)

/-- The letters `l` and `z`. -/
def parseLength : Bool → Chars → Bool × Chars
  | length, [] => (length, [])
  | length, c :: rest =>
      if c = 0x6C ∨ c = 0x7A then parseLength true rest else (length, c :: rest)

/-- The values of `base`: 10, and 16 with a sign for lower-case digits. -/
inductive Base
  | decimal
  | upperHex
  | lowerHex
  deriving DecidableEq

namespace Base

def radix : Base → ℕ
  | decimal => 10
  | _ => 16

def upperDigits : Chars :=
  [0x30, 0x31, 0x32, 0x33, 0x34, 0x35, 0x36, 0x37, 0x38, 0x39, 0x41, 0x42, 0x43, 0x44, 0x45, 0x46]

def lowerDigits : Chars :=
  [0x30, 0x31, 0x32, 0x33, 0x34, 0x35, 0x36, 0x37, 0x38, 0x39, 0x61, 0x62, 0x63, 0x64, 0x65, 0x66]

def digits : Base → Chars
  | lowerHex => lowerDigits
  | _ => upperDigits

theorem one_lt_radix (base : Base) : 1 < base.radix := by
  cases base <;> decide

end Base

/-- `numbuf` while `fill_numbuf` runs: the offset of `numbuf_end`, the bytes from there on, and the
offsets written so far. -/
structure Numbuf where
  pos : ℤ
  bytes : Chars
  written : List ℤ

def Numbuf.push (buf : Numbuf) (c : UInt8) : Numbuf :=
  ⟨buf.pos - 1, c :: buf.bytes, (buf.pos - 1) :: buf.written⟩

def fillDigits (base : Base) (val : ℕ) (buf : Numbuf) : Numbuf :=
  let buf := buf.push (base.digits.getD (val % base.radix) 0)
  if val / base.radix ≠ 0 then fillDigits base (val / base.radix) buf else buf
termination_by val
decreasing_by
  rename_i hdiv
  apply Nat.div_lt_self _ base.one_lt_radix
  apply Nat.pos_of_ne_zero
  rintro rfl
  exact hdiv (Nat.zero_div _)

def numbufsiz : ℤ := 24

def fillNumbuf (base : Base) (val : ℕ) : Numbuf :=
  fillDigits base val (Numbuf.push ⟨numbufsiz, [], []⟩ 0)

/-- The variables after the switch over the conversion character. -/
structure Field where
  flags : Flags
  width : ℤ
  precision : ℤ
  base : Base := .decimal
  num : BitVec 64 := 0
  data : CString

/-- A directive, read: what it prints, if anything, and where the format and the arguments go on. -/
structure Directive where
  field : Option Field
  color : BitVec 32
  val : VaList
  rest : Chars

/-- The argument of `d` and `i`, sign-extended, and of `u`, `x` and `X`, zero-extended. -/
def signedArg (length : Bool) (w : BitVec 64) : BitVec 64 :=
  if length then w else (w.setWidth 32).signExtend 64

def unsignedArg (length : Bool) (w : BitVec 64) : BitVec 64 :=
  if length then w else (w.setWidth 32).setWidth 64

def numericField (flags : Flags) (width precision : ℤ) (base : Base) (num : BitVec 64) : Field where
  flags := { flags with numeric := true }
  width := width
  precision := precision
  base := base
  num := num
  data := CString.ofBytes (fillNumbuf base num.toNat).bytes

def signedField (flags : Flags) (width precision : ℤ) (x : BitVec 64) : Field :=
  numericField { flags with signed := true, negative := x.msb } width precision .decimal
    (if x.msb then -x else x)

/-- The switch over the conversion character, with `fill_numbuf` for the numeric conversions. -/
def convert (flags : Flags) (width precision : ℤ) (length : Bool) (color : BitVec 32)
    (val : VaList) : Chars → Directive
  | [] => ⟨some { flags, width, precision, data := ⟨[0x25], by decide⟩ }, color, val, []⟩
  | c :: rest =>
      let w := val.word 0
      if c = 0x64 ∨ c = 0x69 then
        ⟨signedField flags width precision (signedArg length w), color, val.skip, rest⟩
      else if c = 0x75 then
        ⟨numericField flags width precision .decimal (unsignedArg length w), color, val.skip, rest⟩
      else if c = 0x78 then
        ⟨numericField flags width precision .lowerHex (unsignedArg length w), color, val.skip, rest⟩
      else if c = 0x58 then
        ⟨numericField flags width precision .upperHex (unsignedArg length w), color, val.skip, rest⟩
      else if c = 0x70 then
        ⟨numericField { flags with alt := true, alt2 := true } width precision .lowerHex w, color,
          val.skip, rest⟩
      else if c = 0x73 then
        ⟨some { flags, width, precision, data := val.string w }, color, val.skip, rest⟩
      else if c = 0x43 then ⟨none, w.setWidth 32, val.skip, rest⟩
      else if c = 0x63 then
        ⟨some { flags, width, precision, data := CString.ofBytes [w.toNat.toUInt8] }, color,
          val.skip, rest⟩
      else ⟨some { flags, width, precision, data := CString.ofBytes [c] }, color, val, rest⟩

/-- Everything between a `%` and the next character of the format to look at. -/
def parseDirective (color : BitVec 32) (val : VaList) (format : Chars) : Directive :=
  let (flags, format) := parseFlags {} format
  let (width, val, format) := parseWidth val format
  let (precision, val, format) := parsePrecision val format
  let (length, format) := parseLength false format
  convert flags width precision length color val format

namespace Field
variable (f : Field)

/-- The `prefix` of a number. -/
def prefixChars : Chars :=
  if f.flags.numeric ∧ f.flags.signed then
    if f.flags.negative then [0x2D]
    else if f.flags.pluspositive then [0x2B]
    else if f.flags.spacepositive then [0x20]
    else []
  else if f.flags.numeric ∧ f.flags.alt ∧ (f.base = .upperHex ∨ f.base = .lowerHex) ∧
      (f.num ≠ 0 ∨ f.flags.alt2) then
    if f.base = .lowerHex then [0x30, 0x78] else [0x30, 0x58]
  else []

/-- `strnlen` with the precision for text, else `strlen`. -/
def len : ℤ :=
  if 0 ≤ f.precision ∧ ¬ f.flags.numeric then toInt32 (min f.data.1.length f.precision.toNat : ℕ)
  else toInt32 f.data.1.length

def zeros : ℤ :=
  if f.flags.numeric ∧ 0 ≤ f.precision then
    if f.precision > f.len then toInt32 (f.precision - f.len) else 0
  else if f.flags.numeric ∧ f.flags.zero ∧ ¬ f.flags.leftjustify ∧
      toInt32 (f.len + f.prefixChars.length) < f.width then
    toInt32 (f.width - f.len - f.prefixChars.length)
  else 0

/-- What is left of the width for spaces. -/
def spaces : ℤ := toInt32 (f.width - (f.len + f.zeros + f.prefixChars.length))

end Field

section print
variable {σ : Type*} (putc : σ → UInt8 → BitVec 32 → σ)

/-- `for (; n > 0; --n) p->putc(p, c, color)` -/
def putMany (color : BitVec 32) (c : UInt8) : ℕ → σ → σ
  | 0, s => s
  | n + 1, s => putMany color c n (putc s c color)

def putChars (color : BitVec 32) : Chars → σ → σ
  | [], s => s
  | c :: rest, s => putChars color rest (putc s c color)

/-- The last five loops of `printer_vprintf`. -/
def printField (color : BitVec 32) (f : Field) (s : σ) : σ :=
  let s := if f.flags.leftjustify then s else putMany putc color 0x20 f.spaces.toNat s
  let width := if f.flags.leftjustify then f.spaces else min f.spaces 0
  let s := putChars putc color f.prefixChars s
  let s := putMany putc color 0x30 f.zeros.toNat s
  let s := putChars putc color (f.data.1.take f.len.toNat) s
  putMany putc color 0x20 width.toNat s

end print

theorem parseFlags_suffix (flags : Flags) (format : Chars) :
    (parseFlags flags format).2 <:+ format := by
  induction format generalizing flags with
  | nil => exact List.suffix_rfl
  | cons c rest ih =>
      rw [parseFlags]
      split_ifs
      · exact (ih _).trans (List.suffix_cons c rest)
      · exact List.suffix_rfl

theorem parseNumber_suffix (n : ℤ) (format : Chars) : (parseNumber n format).2 <:+ format := by
  induction format generalizing n with
  | nil => exact List.suffix_rfl
  | cons c rest ih =>
      rw [parseNumber]
      split_ifs
      · exact (ih _).trans (List.suffix_cons c rest)
      · exact List.suffix_rfl

theorem parseWidth_suffix (val : VaList) (format : Chars) :
    (parseWidth val format).2.2 <:+ format := by
  cases format with
  | nil => exact List.suffix_rfl
  | cons c rest =>
      rw [parseWidth]
      split_ifs
      · exact parseNumber_suffix 0 _
      · exact List.suffix_cons c rest
      · exact List.suffix_rfl

theorem parsePrecisionNumber_suffix (val : VaList) (format : Chars) :
    (parsePrecisionNumber val format).2.2 <:+ format := by
  cases format with
  | nil => exact List.suffix_rfl
  | cons c rest =>
      rw [parsePrecisionNumber]
      split_ifs
      · exact parseNumber_suffix 0 _
      · exact List.suffix_cons c rest
      · exact List.suffix_rfl

theorem parsePrecision_suffix (val : VaList) (format : Chars) :
    (parsePrecision val format).2.2 <:+ format := by
  cases format with
  | nil => exact List.suffix_rfl
  | cons c rest =>
      rw [parsePrecision]
      split_ifs
      · exact (parsePrecisionNumber_suffix val rest).trans (List.suffix_cons c rest)
      · exact List.suffix_rfl

theorem parseLength_suffix (length : Bool) (format : Chars) :
    (parseLength length format).2 <:+ format := by
  induction format generalizing length with
  | nil => exact List.suffix_rfl
  | cons c rest ih =>
      rw [parseLength]
      split_ifs
      · exact (ih _).trans (List.suffix_cons c rest)
      · exact List.suffix_rfl

theorem convert_suffix (flags : Flags) (width precision : ℤ) (length : Bool) (color : BitVec 32)
    (val : VaList) (format : Chars) :
    (convert flags width precision length color val format).rest <:+ format := by
  cases format with
  | nil => exact List.suffix_rfl
  | cons c rest =>
      rw [convert]
      split_ifs
      all_goals exact List.suffix_cons c rest

/-- A directive gives back an end of the format it got, also where the source steps back from the
end of the format. -/
theorem parseDirective_suffix (color : BitVec 32) (val : VaList) (format : Chars) :
    (parseDirective color val format).rest <:+ format :=
  (convert_suffix _ _ _ _ _ _ _).trans ((parseLength_suffix _ _).trans
    ((parsePrecision_suffix _ _).trans ((parseWidth_suffix _ _).trans (parseFlags_suffix _ _))))

def printerVprintf {σ : Type*} (putc : σ → UInt8 → BitVec 32 → σ) (s : σ) (color : BitVec 32)
    (val : VaList) : Chars → σ
  | [] => s
  | c :: format =>
      if c ≠ 0x25 then printerVprintf putc (putc s c color) color val format
      else
        let d := parseDirective color val format
        let s := match d.field with
          | some f => printField putc d.color f s
          | none => s
        printerVprintf putc s d.color d.val d.rest
termination_by format => format.length
decreasing_by
  · exact Nat.lt_succ_self _
  · exact Nat.lt_succ_of_le (parseDirective_suffix _ _ _).length_le

section sink
variable {σ τ : Type*} (putc : σ → UInt8 → BitVec 32 → σ)

theorem putMany_eq (color : BitVec 32) (c : UInt8) (n : ℕ) (s : σ) :
    putMany putc color c n s =
      (List.replicate n c).foldl (fun s c => putc s c color) s := by
  induction n generalizing s with
  | zero => rfl
  | succ n ih => exact ih (putc s c color)

theorem putChars_eq (color : BitVec 32) (l : Chars) (s : σ) :
    putChars putc color l s = l.foldl (fun s c => putc s c color) s := by
  induction l generalizing s with
  | nil => rfl
  | cons c rest ih => exact ih (putc s c color)

/-- What a field prints. -/
def Field.chars (f : Field) : Chars :=
  (if f.flags.leftjustify then [] else List.replicate f.spaces.toNat 0x20) ++
    (f.prefixChars ++ (List.replicate f.zeros.toNat 0x30 ++ (f.data.1.take f.len.toNat ++
      if f.flags.leftjustify then List.replicate f.spaces.toNat 0x20 else [])))

theorem printField_eq (color : BitVec 32) (f : Field) (s : σ) :
    printField putc color f s = f.chars.foldl (fun s c => putc s c color) s := by
  unfold printField Field.chars
  simp only [putMany_eq, putChars_eq]
  cases f.flags.leftjustify with
  | true => simp only [if_true, List.nil_append, List.foldl_append]
  | false =>
      have hdone : (min f.spaces 0).toNat = 0 := Int.toNat_of_nonpos (min_le_right _ _)
      simp only [Bool.false_eq_true, if_false, List.append_nil, List.foldl_append, hdone]
      rfl

def Directive.chars (d : Directive) : Chars :=
  match d.field with
  | some f => f.chars
  | none => []

theorem printerVprintf_plain (s : σ) (color : BitVec 32) (val : VaList) {c : UInt8}
    (hc : c ≠ 0x25) (format : Chars) : printerVprintf putc s color val (c :: format) =
      printerVprintf putc (putc s c color) color val format := by
  rw [printerVprintf, if_pos hc]

theorem printerVprintf_directive (s : σ) (color : BitVec 32) (val : VaList) (format : Chars) :
    printerVprintf putc s color val (0x25 :: format) =
      let d := parseDirective color val format
      printerVprintf putc (d.chars.foldl (fun s c => putc s c d.color) s) d.color d.val d.rest := by
  rw [printerVprintf, if_neg (not_not_intro rfl)]
  unfold Directive.chars
  dsimp only
  cases (parseDirective color val format).field with
  | none => rfl
  | some f =>
      dsimp only
      rw [printField_eq]

/-- The characters are the same for every printer: only `putc` sees its state. -/
theorem map_printerVprintf {putc : σ → UInt8 → BitVec 32 → σ} {putc' : τ → UInt8 → BitVec 32 → τ}
    (g : σ → τ) (hg : ∀ s c color, g (putc s c color) = putc' (g s) c color) (s : σ)
    (color : BitVec 32) (val : VaList) (format : Chars) :
    g (printerVprintf putc s color val format) = printerVprintf putc' (g s) color val format := by
  have hfold (color : BitVec 32) (l : Chars) (s : σ) :
      g (l.foldl (fun s c => putc s c color) s) = l.foldl (fun s c => putc' s c color) (g s) := by
    induction l generalizing s with
    | nil => rfl
    | cons c rest ih => rw [List.foldl_cons, ih, hg, List.foldl_cons]
  induction hn : format.length using Nat.strong_induction_on generalizing s color val format with
  | h n ih =>
      cases format with
      | nil => simp only [printerVprintf]
      | cons c format =>
          by_cases hc : c = 0x25
          · subst hc
            have hlt := Nat.lt_succ_of_le (parseDirective_suffix color val format).length_le
            simp only [printerVprintf_directive]
            rw [ih _ (hn ▸ hlt) _ _ _ _ rfl, hfold]
          · rw [printerVprintf_plain _ _ _ _ hc, printerVprintf_plain _ _ _ _ hc,
              ih _ (hn ▸ Nat.lt_succ_self _) _ _ _ _ rfl, hg]

/-- A printer that keeps everything, each character with its color. -/
def keep (l : List (UInt8 × BitVec 32)) (c : UInt8) (color : BitVec 32) :
    List (UInt8 × BitVec 32) := l ++ [(c, color)]

/-- The characters that `printer_vprintf` emits. -/
def emitted (color : BitVec 32) (val : VaList) (format : Chars) : List (UInt8 × BitVec 32) :=
  printerVprintf keep [] color val format

/-- Every printer sees the emitted characters one by one, and nothing else. -/
theorem printerVprintf_eq (s : σ) (color : BitVec 32) (val : VaList) (format : Chars) :
    printerVprintf putc s color val format =
      (emitted color val format).foldl (fun s p => putc s p.1 p.2) s := by
  let g (l : List (UInt8 × BitVec 32)) : σ := l.foldl (fun s p => putc s p.1 p.2) s
  have hg (l : List (UInt8 × BitVec 32)) (c : UInt8) (color : BitVec 32) :
      g (keep l c color) = putc (g l) c color := List.foldl_append
  exact (map_printerVprintf g hg [] color val format).symm

theorem printerVprintf_keep (l : List (UInt8 × BitVec 32)) (color : BitVec 32) (val : VaList)
    (format : Chars) : printerVprintf keep l color val format = l ++ emitted color val format := by
  rw [printerVprintf_eq]
  induction emitted color val format generalizing l with
  | nil => exact (List.append_nil l).symm
  | cons p rest ih => rw [List.foldl_cons, ih, keep, List.append_assoc, List.singleton_append]

@[simp] theorem emitted_nil (color : BitVec 32) (val : VaList) : emitted color val [] = [] := by
  rw [emitted, printerVprintf]

theorem emitted_plain (color : BitVec 32) (val : VaList) {c : UInt8} (hc : c ≠ 0x25)
    (format : Chars) :
    emitted color val (c :: format) = (c, color) :: emitted color val format := by
  rw [emitted, printerVprintf_plain _ _ _ _ hc, printerVprintf_keep]
  rfl

theorem foldl_keep (l : List (UInt8 × BitVec 32)) (color : BitVec 32) (cs : Chars) :
    cs.foldl (fun l c => keep l c color) l = l ++ cs.map (·, color) := by
  induction cs generalizing l with
  | nil => exact (List.append_nil l).symm
  | cons c cs ih => rw [List.foldl_cons, ih, keep, List.append_assoc, List.map_cons,
      List.singleton_append]

theorem emitted_directive (color : BitVec 32) (val : VaList) (format : Chars) :
    emitted color val (0x25 :: format) =
      let d := parseDirective color val format
      d.chars.map (·, d.color) ++ emitted d.color d.val d.rest := by
  rw [emitted, printerVprintf_directive]
  dsimp only
  rw [foldl_keep, printerVprintf_keep]
  rfl

end sink

section nonzero

theorem Field.chars_ne_zero (f : Field) : (0 : UInt8) ∉ f.chars := by
  have hprefix : (0 : UInt8) ∉ f.prefixChars := by
    unfold prefixChars
    split_ifs
    all_goals decide
  have hpad (n : ℕ) (c : UInt8) (hc : c ≠ 0) : (0 : UInt8) ∉ List.replicate n c := fun h =>
    hc (List.eq_of_mem_replicate h).symm
  have hdata : (0 : UInt8) ∉ f.data.1.take f.len.toNat := fun h =>
    f.data.2 (List.mem_of_mem_take h)
  unfold chars
  simp only [List.mem_append, not_or]
  refine ⟨?_, hprefix, hpad _ _ (by decide), hdata, ?_⟩
  · split_ifs
    · exact List.not_mem_nil
    · exact hpad _ _ (by decide)
  · split_ifs
    · exact hpad _ _ (by decide)
    · exact List.not_mem_nil

theorem Directive.chars_ne_zero (d : Directive) : (0 : UInt8) ∉ d.chars := by
  unfold chars
  split
  · exact Field.chars_ne_zero _
  · exact List.not_mem_nil

/-- A format is a string, so no NUL is ever emitted. -/
theorem emitted_ne_zero (color : BitVec 32) (val : VaList) {format : Chars}
    (h : (0 : UInt8) ∉ format) : ∀ p ∈ emitted color val format, p.1 ≠ 0 := by
  induction hn : format.length using Nat.strong_induction_on generalizing color val format with
  | h n ih =>
      cases format with
      | nil => simp
      | cons c format =>
          have htail : (0 : UInt8) ∉ format := fun hmem => h (List.mem_cons_of_mem c hmem)
          intro p hp
          by_cases hc : c = 0x25
          · subst hc
            have hsuffix := parseDirective_suffix color val format
            rw [emitted_directive] at hp
            rcases List.mem_append.mp hp with hp | hp
            · obtain ⟨c, hmem, rfl⟩ := List.mem_map.mp hp
              rintro (rfl : c = 0)
              exact Directive.chars_ne_zero _ hmem
            · exact ih _ (hn ▸ Nat.lt_succ_of_le hsuffix.length_le) _ _
                (fun hmem => htail (hsuffix.mem hmem)) rfl p hp
          · rw [emitted_plain _ _ hc] at hp
            rcases List.mem_cons.mp hp with rfl | hp
            · exact fun h0 => h (h0 ▸ List.mem_cons_self)
            · exact ih _ (hn ▸ Nat.lt_succ_self _) _ _ htail rfl p hp

end nonzero

end WeensyOS.Printer
