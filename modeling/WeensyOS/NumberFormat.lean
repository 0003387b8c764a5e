import WeensyOS.Printer
import Mathlib.Data.List.Basic
import Mathlib.Data.List.Induction
import Mathlib.Tactic.IntervalCases

/-!
# Numeric conversions

What `%d`, `%i`, `%u`, `%x`, `%X` and `%p` print, for every combination of flags, width, precision
and length. `NumberField` says what the field for a number is; a directive is given by the
characters it may be written with, and its widths and precisions stay below 2^30 so that no `int`
wraps.
-/

namespace WeensyOS.Printer

/-! Digit strings. -/

def digitValue (base : Base) (c : UInt8) : ℕ := base.digits.idxOf c

def numeralValue (base : Base) (digits : Chars) : ℕ :=
  digits.foldl (fun n c => base.radix * n + digitValue base c) 0

/-- The digit string of a number, without leading zeros. -/
structure Numeral (base : Base) (magnitude : ℕ) where
  digits : Chars
  isDigit : ∀ c ∈ digits, c ∈ base.digits.take base.radix
  value : numeralValue base digits = magnitude
  nonempty : digits ≠ []
  canonical : digits.head? = some 0x30 → digits = [0x30]

theorem digit_getD (base : Base) {i : ℕ} (hi : i < base.radix) :
    base.digits.getD i 0 ∈ base.digits.take base.radix ∧
      digitValue base (base.digits.getD i 0) = i := by
  cases base
  all_goals
    simp only [Base.radix] at hi
    interval_cases i <;> decide

theorem numeralValue_append (base : Base) (digits : Chars) (c : UInt8) :
    numeralValue base (digits ++ [c]) =
      base.radix * numeralValue base digits + digitValue base c := by
  rw [numeralValue, List.foldl_append]
  rfl

theorem take_radix_ne_zero (base : Base) : ∀ c ∈ base.digits.take base.radix, c ≠ 0 := by
  cases base <;> simp [Base.digits, Base.radix, Base.upperDigits, Base.lowerDigits]

/-- One more digit on the right. -/
def Numeral.snoc {base : Base} {val : ℕ} (n : Numeral base (val / base.radix))
    (hval : val / base.radix ≠ 0) : Numeral base val where
  digits := n.digits ++ [base.digits.getD (val % base.radix) 0]
  isDigit c hc := by
    rcases List.mem_append.mp hc with hc | hc
    · exact n.isDigit c hc
    · rw [List.mem_singleton.mp hc]
      exact (digit_getD base (Nat.mod_lt _ (Nat.zero_lt_of_lt base.one_lt_radix))).1
  value := by
    rw [numeralValue_append, n.value,
      (digit_getD base (Nat.mod_lt _ (Nat.zero_lt_of_lt base.one_lt_radix))).2]
    exact Nat.div_add_mod val base.radix
  nonempty := by simp
  canonical h := by
    rw [List.head?_append_of_ne_nil _ n.nonempty] at h
    have hzero := n.value
    rw [n.canonical h] at hzero
    refine absurd (hzero.symm.trans ?_) hval
    cases base <;> rfl

/-- The numeral of a number below the base. -/
def Numeral.single (base : Base) {val : ℕ} (hval : val / base.radix = 0) : Numeral base val :=
  have hlt : val < base.radix :=
    (Nat.div_eq_zero_iff_lt (Nat.zero_lt_of_lt base.one_lt_radix)).mp hval
  { digits := [base.digits.getD (val % base.radix) 0]
    isDigit := fun c hc => by
      rw [List.mem_singleton.mp hc, Nat.mod_eq_of_lt hlt]
      exact (digit_getD base hlt).1
    value := by
      rw [← List.nil_append [_], numeralValue_append, Nat.mod_eq_of_lt hlt, (digit_getD base hlt).2]
      exact (congrArg (· + val) (Nat.mul_zero _)).trans (Nat.zero_add val)
    nonempty := by simp
    canonical := fun h => by
      rw [List.head?_cons] at h
      rw [Option.some.inj h] }

/-- The loop of `fill_numbuf` writes the numeral backwards. -/
theorem fillDigits_spec (base : Base) (val : ℕ) (buf : Numbuf) : ∃ n : Numeral base val,
    (fillDigits base val buf).bytes = n.digits ++ buf.bytes ∧
      (∀ o ∈ (fillDigits base val buf).written, o ∈ buf.written ∨
        buf.pos - n.digits.length ≤ o ∧ o < buf.pos) ∧
      ∀ k, val < base.radix ^ (k + 1) → n.digits.length ≤ k + 1 := by
  induction val using Nat.strong_induction_on generalizing buf with
  | h val ih =>
      rw [fillDigits]
      by_cases hdiv : val / base.radix = 0
      · refine ⟨.single base hdiv, ?_, ?_, fun k _ => ?_⟩
        · rw [if_neg (not_not_intro hdiv)]
          rfl
        · rw [if_neg (not_not_intro hdiv)]
          intro o ho
          rcases List.mem_cons.mp ho with rfl | ho
          · refine .inr ⟨le_rfl, ?_⟩
            omega
          · exact .inl ho
        · exact Nat.le_add_left 1 k
      · have hpos : 0 < val := Nat.pos_of_ne_zero fun h0 => hdiv (by rw [h0, Nat.zero_div])
        obtain ⟨n, hbytes, hwritten, hlength⟩ := ih (val / base.radix)
          (Nat.div_lt_self hpos base.one_lt_radix)
          (buf.push (base.digits.getD (val % base.radix) 0))
        have hsnoc : (n.snoc hdiv).digits.length = n.digits.length + 1 := by
          rw [Numeral.snoc, List.length_append]
          rfl
        refine ⟨n.snoc hdiv, ?_, ?_, fun k hk => ?_⟩
        · rw [if_pos hdiv, hbytes]
          exact List.append_cons _ _ _
        · rw [if_pos hdiv]
          intro o ho
          rw [hsnoc]
          rcases hwritten o ho with ho | ⟨hlo, hhi⟩
          · rcases List.mem_cons.mp ho with rfl | ho
            · refine .inr ⟨?_, ?_⟩
              · push_cast
                omega
              · omega
            · exact .inl ho
          · simp only [Numbuf.push] at hlo hhi
            refine .inr ⟨?_, ?_⟩
            · push_cast
              omega
            · omega
        · rw [hsnoc]
          cases k with
          | zero =>
              rw [Nat.zero_add, pow_one] at hk
              exact absurd (Nat.div_eq_of_lt hk) hdiv
          | succ k =>
              have hk' : val / base.radix < base.radix ^ (k + 1) := by
                apply Nat.div_lt_of_lt_mul
                rwa [← pow_succ']
              have := hlength k hk'
              omega

/-- `fill_numbuf` leaves a numeral before its NUL and stays inside `numbuf`. -/
theorem fillNumbuf_spec (base : Base) {val : ℕ} (hval : val < 2 ^ 64) : ∃ n : Numeral base val,
    (CString.ofBytes (fillNumbuf base val).bytes).1 = n.digits ∧ n.digits.length ≤ 20 ∧
      ∀ o ∈ (fillNumbuf base val).written, 0 ≤ o ∧ o < numbufsiz := by
  obtain ⟨n, hbytes, hwritten, hlength⟩ :=
    fillDigits_spec base val (Numbuf.push ⟨numbufsiz, [], []⟩ 0)
  have hle : n.digits.length ≤ 20 := by
    apply hlength 19
    refine hval.trans_le (le_trans ?_ (Nat.pow_le_pow_left (show 10 ≤ base.radix by
      cases base <;> decide) 20))
    norm_num
  refine ⟨n, ?_, hle, fun o ho => ?_⟩
  · unfold CString.ofBytes fillNumbuf
    dsimp only
    rw [hbytes, List.takeWhile_append_of_pos]
    · exact List.append_nil _
    · intro c hc
      exact decide_eq_true (take_radix_ne_zero base c (n.isDigit c hc))
  · simp only [Numbuf.push, numbufsiz] at hwritten ⊢
    rcases hwritten o ho with ho | ⟨hlo, hhi⟩
    · rw [List.mem_singleton.mp ho]
      norm_num
    · omega

/-! Fields. -/

/-- The zeros that a precision or a width asks for. -/
def zerosOf (cs : Chars) (width : ℕ) (precision : Option ℕ) (signLength digitsLength : ℕ) : ℕ :=
  match precision with
  | some p => p - digitsLength
  | none => if 0x30 ∈ cs ∧ 0x2D ∉ cs then width - (signLength + digitsLength) else 0

/-- The field of a number: its numeral with a sign before it, zeros up to the precision or the
width, and spaces up to the width on the side that the flags say. -/
structure NumberField (flags : Chars) (width : ℕ) (precision : Option ℕ) (base : Base)
    (sign : Chars) (magnitude : ℕ) where
  left : ℕ
  zeros : ℕ
  numeral : Numeral base magnitude
  right : ℕ
  zeros_eq : zeros = zerosOf flags width precision sign.length numeral.digits.length
  precision_le : ∀ p ∈ precision, p ≤ zeros + numeral.digits.length
  length_eq : left + sign.length + zeros + numeral.digits.length + right =
    max width (sign.length + max (precision.getD 0) numeral.digits.length)
  left_eq : 0x2D ∈ flags → left = 0
  right_eq : 0x2D ∉ flags → right = 0

def NumberField.chars {flags : Chars} {width : ℕ} {precision : Option ℕ} {base : Base}
    {sign : Chars} {magnitude : ℕ} (f : NumberField flags width precision base sign magnitude) :
    Chars :=
  List.replicate f.left 0x20 ++ (sign ++ (List.replicate f.zeros 0x30 ++ (f.numeral.digits ++
    List.replicate f.right 0x20)))

/-- A width or a precision as the variable of the source has it. -/
def intOf : Option ℕ → ℤ
  | some n => n
  | none => -1

theorem toInt32_eq {x : ℤ} (hlo : -2 ^ 31 ≤ x) (hhi : x < 2 ^ 31) : toInt32 x = x :=
  Int.bmod_eq_of_le (by omega) (by omega)

theorem prefixChars_length (f : Field) : f.prefixChars.length ≤ 2 := by
  unfold Field.prefixChars
  split_ifs
  all_goals decide

/-- The flags that characters set. -/
structure Flags.Of (flags : Flags) (cs : Chars) : Prop where
  alt : flags.alt = true ↔ 0x23 ∈ cs
  zero : flags.zero = true ↔ 0x30 ∈ cs
  leftjustify : flags.leftjustify = true ↔ 0x2D ∈ cs
  spacepositive : flags.spacepositive = true ↔ 0x20 ∈ cs
  pluspositive : flags.pluspositive = true ↔ 0x2B ∈ cs
  signed : flags.signed = false
  negative : flags.negative = false
  alt2 : flags.alt2 = false

section field
variable {f : Field} {cs : Chars} {width precision : Option ℕ}
  (hnumeric : f.flags.numeric = true) (hzero : f.flags.zero = true ↔ 0x30 ∈ cs)
  (hleft : f.flags.leftjustify = true ↔ 0x2D ∈ cs) (hwidth : f.width = intOf width)
  (hprecision : f.precision = intOf precision) (hw : ∀ n ∈ width, n < 2 ^ 30)
  (hp : ∀ n ∈ precision, n < 2 ^ 30)

include hnumeric hzero hleft hwidth hprecision hw hp

theorem zeros_eq {len : ℕ} (hlen : f.len = len) (hle : len ≤ 20) :
    f.zeros = zerosOf cs (width.getD 0) precision f.prefixChars.length len := by
  have hpre := prefixChars_length f
  cases precision with
  | some p =>
      have hlt := hp p rfl
      have hprec : f.precision = p := hprecision
      rw [Field.zeros, hprec, hlen, if_pos ⟨hnumeric, Int.natCast_nonneg p⟩, zerosOf]
      by_cases hmore : (p : ℤ) > len
      · rw [if_pos hmore, toInt32_eq (by omega) (by omega)]
        omega
      · rw [if_neg hmore]
        omega
  | none =>
      have hprec : f.precision = -1 := hprecision
      have hneg : ¬ (f.flags.numeric = true ∧ (0 : ℤ) ≤ -1) := fun h => by omega
      have hsum : toInt32 ((len : ℤ) + f.prefixChars.length) = len + f.prefixChars.length :=
        toInt32_eq (by omega) (by omega)
      rw [Field.zeros, hprec, hlen, if_neg hneg, zerosOf, hsum]
      by_cases hpad : 0x30 ∈ cs ∧ 0x2D ∉ cs
      · rw [if_pos hpad]
        cases width with
        | none =>
            have hwid : f.width = -1 := hwidth
            rw [if_neg]
            · simp
            · rintro ⟨-, -, -, h⟩
              omega
        | some n =>
            have hlt := hw n rfl
            have hwid : f.width = n := hwidth
            rw [hwid, Option.getD_some]
            by_cases hfits : (len : ℤ) + f.prefixChars.length < n
            · rw [if_pos ⟨hnumeric, hzero.mpr hpad.1, hleft.not.mpr hpad.2, hfits⟩,
                toInt32_eq (by omega) (by omega)]
              omega
            · rw [if_neg fun h => hfits h.2.2.2]
              omega
      · rw [if_neg hpad, if_neg]
        · rfl
        · rintro ⟨-, hz, hl, -⟩
          exact hpad ⟨hzero.mp hz, hleft.not.mp hl⟩

/-- What `printer_vprintf` prints for a number is a field for it. -/
theorem exists_numberField
    (hdata : f.data = CString.ofBytes (fillNumbuf f.base f.num.toNat).bytes) :
    ∃ field : NumberField cs (width.getD 0) precision f.base f.prefixChars f.num.toNat,
      f.chars = field.chars := by
  obtain ⟨n, hn, hle, -⟩ := fillNumbuf_spec f.base f.num.isLt
  have hlen : f.len = n.digits.length := by
    rw [Field.len, if_neg (fun h => h.2 hnumeric), hdata, hn]
    exact toInt32_eq (by omega) (by omega)
  have hpre := prefixChars_length f
  have hzeros := zeros_eq hnumeric hzero hleft hwidth hprecision hw hp hlen hle
  generalize hZ : zerosOf cs (width.getD 0) precision f.prefixChars.length n.digits.length =
    Z at hzeros
  have hZlt : Z < 2 ^ 30 := by
    rw [← hZ]
    cases precision with
    | some p =>
        have := hp p rfl
        rw [zerosOf]
        omega
    | none =>
        rw [zerosOf]
        split_ifs
        · cases width with
          | none => simp
          | some n =>
              have := hw n rfl
              simp only [Option.getD_some]
              omega
        · norm_num
  have hprec : ∀ p ∈ precision, p ≤ Z + n.digits.length := by
    rintro p rfl
    rw [← hZ, zerosOf]
    omega
  have htotal : max (width.getD 0) (f.prefixChars.length + (Z + n.digits.length)) =
      max (width.getD 0) (f.prefixChars.length + max (precision.getD 0) n.digits.length) := by
    rw [← hZ]
    cases precision with
    | some p =>
        rw [zerosOf, Option.getD_some]
        omega
    | none =>
        rw [zerosOf, Option.getD_none]
        split_ifs <;> omega
  have hspaces : f.spaces = intOf width - (n.digits.length + Z + f.prefixChars.length) := by
    rw [Field.spaces, hwidth, hlen, hzeros]
    cases width with
    | none =>
        simp only [intOf]
        exact toInt32_eq (by omega) (by omega)
    | some w =>
        have := hw w rfl
        simp only [intOf]
        exact toInt32_eq (by omega) (by omega)
  have hnat : f.spaces.toNat = width.getD 0 - (n.digits.length + Z + f.prefixChars.length) := by
    rw [hspaces]
    cases width with
    | none =>
        simp only [intOf, Option.getD_none]
        omega
    | some w =>
        simp only [intOf, Option.getD_some]
        omega
  by_cases hside : 0x2D ∈ cs
  · refine ⟨⟨0, Z, n, f.spaces.toNat, hZ.symm, hprec, ?_, fun _ => rfl, fun h => absurd hside h⟩,
      ?_⟩
    · rw [← htotal, hnat]
      omega
    · rw [Field.chars, if_pos (hleft.mpr hside), if_pos (hleft.mpr hside), hlen, hzeros,
        hdata, hn, Int.toNat_natCast, Int.toNat_natCast, List.take_length]
      rfl
  · have hnot := hleft.not.mpr hside
    refine ⟨⟨f.spaces.toNat, Z, n, 0, hZ.symm, hprec, ?_, fun h => absurd h hside, fun _ => rfl⟩,
      ?_⟩
    · rw [← htotal, hnat]
      omega
    · rw [Field.chars, if_neg hnot, if_neg hnot, hlen, hzeros,
        hdata, hn, Int.toNat_natCast, Int.toNat_natCast, List.take_length]
      rfl

end field

/-! Directives. -/

structure Literal where
  digits : Chars
  isDigit : ∀ c ∈ digits, IsDigit c
  lt : numeralValue .decimal digits < 2 ^ 30

/-- A width or a precision: left out, written out, or taken from the arguments. -/
inductive Amount
  | none
  | literal (l : Literal)
  | star

namespace Amount

def chars : Amount → Chars
  | none => []
  | literal l => l.digits
  | star => [0x2A]

def value (val : VaList) : Amount → Option ℕ
  | none => .none
  | literal l => some (numeralValue .decimal l.digits)
  | star => some val.int.toNat

def after (val : VaList) : Amount → VaList
  | star => val.skip
  | _ => val

def InRange (val : VaList) : Amount → Prop
  | star => 0 ≤ val.int ∧ val.int < 2 ^ 30
  | _ => True

end Amount

inductive NumericConv
  | d
  | i
  | u
  | x
  | X
  | p

namespace NumericConv

def char : NumericConv → UInt8
  | d => 0x64
  | i => 0x69
  | u => 0x75
  | x => 0x78
  | X => 0x58
  | p => 0x70

def base : NumericConv → Base
  | x => .lowerHex
  | X => .upperHex
  | p => .lowerHex
  | _ => .decimal

/-- The value of the argument. -/
def argument (long : Bool) (w : BitVec 64) : NumericConv → ℤ
  | d => if long then w.toInt else (w.setWidth 32).toInt
  | i => if long then w.toInt else (w.setWidth 32).toInt
  | p => w.toNat
  | _ => if long then w.toNat else (w.setWidth 32).toNat

/-- The sign, or the prefix of a hexadecimal number. -/
def sign (flags : Chars) (arg : ℤ) : NumericConv → Chars
  | u => []
  | x => if 0x23 ∈ flags ∧ arg ≠ 0 then [0x30, 0x78] else []
  | X => if 0x23 ∈ flags ∧ arg ≠ 0 then [0x30, 0x58] else []
  | p => [0x30, 0x78]
  | _ => if arg < 0 then [0x2D] else if 0x2B ∈ flags then [0x2B] else if 0x20 ∈ flags then [0x20]
      else []

/-- What the switch makes of the argument. -/
def field (flags : Flags) (width precision : ℤ) (long : Bool) (w : BitVec 64) :
    NumericConv → Field
  | u => numericField flags width precision .decimal (unsignedArg long w)
  | x => numericField flags width precision .lowerHex (unsignedArg long w)
  | X => numericField flags width precision .upperHex (unsignedArg long w)
  | p => numericField { flags with alt := true, alt2 := true } width precision .lowerHex w
  | _ => signedField flags width precision (signedArg long w)

end NumericConv

/-- A numeric directive behind its `%`. -/
structure NumericDirective where
  flags : Chars
  isFlag : ∀ c ∈ flags, c ∈ flagChars
  width : Amount
  width_head : ∀ l, width = .literal l → ∃ c rest, l.digits = c :: rest ∧ 0x31 ≤ c
  precision : Amount
  lengths : Chars
  isLength : ∀ c ∈ lengths, c = 0x6C ∨ c = 0x7A
  conv : NumericConv

namespace NumericDirective
variable (d : NumericDirective) (val : VaList)

def precisionChars : Chars :=
  match d.precision with
  | .none => []
  | a => 0x2E :: a.chars

def chars : Chars :=
  d.flags ++ (d.width.chars ++ (d.precisionChars ++ (d.lengths ++ [d.conv.char])))

def long : Bool := d.lengths ≠ []

/-- The arguments from the number on. -/
def args : VaList := d.precision.after (d.width.after val)

def argument : ℤ := d.conv.argument d.long ((d.args val).word 0)

def sign : Chars := d.conv.sign d.flags (d.argument val)

def InRange : Prop := d.width.InRange val ∧ d.precision.InRange (d.width.after val)

end NumericDirective

/-! Reading a directive. -/

section parse

theorem parseFlags_append {flags : Flags} {cs rest : Chars} (hcs : ∀ c ∈ cs, c ∈ flagChars)
    (hrest : ∀ c, rest.head? = some c → c ∉ flagChars) :
    parseFlags flags (cs ++ rest) =
      (cs.foldl (fun (flags : Flags) c => flags.set (flagChars.idxOf c)) flags, rest) := by
  induction cs generalizing flags with
  | nil =>
      cases rest with
      | nil => rfl
      | cons c rest =>
          rw [List.nil_append, parseFlags, if_neg (hrest c rfl)]
          rfl
  | cons c cs ih =>
      rw [List.cons_append, parseFlags, if_pos (hcs c List.mem_cons_self),
        ih fun c hc => hcs c (List.mem_cons_of_mem _ hc)]
      rfl

theorem Flags.Of.set {flags : Flags} {cs : Chars} (h : flags.Of cs) {c : UInt8}
    (hc : c ∈ flagChars) : (flags.set (flagChars.idxOf c)).Of (cs ++ [c]) := by
  obtain ⟨h1, h2, h3, h4, h5, h6, h7, h8⟩ := h
  have i0 : flagChars.idxOf 0x23 = 0 := by decide
  have i1 : flagChars.idxOf 0x30 = 1 := by decide
  have i2 : flagChars.idxOf 0x2D = 2 := by decide
  have i3 : flagChars.idxOf 0x20 = 3 := by decide
  have i4 : flagChars.idxOf 0x2B = 4 := by decide
  simp only [flagChars, List.mem_cons, List.not_mem_nil, or_false] at hc
  rcases hc with rfl | rfl | rfl | rfl | rfl
  all_goals
    constructor
    all_goals simp [i0, i1, i2, i3, i4, Flags.set, h1, h2, h3, h4, h5, h6, h7, h8]

theorem flags_of {cs : Chars} (hcs : ∀ c ∈ cs, c ∈ flagChars) :
    (cs.foldl (fun (flags : Flags) c => flags.set (flagChars.idxOf c)) {}).Of cs := by
  induction cs using List.reverseRecOn with
  | nil => exact ⟨by simp, by simp, by simp, by simp, by simp, rfl, rfl, rfl⟩
  | append_singleton cs c ih =>
      rw [List.foldl_append]
      exact (ih fun c hc => hcs c (List.mem_append_left _ hc)).set (hcs c (by simp))

theorem digitValue_decimal {c : UInt8} (hc : IsDigit c) :
    c.toNat = digitValue .decimal c + 0x30 := by
  have hlo : 48 ≤ c.toNat := hc.1
  have hhi : c.toNat ≤ 57 := hc.2
  obtain ⟨n, hn⟩ : ∃ n, c.toNat = n := ⟨_, rfl⟩
  have hcn : c = UInt8.ofNat n := by rw [← hn, UInt8.ofNat_toNat]
  rw [hn] at hlo hhi
  subst hcn
  interval_cases n <;> decide

theorem le_foldl_digits (ds : Chars) (n : ℕ) :
    n ≤ ds.foldl (fun n c => 10 * n + digitValue .decimal c) n := by
  induction ds generalizing n with
  | nil => exact le_rfl
  | cons c ds ih => exact le_trans (by omega) (ih (10 * n + digitValue .decimal c))

theorem parseNumber_append {n : ℕ} {ds rest : Chars} (hds : ∀ c ∈ ds, IsDigit c)
    (hlt : ds.foldl (fun n c => 10 * n + digitValue .decimal c) n < 2 ^ 30)
    (hrest : ∀ c, rest.head? = some c → ¬ IsDigit c) : parseNumber n (ds ++ rest) =
      (((ds.foldl (fun n c => 10 * n + digitValue .decimal c) n : ℕ) : ℤ), rest) := by
  induction ds generalizing n with
  | nil =>
      cases rest with
      | nil => rfl
      | cons c rest =>
          rw [List.nil_append, parseNumber, if_neg (hrest c rfl)]
          rfl
  | cons c ds ih =>
      have hc := digitValue_decimal (hds c List.mem_cons_self)
      have hle := le_foldl_digits ds (10 * n + digitValue .decimal c)
      rw [List.foldl_cons] at hlt
      have hstep : toInt32 (10 * (n : ℤ) + c.toNat - 0x30) =
          (10 * n + digitValue .decimal c : ℕ) := by
        rw [hc, toInt32_eq (by omega) (by omega)]
        push_cast
        ring
      rw [List.cons_append, parseNumber, if_pos (hds c List.mem_cons_self), hstep,
        ih (fun c hc => hds c (List.mem_cons_of_mem _ hc)) hlt]
      rfl

theorem parseLength_append {long : Bool} {cs : Chars} (hcs : ∀ c ∈ cs, c = 0x6C ∨ c = 0x7A)
    {c : UInt8} (hc : ¬ (c = 0x6C ∨ c = 0x7A)) (rest : Chars) :
    parseLength long (cs ++ c :: rest) = (long || decide (cs ≠ []), c :: rest) := by
  induction cs generalizing long with
  | nil => simp [parseLength, hc]
  | cons c' cs ih =>
      rw [List.cons_append, parseLength, if_pos (hcs c' List.mem_cons_self),
        ih fun c hc => hcs c (List.mem_cons_of_mem _ hc)]
      simp

/-- The characters that may follow a precision: `l`, `z` and the conversions. -/
def startChars : Chars := [0x6C, 0x7A, 0x64, 0x69, 0x75, 0x78, 0x58, 0x70]

theorem startChars_spec : ∀ c ∈ startChars,
    c ∉ flagChars ∧ ¬ IsDigit c ∧ ¬ (0x31 ≤ c ∧ c ≤ 0x39) ∧ c ≠ 0x2A ∧ c ≠ 0x2E := by
  simp [startChars, flagChars, IsDigit]

variable (d : NumericDirective) (rest : Chars) (val : VaList)

theorem lengths_head : ∃ c rest', d.lengths ++ (d.conv.char :: rest) = c :: rest' ∧
    c ∈ startChars := by
  cases h : d.lengths with
  | nil =>
      refine ⟨_, _, rfl, ?_⟩
      cases d.conv <;> decide
  | cons c cs =>
      refine ⟨_, _, rfl, ?_⟩
      rcases d.isLength c (h ▸ List.mem_cons_self) with rfl | rfl
      · decide
      · decide

theorem precision_head : ∃ c rest', d.precisionChars ++ (d.lengths ++ (d.conv.char :: rest)) =
    c :: rest' ∧ (c = 0x2E ∨ c ∈ startChars) := by
  unfold NumericDirective.precisionChars
  cases d.precision with
  | none =>
      obtain ⟨c, rest', heq, hc⟩ := lengths_head d rest
      exact ⟨c, rest', heq, .inr hc⟩
  | literal l => exact ⟨_, _, rfl, .inl rfl⟩
  | star => exact ⟨_, _, rfl, .inl rfl⟩

theorem width_head_notFlag : ∀ c, (d.width.chars ++ (d.precisionChars ++
    (d.lengths ++ (d.conv.char :: rest)))).head? = some c → c ∉ flagChars := by
  intro c hc
  cases hw : d.width with
  | none =>
      obtain ⟨c', rest', heq, hc'⟩ := precision_head d rest
      rw [hw, Amount.chars, List.nil_append, heq, List.head?_cons] at hc
      obtain rfl := Option.some.inj hc
      rcases hc' with rfl | hc'
      · decide
      · exact (startChars_spec _ hc').1
  | literal l =>
      obtain ⟨c', cs, heq, hlo⟩ := d.width_head l hw
      rw [hw, Amount.chars, heq, List.cons_append, List.head?_cons] at hc
      obtain rfl := Option.some.inj hc
      have hdigit := l.isDigit c' (heq ▸ List.mem_cons_self)
      intro hmem
      simp only [flagChars, List.mem_cons, List.not_mem_nil, or_false] at hmem
      rcases hmem with rfl | rfl | rfl | rfl | rfl
      all_goals revert hlo hdigit; decide
  | star =>
      rw [hw, Amount.chars, List.cons_append, List.head?_cons] at hc
      obtain rfl := Option.some.inj hc
      decide

theorem parseNumber_literal (l : Literal) (tail : Chars)
    (htail : ∀ c, tail.head? = some c → ¬ IsDigit c) :
    parseNumber 0 (l.digits ++ tail) = (((numeralValue .decimal l.digits : ℕ) : ℤ), tail) :=
  parseNumber_append (n := 0) l.isDigit l.lt htail

theorem parseWidth_eq {c : UInt8} {tail : Chars} (hc : c = 0x2E ∨ c ∈ startChars)
    (hrange : d.width.InRange val) : parseWidth val (d.width.chars ++ c :: tail) =
      (intOf (d.width.value val), d.width.after val, c :: tail) := by
  have hspec : ¬ (0x31 ≤ c ∧ c ≤ 0x39) ∧ c ≠ 0x2A ∧ ¬ IsDigit c := by
    rcases hc with rfl | hc
    · decide
    · have h := startChars_spec c hc
      exact ⟨h.2.2.1, h.2.2.2.1, h.2.1⟩
  cases hw : d.width with
  | none =>
      rw [Amount.chars, List.nil_append, parseWidth, if_neg hspec.1, if_neg hspec.2.1]
      rfl
  | literal l =>
      obtain ⟨c', cs, heq, hlo⟩ := d.width_head l hw
      have hdigit := l.isDigit c' (heq ▸ List.mem_cons_self)
      have hnumber := parseNumber_literal l (c :: tail) (by
        intro c'' hc''
        obtain rfl := Option.some.inj hc''
        exact hspec.2.2)
      rw [Amount.chars, heq, List.cons_append, parseWidth, if_pos ⟨hlo, hdigit.2⟩]
      rw [heq, List.cons_append] at hnumber
      rw [hnumber, ← heq]
      rfl
  | star =>
      rw [hw] at hrange
      have hnat : (val.int.toNat : ℤ) = val.int := Int.toNat_of_nonneg hrange.1
      rw [Amount.chars, List.cons_append, List.nil_append, parseWidth, if_neg (by decide),
        if_pos rfl, Amount.value, intOf, hnat]
      rfl

theorem parsePrecision_eq {c : UInt8} {tail : Chars} (hc : c ∈ startChars)
    (hrange : d.precision.InRange val) : parsePrecision val (d.precisionChars ++ c :: tail) =
      (intOf (d.precision.value val), d.precision.after val, c :: tail) := by
  obtain ⟨-, hdigit, -, hstar, hpoint⟩ := startChars_spec c hc
  unfold NumericDirective.precisionChars
  cases hp : d.precision with
  | none =>
      dsimp only
      rw [List.nil_append, parsePrecision, if_neg hpoint]
      rfl
  | literal l =>
      dsimp only
      rw [List.cons_append, parsePrecision, if_pos rfl, Amount.chars]
      cases hl : l.digits with
      | nil =>
          rw [List.nil_append, parsePrecisionNumber, if_neg hdigit, if_neg hstar]
          simp [Amount.value, hl, numeralValue, intOf, Amount.after]
      | cons c' cs =>
          have hnumber := parseNumber_literal l (c :: tail) (by
            intro c'' hc''
            obtain rfl := Option.some.inj hc''
            exact hdigit)
          rw [hl, List.cons_append] at hnumber
          rw [List.cons_append, parsePrecisionNumber,
            if_pos (l.isDigit c' (hl ▸ List.mem_cons_self)), hnumber, Amount.value, hl]
          dsimp only
          rw [if_neg (by omega)]
          rfl
  | star =>
      rw [hp] at hrange
      have hnat : (val.int.toNat : ℤ) = val.int := Int.toNat_of_nonneg hrange.1
      have hnonneg : ¬ val.int < 0 := by
        have := hrange.1
        omega
      dsimp only
      rw [List.cons_append, parsePrecision, if_pos rfl, Amount.chars, List.cons_append,
        List.nil_append, parsePrecisionNumber, if_neg (by decide), if_pos rfl]
      dsimp only
      rw [if_neg hnonneg, Amount.value, intOf, hnat]
      rfl

theorem convert_eq (conv : NumericConv) (flags : Flags) (width precision : ℤ) (long : Bool)
    (color : BitVec 32) : convert flags width precision long color val (conv.char :: rest) =
      ⟨some (conv.field flags width precision long (val.word 0)), color, val.skip, rest⟩ := by
  cases conv <;> rfl

theorem parseDirective_eq (color : BitVec 32) (hrange : d.InRange val) :
    ∃ flags : Flags, flags.Of d.flags ∧ parseDirective color val (d.chars ++ rest) =
      ⟨some (d.conv.field flags (intOf (d.width.value val))
        (intOf (d.precision.value (d.width.after val))) d.long ((d.args val).word 0)), color,
        (d.args val).skip, rest⟩ := by
  have hchars : d.chars ++ rest = d.flags ++ (d.width.chars ++ (d.precisionChars ++
      (d.lengths ++ (d.conv.char :: rest)))) := by
    simp only [NumericDirective.chars, List.append_assoc, List.singleton_append]
  refine ⟨_, flags_of d.isFlag, ?_⟩
  rw [hchars, parseDirective, parseFlags_append d.isFlag (width_head_notFlag d rest)]
  dsimp only
  obtain ⟨c, tail, heq, hc⟩ := precision_head d rest
  rw [heq, parseWidth_eq d val hc hrange.1]
  dsimp only
  obtain ⟨c', tail', heq', hc'⟩ := lengths_head d rest
  rw [← heq, heq', parsePrecision_eq d _ hc' hrange.2]
  dsimp only
  rw [← heq', parseLength_append d.isLength (by cases d.conv <;> decide)]
  dsimp only
  rw [convert_eq, Bool.false_or]
  rfl

end parse

/-! The number of a directive. -/

section number

theorem msb_iff (x : BitVec 64) : x.msb = true ↔ x.toInt < 0 := by
  rw [BitVec.msb_eq_toInt, decide_eq_true_iff]

theorem negated_toNat (x : BitVec 64) : (if x.msb then -x else x).toNat = x.toInt.natAbs := by
  have hlt := x.isLt
  rw [BitVec.toInt_eq_msb_cond]
  split_ifs with h
  · rw [BitVec.toNat_neg]
    rw [BitVec.msb_eq_decide, decide_eq_true_iff] at h
    omega
  · omega

theorem signedArg_toInt (long : Bool) (w : BitVec 64) :
    (signedArg long w).toInt = if long then w.toInt else (w.setWidth 32).toInt := by
  cases long with
  | true => rfl
  | false => exact BitVec.toInt_signExtend_of_le (by norm_num)

theorem unsignedArg_toNat (long : Bool) (w : BitVec 64) :
    (unsignedArg long w).toNat = if long then w.toNat else (w.setWidth 32).toNat := by
  cases long with
  | true => rfl
  | false => exact BitVec.toNat_setWidth_of_le (show 32 ≤ 64 by norm_num)

/-- The argument of the unsigned conversions. -/
theorem unsignedArg_cast (long : Bool) (w : BitVec 64) : ((unsignedArg long w).toNat : ℤ) =
    if long then (w.toNat : ℤ) else (w.setWidth 32).toNat := by
  rw [unsignedArg_toNat]
  split_ifs
  · rfl
  · rfl

variable {flags : Flags} {cs : Chars} (conv : NumericConv) (width precision : ℤ) (long : Bool)
  (w : BitVec 64)

theorem field_num : (conv.field flags width precision long w).num.toNat =
    (conv.argument long w).natAbs := by
  cases conv with
  | d => exact (negated_toNat _).trans (congrArg Int.natAbs (signedArg_toInt long w))
  | i => exact (negated_toNat _).trans (congrArg Int.natAbs (signedArg_toInt long w))
  | p => rfl
  | u => exact congrArg Int.natAbs (unsignedArg_cast long w)
  | x => exact congrArg Int.natAbs (unsignedArg_cast long w)
  | X => exact congrArg Int.natAbs (unsignedArg_cast long w)

theorem field_data : (conv.field flags width precision long w).data =
    CString.ofBytes (fillNumbuf (conv.field flags width precision long w).base
      (conv.field flags width precision long w).num.toNat).bytes := by
  cases conv <;> rfl

theorem field_base : (conv.field flags width precision long w).base = conv.base := by
  cases conv <;> rfl

theorem signedField_prefixChars (h : flags.Of cs) (x : BitVec 64) :
    (signedField flags width precision x).prefixChars =
      if x.toInt < 0 then [0x2D] else if 0x2B ∈ cs then [0x2B] else if 0x20 ∈ cs then [0x20]
      else [] := by
  rw [Field.prefixChars, if_pos ⟨rfl, rfl⟩]
  simp only [signedField, numericField, msb_iff, h.pluspositive, h.spacepositive]

theorem hexField_prefixChars (h : flags.Of cs) {base : Base} (hbase : base ≠ .decimal)
    (x : BitVec 64) :
    (numericField flags width precision base x).prefixChars =
      if 0x23 ∈ cs ∧ (x.toNat : ℤ) ≠ 0 then
        if base = .lowerHex then [0x30, 0x78] else [0x30, 0x58] else [] := by
  have hsigned : ¬ ((numericField flags width precision base x).flags.numeric = true ∧
      (numericField flags width precision base x).flags.signed = true) := by
    rintro ⟨-, hs⟩
    exact absurd (h.signed.symm.trans hs) (by decide)
  have hnum : x ≠ 0 ↔ (x.toNat : ℤ) ≠ 0 := by
    rw [ne_eq, ne_eq, ← BitVec.toNat_inj]
    simp
  have halt2 : (numericField flags width precision base x).flags.alt2 = false := h.alt2
  rw [Field.prefixChars, if_neg hsigned, halt2]
  have hcond : ((numericField flags width precision base x).flags.numeric = true ∧
      (numericField flags width precision base x).flags.alt = true ∧
      (base = .upperHex ∨ base = .lowerHex) ∧ (x ≠ 0 ∨ false = true)) ↔
      0x23 ∈ cs ∧ (x.toNat : ℤ) ≠ 0 := by
    constructor
    · rintro ⟨-, halt, -, hx | hx⟩
      · exact ⟨h.alt.mp halt, hnum.mp hx⟩
      · exact absurd hx (by decide)
    · rintro ⟨halt, hx⟩
      refine ⟨rfl, h.alt.mpr halt, ?_, .inl (hnum.mpr hx)⟩
      cases base with
      | decimal => exact absurd rfl hbase
      | upperHex => exact .inl rfl
      | lowerHex => exact .inr rfl
  exact if_congr hcond rfl rfl

theorem field_prefixChars (h : flags.Of cs) :
    (conv.field flags width precision long w).prefixChars =
    conv.sign cs (conv.argument long w) := by
  cases conv with
  | d =>
      refine (signedField_prefixChars width precision h _).trans ?_
      rw [signedArg_toInt]
      rfl
  | i =>
      refine (signedField_prefixChars width precision h _).trans ?_
      rw [signedArg_toInt]
      rfl
  | u =>
      rw [Field.prefixChars, if_neg, if_neg]
      · rfl
      · rintro ⟨-, -, hbase, -⟩
        rcases hbase with hbase | hbase
        · cases hbase
        · cases hbase
      · rintro ⟨-, hs⟩
        exact absurd (h.signed.symm.trans hs) (by decide)
  | x =>
      refine (hexField_prefixChars width precision h (by decide) _).trans ?_
      rw [unsignedArg_cast]
      rfl
  | X =>
      refine (hexField_prefixChars width precision h (by decide) _).trans ?_
      rw [unsignedArg_cast]
      rfl
  | p =>
      rw [Field.prefixChars, if_neg, if_pos ⟨rfl, rfl, .inr rfl, .inr rfl⟩]
      · rfl
      · rintro ⟨-, hs⟩
        exact absurd (h.signed.symm.trans hs) (by decide)

theorem field_flags (h : flags.Of cs) :
    let f := conv.field flags width precision long w
    f.flags.numeric = true ∧ (f.flags.zero = true ↔ 0x30 ∈ cs) ∧
      (f.flags.leftjustify = true ↔ 0x2D ∈ cs) ∧ f.width = width ∧ f.precision = precision := by
  cases conv
  all_goals exact ⟨rfl, h.zero, h.leftjustify, rfl, rfl⟩

end number

section exact
variable (d : NumericDirective) (val : VaList)

theorem NumericConv.sign_minus (conv : NumericConv) (cs : Chars) (long : Bool) (w : BitVec 64) :
    conv.sign cs (conv.argument long w) = [0x2D] ↔ conv.argument long w < 0 := by
  have hsigned (arg : ℤ) : (if arg < 0 then [0x2D] else if 0x2B ∈ cs then [0x2B]
      else if 0x20 ∈ cs then [0x20] else [] : Chars) = [0x2D] ↔ arg < 0 := by
    split_ifs with h1 h2 h3
    · exact iff_of_true rfl h1
    · exact iff_of_false (by decide) h1
    · exact iff_of_false (by decide) h1
    · exact iff_of_false (by decide) h1
  have hunsigned : ¬ (if long then (w.toNat : ℤ) else (w.setWidth 32).toNat) < 0 := by
    split_ifs <;> omega
  cases conv with
  | d => exact hsigned _
  | i => exact hsigned _
  | u => exact iff_of_false (by simp [sign]) hunsigned
  | x =>
      refine iff_of_false ?_ hunsigned
      unfold sign
      split_ifs <;> decide
  | X =>
      refine iff_of_false ?_ hunsigned
      unfold sign
      split_ifs <;> decide
  | p => exact iff_of_false (by simp [sign]) (Int.natCast_nonneg w.toNat).not_gt

theorem Amount.value_lt (a : Amount) (h : a.InRange val) : ∀ n ∈ a.value val, n < 2 ^ 30 := by
  intro n hn
  cases a with
  | none => cases hn
  | literal l =>
      obtain rfl := Option.some.inj hn
      exact l.lt
  | star =>
      obtain rfl := Option.some.inj hn
      have := h.2
      omega

/-- Numeric conversions are exact. -/
theorem numeric_exact (color : BitVec 32) (rest : Chars) (hrange : d.InRange val) :
    (∃ field : NumberField d.flags ((d.width.value val).getD 0)
        (d.precision.value (d.width.after val)) d.conv.base (d.sign val) (d.argument val).natAbs,
      emitted color val (0x25 :: (d.chars ++ rest)) =
        field.chars.map (·, color) ++ emitted color (d.args val).skip rest) ∧
      (d.sign val = [0x2D] ↔ d.argument val < 0) ∧
      ∀ base num, num < 2 ^ 64 → ∀ o ∈ (fillNumbuf base num).written, 0 ≤ o ∧ o < numbufsiz := by
  refine ⟨?_, NumericConv.sign_minus _ _ _ _, fun base num hnum => ?_⟩
  · obtain ⟨flags, hflags, hparse⟩ := parseDirective_eq d rest val color hrange
    obtain ⟨hnumeric, hzero, hleft, hwidth, hprecision⟩ := field_flags d.conv
      (intOf (d.width.value val)) (intOf (d.precision.value (d.width.after val))) d.long
      ((d.args val).word 0) hflags
    have hfield := exists_numberField hnumeric hzero hleft hwidth hprecision
      (d.width.value_lt val hrange.1) (d.precision.value_lt _ hrange.2) (field_data _ _ _ _ _)
    rw [field_base, field_prefixChars _ _ _ _ _ hflags, field_num] at hfield
    obtain ⟨field, hfield⟩ := hfield
    refine ⟨field, ?_⟩
    rw [emitted_directive, hparse]
    exact congrArg (fun cs : Chars =>
      cs.map (·, color) ++ emitted color (d.args val).skip rest) hfield
  · obtain ⟨-, -, -, hwritten⟩ := fillNumbuf_spec base hnum
    exact hwritten

/-- `%-+*.3ld` -/
def sampleDirective : NumericDirective where
  flags := [0x2D, 0x2B]
  isFlag := by simp [flagChars]
  width := .star
  width_head _ h := by cases h
  precision := .literal ⟨[0x33], by simp [IsDigit], by decide⟩
  lengths := [0x6C]
  isLength := by simp
  conv := .d

/-- A width of 8, then the smallest `long`. -/
def sampleArgs : VaList where
  word i := if i = 0 then 8 else BitVec.intMin 64
  string _ := ⟨[], List.not_mem_nil⟩

theorem numeric_exact_intMin : sampleDirective.InRange sampleArgs ∧
    ∃ field : NumberField [0x2D, 0x2B] 8 (some 3) .decimal [0x2D] (2 ^ 63),
      emitted 0x0700 sampleArgs (0x25 :: (sampleDirective.chars ++ [])) =
        field.chars.map (·, 0x0700) ++
          emitted 0x0700 (sampleDirective.args sampleArgs).skip [] := by
  have hwidth : 0 ≤ sampleArgs.int ∧ sampleArgs.int < 2 ^ 30 := by decide
  have hrange : sampleDirective.InRange sampleArgs := ⟨hwidth, trivial⟩
  exact ⟨hrange, (numeric_exact sampleDirective sampleArgs 0x0700 [] hrange).1⟩

end exact

end WeensyOS.Printer
