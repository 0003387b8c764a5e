import Mathlib.Data.Nat.Bitwise
import Mathlib.Tactic.Common

/-!
# Segment and interrupt descriptors

`set_sys_segment` and `set_gate` pack an address, a limit, a type and a privilege level into the two
words of a descriptor. `decodeSysSegment` and `decodeGate` read the fields back at the places
where the processor expects them. A gate keeps every field; a system segment keeps a limit of
16 bits, since its four upper bits are shifted out of the word.
-/

namespace WeensyOS

@[simp] abbrev x86segP : BitVec 64 := 1#64 <<< 47
@[simp] abbrev segselKernCode : BitVec 64 := 0x8#64

/-- The types of system segments and gates. -/
inductive SystemType where
  | tss
  | call
  | interrupt
  | trap
  deriving DecidableEq, Repr

def SystemType.bits : SystemType → BitVec 4
  | .tss => 0x9
  | .call => 0xC
  | .interrupt => 0xE
  | .trap => 0xF

/-- `X86SEG_TSS` and the `X86GATE` constants. -/
def SystemType.word (t : SystemType) : BitVec 64 := t.bits.setWidth 64 <<< 40

/-- `dpl` is an `int`, extended with its sign. -/
def setSysSegment (type : BitVec 64) (dpl : BitVec 32) (addr size : BitVec 64) :
    BitVec 64 × BitVec 64 :=
  (((addr &&& 0x0000000000FFFFFF#64) <<< 16)
    ||| ((addr &&& 0x00000000FF000000#64) <<< 32)
    ||| ((size - 1#64) &&& 0x0FFFF#64)
    ||| (((size - 1#64) &&& 0xF0000#64) <<< 48)
    ||| type
    ||| (dpl.signExtend 64 <<< 45)
    ||| x86segP,
  addr >>> 32)

def setGate (type : BitVec 64) (dpl : BitVec 32) (function : BitVec 64) : BitVec 64 × BitVec 64 :=
  ((function &&& 0x000000000000FFFF#64)
    ||| (segselKernCode <<< 16)
    ||| type
    ||| (dpl.signExtend 64 <<< 45)
    ||| x86segP
    ||| ((function &&& 0x00000000FFFF0000#64) <<< 32),
  function >>> 32)

/-! The layouts of the processor. -/

structure SysSegment where
  limit : BitVec 20
  base : BitVec 64
  type : BitVec 4
  dpl : BitVec 2
  present : Bool
  deriving DecidableEq

def decodeSysSegment (w : BitVec 64 × BitVec 64) : SysSegment where
  limit := w.1.extractLsb' 48 4 ++ w.1.extractLsb' 0 16
  base := w.2.extractLsb' 0 32 ++ w.1.extractLsb' 56 8 ++ w.1.extractLsb' 16 24
  type := w.1.extractLsb' 40 4
  dpl := w.1.extractLsb' 45 2
  present := w.1.getLsbD 47

structure Gate where
  offset : BitVec 64
  selector : BitVec 16
  type : BitVec 4
  dpl : BitVec 2
  present : Bool
  deriving DecidableEq

def decodeGate (w : BitVec 64 × BitVec 64) : Gate where
  offset := w.2.extractLsb' 0 32 ++ w.1.extractLsb' 48 16 ++ w.1.extractLsb' 0 16
  selector := w.1.extractLsb' 16 16
  type := w.1.extractLsb' 40 4
  dpl := w.1.extractLsb' 45 2
  present := w.1.getLsbD 47

/-! The masks and the small fields, bit by bit. -/

section bits
variable {i : ℕ}

theorem mask_low24 : ∀ i < 64, (0xFFFFFF#64).getLsbD i = decide (i < 24) := by decide

theorem mask_byte24 : ∀ i < 64, (0xFF000000#64).getLsbD i = decide (24 ≤ i ∧ i < 32) := by decide

theorem mask_low16 : ∀ i < 64, (0xFFFF#64).getLsbD i = decide (i < 16) := by decide

theorem mask_high16 : ∀ i < 64, (0xFFFF0000#64).getLsbD i = decide (16 ≤ i ∧ i < 32) := by decide

theorem kern_code_bit : ∀ i < 64, (0x8#64).getLsbD i = decide (i = 3) := by decide

theorem one_bit : ∀ i < 64, (1#64).getLsbD i = decide (i = 0) := by decide

theorem type_high (t : SystemType) (hi : 4 ≤ i) : t.bits.getLsbD i = false :=
  BitVec.getLsbD_of_ge _ _ hi

theorem dpl_low (dpl : BitVec 32) (hi : i < 2) :
    (dpl.signExtend 64).getLsbD i = dpl.getLsbD i := by
  rw [BitVec.getLsbD_signExtend, if_pos (by omega), decide_eq_true (by omega), Bool.true_and]

theorem dpl_high {dpl : BitVec 32} (h : dpl < 4) (hi : 2 ≤ i) :
    (dpl.signExtend 64).getLsbD i = false := by
  have hlt : dpl.toNat < 2 ^ 2 := h
  have hmsb : dpl.msb = false := by
    rw [BitVec.msb_eq_false_iff_two_mul_lt]
    omega
  have hpow : 2 ^ 2 ≤ 2 ^ i := Nat.pow_le_pow_right (by decide) hi
  rw [BitVec.signExtend_eq_setWidth_of_msb_false hmsb, BitVec.getLsbD_setWidth,
    ← BitVec.testBit_toNat, Nat.testBit_lt_two_pow (by omega), Bool.and_false]

/-- The first word of a system segment, whose bits 48 to 51 stay clear. -/
theorem setSysSegment_bit (t : SystemType) {dpl : BitVec 32} (hd : dpl < 4)
    (addr size : BitVec 64) (hi : i < 64) :
    (setSysSegment t.word dpl addr size).1.getLsbD i =
      if i < 16 then (size - 1#64).getLsbD i
      else if i < 40 then addr.getLsbD (i - 16)
      else if i < 44 then t.bits.getLsbD (i - 40)
      else if i < 45 then false
      else if i < 47 then dpl.getLsbD (i - 45)
      else if i < 48 then true
      else if i < 56 then false
      else addr.getLsbD (i - 32) := by
  have htype (h : 44 ≤ i) : t.bits.getLsbD (i - 40) = false := type_high t (by omega)
  have hhigh (h : 47 ≤ i) : (dpl.signExtend 64).getLsbD (i - 45) = false := dpl_high hd (by omega)
  have hlow (h : i < 47) : (dpl.signExtend 64).getLsbD (i - 45) = dpl.getLsbD (i - 45) :=
    dpl_low dpl (by omega)
  have hlimit (h : 48 ≤ i) : (0xF0000#64).getLsbD (i - 48) = false :=
    (by decide : ∀ j < 16, (0xF0000#64).getLsbD j = false) _ (by omega)
  unfold setSysSegment SystemType.word
  simp only [BitVec.getLsbD_or, BitVec.getLsbD_and, BitVec.getLsbD_shiftLeft,
    BitVec.getLsbD_setWidth, hi, decide_true, Bool.true_and]
  simp (disch := omega) only [mask_low24, mask_byte24, mask_low16, one_bit]
  grind

theorem setGate_bit (t : SystemType) {dpl : BitVec 32} (hd : dpl < 4) (function : BitVec 64)
    (hi : i < 64) :
    (setGate t.word dpl function).1.getLsbD i =
      if i < 16 then function.getLsbD i
      else if i < 40 then decide (i = 19)
      else if i < 44 then t.bits.getLsbD (i - 40)
      else if i < 45 then false
      else if i < 47 then dpl.getLsbD (i - 45)
      else if i < 48 then true
      else function.getLsbD (i - 32) := by
  have htype (h : 44 ≤ i) : t.bits.getLsbD (i - 40) = false := type_high t (by omega)
  have hhigh (h : 47 ≤ i) : (dpl.signExtend 64).getLsbD (i - 45) = false := dpl_high hd (by omega)
  have hlow (h : i < 47) : (dpl.signExtend 64).getLsbD (i - 45) = dpl.getLsbD (i - 45) :=
    dpl_low dpl (by omega)
  unfold setGate SystemType.word
  simp only [BitVec.getLsbD_or, BitVec.getLsbD_and, BitVec.getLsbD_shiftLeft,
    BitVec.getLsbD_setWidth, hi, decide_true, Bool.true_and]
  simp (disch := omega) only [mask_low16, mask_high16, kern_code_bit, one_bit]
  grind

end bits

section decode
variable (t : SystemType) {dpl : BitVec 32} (hd : dpl < 4) (addr size function : BitVec 64)

include hd

/-- Everything but the four upper bits of the limit comes back. -/
theorem decodeSysSegment_set :
    decodeSysSegment (setSysSegment t.word dpl addr size) =
      ⟨0#4 ++ (size - 1#64).extractLsb' 0 16, addr, t.bits, dpl.setWidth 2, true⟩ := by
  have hbit {i : ℕ} (hi : i < 64) := setSysSegment_bit t hd addr size hi
  have hhigh : (setSysSegment t.word dpl addr size).2 = addr >>> 32 := rfl
  unfold decodeSysSegment
  rw [SysSegment.mk.injEq]
  refine ⟨?_, ?_, ?_, ?_, ?_⟩
  · apply BitVec.eq_of_getLsbD_eq
    intro i hi
    simp only [BitVec.getLsbD_append, BitVec.getLsbD_extractLsb']
    simp (disch := omega) only [hbit]
    grind
  · apply BitVec.eq_of_getLsbD_eq
    intro i hi
    simp only [BitVec.getLsbD_append, BitVec.getLsbD_extractLsb', hhigh, BitVec.getLsbD_ushiftRight]
    simp (disch := omega) only [hbit]
    grind
  · apply BitVec.eq_of_getLsbD_eq
    intro i hi
    simp only [BitVec.getLsbD_extractLsb']
    simp (disch := omega) only [hbit]
    grind
  · apply BitVec.eq_of_getLsbD_eq
    intro i hi
    simp only [BitVec.getLsbD_extractLsb', BitVec.getLsbD_setWidth]
    simp (disch := omega) only [hbit]
    grind
  · exact hbit (by decide)

theorem decodeGate_set :
    decodeGate (setGate t.word dpl function) =
      ⟨function, segselKernCode.setWidth 16, t.bits, dpl.setWidth 2, true⟩ := by
  have hbit {i : ℕ} (hi : i < 64) := setGate_bit t hd function hi
  have hhigh : (setGate t.word dpl function).2 = function >>> 32 := rfl
  have hcode (i : ℕ) (hi : i < 16) : (segselKernCode.setWidth 16).getLsbD i = decide (i = 3) := by
    rw [BitVec.getLsbD_setWidth, segselKernCode, kern_code_bit i (by omega), decide_eq_true hi,
      Bool.true_and]
  unfold decodeGate
  rw [Gate.mk.injEq]
  refine ⟨?_, ?_, ?_, ?_, ?_⟩
  · apply BitVec.eq_of_getLsbD_eq
    intro i hi
    simp only [BitVec.getLsbD_append, BitVec.getLsbD_extractLsb', hhigh, BitVec.getLsbD_ushiftRight]
    simp (disch := omega) only [hbit]
    grind
  · apply BitVec.eq_of_getLsbD_eq
    intro i hi
    simp only [BitVec.getLsbD_extractLsb', hcode i hi]
    simp (disch := omega) only [hbit]
    grind
  · apply BitVec.eq_of_getLsbD_eq
    intro i hi
    simp only [BitVec.getLsbD_extractLsb']
    simp (disch := omega) only [hbit]
    grind
  · apply BitVec.eq_of_getLsbD_eq
    intro i hi
    simp only [BitVec.getLsbD_extractLsb', BitVec.getLsbD_setWidth]
    simp (disch := omega) only [hbit]
    grind
  · exact hbit (by decide)

end decode

/-- Both descriptors give back what went into them. -/
def DescriptorsLossless (t : SystemType) (dpl : BitVec 32) (addr size function : BitVec 64) :
    Prop :=
  decodeSysSegment (setSysSegment t.word dpl addr size) =
    ⟨(size - 1#64).setWidth 20, addr, t.bits, dpl.setWidth 2, true⟩ ∧
  decodeGate (setGate t.word dpl function) =
    ⟨function, segselKernCode.setWidth 16, t.bits, dpl.setWidth 2, true⟩

instance (t : SystemType) (dpl : BitVec 32) (addr size function : BitVec 64) :
    Decidable (DescriptorsLossless t dpl addr size function) := inferInstanceAs (Decidable (_ ∧ _))

/-- A limit survives if it fits in its lower 16 bits. -/
theorem limit_low {x : BitVec 64} (hx : x.toNat < 2 ^ 20) :
    0#4 ++ x.extractLsb' 0 16 = x.setWidth 20 ↔ x.toNat < 2 ^ 16 := by
  rw [← BitVec.toNat_inj, BitVec.toNat_setWidth, Nat.mod_eq_of_lt hx]
  simp only [BitVec.toNat_append, BitVec.extractLsb'_toNat, Nat.shiftRight_zero]
  change 0 <<< 16 ||| x.toNat % 2 ^ 16 = x.toNat ↔ _
  rw [Nat.zero_shiftLeft, Nat.zero_or]
  omega

/-- The upper part of the limit is shifted by 48 places where its place in the word is 32 above the
one it comes from. -/
theorem descriptorsLossless_iff (t : SystemType) {dpl : BitVec 32} (hd : dpl < 4)
    (addr function : BitVec 64) {size : BitVec 64} (hpos : 1 ≤ size.toNat)
    (hle : size.toNat ≤ 2 ^ 20) :
    DescriptorsLossless t dpl addr size function ↔ size.toNat ≤ 2 ^ 16 := by
  have hsub : (size - 1#64).toNat = size.toNat - 1 := by
    rw [BitVec.toNat_sub_of_le (by rw [BitVec.le_def]; exact hpos)]
    rfl
  unfold DescriptorsLossless
  rw [decodeSysSegment_set t hd, decodeGate_set t hd, and_iff_left rfl, SysSegment.mk.injEq,
    limit_low (by omega), hsub]
  constructor
  · rintro ⟨hlimit, -⟩
    omega
  · exact fun hsize => ⟨by omega, rfl, rfl, rfl, rfl⟩

/-- The task state segment of the kernel. -/
theorem descriptorsLossless_tss : DescriptorsLossless .tss 0 0x52000 96 0x40000 :=
  (descriptorsLossless_iff .tss (by decide) 0x52000 0x40000 (by decide) (by decide)).mpr (by decide)

/-- A segment of 64 KiB and one byte decodes to a limit of zero. -/
theorem not_descriptorsLossless : ¬ DescriptorsLossless .tss 0 0x52000 0x10001 0x40000 := by
  decide

end WeensyOS
