import WeensyOS.ByteMemory
import Mathlib.Data.Nat.Bitwise
import Mathlib.Tactic.NormNum

/-!
# Paged-memory constants and page-table entries

The constants and macros of `x86-64.h` and `kernel.h`. Addresses, sizes and page-table entries are
natural numbers below `2 ^ 64`; arithmetic that the C code can overflow reduces modulo `2 ^ 64`
where it happens. `toInt8` and `toInt32` are the conversions to the signed types `int8_t` and `int`.
-/

namespace WeensyOS
open ByteMemory

@[simp] abbrev pageSize : ℕ := 4096
@[simp] abbrev nPagetableEntries : ℕ := 512
@[simp] abbrev nProc : ℕ := 16
@[simp] abbrev kernelStartAddr : ℕ := 0x40000
@[simp] abbrev kernelStackTop : ℕ := 0x80000
@[simp] abbrev consoleAddr : ℕ := 0xB8000
@[simp] abbrev procStartAddr : ℕ := 0x100000
@[simp] abbrev memsizePhysical : ℕ := 0x200000
@[simp] abbrev memsizeVirtual : ℕ := 0x300000
-- `MEMSIZE_PHYSICAL / PAGESIZE`
@[simp] abbrev nPages : ℕ := 512

def toInt8 (x : ℤ) : ℤ := (x + 2 ^ 7) % 2 ^ 8 - 2 ^ 7

def toInt32 (x : ℤ) : ℤ := (x + 2 ^ 31) % 2 ^ 32 - 2 ^ 31

def lnot64 (x : ℕ) : ℕ := 2 ^ 64 - 1 - x % 2 ^ 64

def pageNumber (ptr : ℕ) : ℤ := toInt32 (ptr >>> 12)

def pageAddress (pn : ℕ) : ℕ := pn <<< 12

def pageindex (addr level : ℕ) : ℕ := (addr >>> (12 + (3 - level) * 9)) &&& 0x1FF

def pageOffset (addr : ℕ) : ℕ := addr &&& 0xFFF

def pteAddr (pe : ℕ) : ℕ := pe &&& lnot64 0xFFF

def pteFlags (pe : ℕ) : ℕ := pe &&& 0xFFF

@[simp] abbrev pteP : ℕ := 1
@[simp] abbrev pteW : ℕ := 2
@[simp] abbrev pteU : ℕ := 4

@[simp] abbrev pferrPresent : ℕ := 1
@[simp] abbrev pferrWrite : ℕ := 2
@[simp] abbrev pferrUser : ℕ := 4

/-- `pt->entry[index]` for the page table at physical address `pt`. -/
def entry (m : Memory) (pt index : ℕ) : ℕ := loadLE m (pt + 8 * index) 8

def setEntry (m : Memory) (pt index pe : ℕ) : Memory := storeLE m (pt + 8 * index) pe 8

theorem entry_lt (m : Memory) (pt index : ℕ) : entry m pt index < 2 ^ 64 :=
  loadLE_lt m _ 8

theorem toInt8_eq_self {x : ℤ} (hlo : -128 ≤ x) (hhi : x ≤ 127) : toInt8 x = x := by
  unfold toInt8
  omega

theorem pageNumber_eq {a : ℕ} (h : a < 2 ^ 43) : pageNumber a = (a / 4096 : ℕ) := by
  rw [pageNumber, Nat.shiftRight_eq_div_pow, toInt32]
  omega

theorem pageAddress_eq (pn : ℕ) : pageAddress pn = pn * 4096 := Nat.shiftLeft_eq pn 12

theorem pageOffset_eq (a : ℕ) : pageOffset a = a % 4096 := Nat.and_two_pow_sub_one_eq_mod a 12

theorem pteFlags_eq (pe : ℕ) : pteFlags pe = pe % 4096 := Nat.and_two_pow_sub_one_eq_mod pe 12

theorem pageindex_eq (a level : ℕ) :
    pageindex a level = a / 2 ^ (12 + (3 - level) * 9) % 512 := by
  rw [pageindex, Nat.shiftRight_eq_div_pow]
  exact Nat.and_two_pow_sub_one_eq_mod _ 9

theorem pageindex_lt (a level : ℕ) : pageindex a level < 512 := by
  rw [pageindex_eq]
  omega

/-- Bitwise conjunction splits into the frame number and the twelve flag bits. -/
theorem and_page_split (x y : ℕ) :
    x &&& y = (x / 4096 &&& y / 4096) * 4096 + (x % 4096 &&& y % 4096) := by
  have hdiv : (x &&& y) / 4096 = x / 4096 &&& y / 4096 := Nat.and_div_two_pow (n := 12)
  have hmod : (x &&& y) % 4096 = x % 4096 &&& y % 4096 := Nat.and_mod_two_pow (n := 12)
  rw [← hdiv, ← hmod]
  omega

/-- Masking with the complement of a set of flag bits leaves the frame number alone. -/
theorem and_lnot64_flags {x f : ℕ} (hx : x < 2 ^ 64) (hf : f < 4096) :
    x &&& lnot64 f = x / 4096 * 4096 + (x % 4096 &&& (4095 - f)) := by
  have hdiv : lnot64 f / 4096 = 2 ^ 52 - 1 := by unfold lnot64; omega
  have hmod : lnot64 f % 4096 = 4095 - f := by unfold lnot64; omega
  rw [and_page_split, hdiv, hmod, Nat.and_two_pow_sub_one_eq_mod, Nat.mod_eq_of_lt (by omega)]

theorem pteAddr_eq {pe : ℕ} (h : pe < 2 ^ 64) : pteAddr pe = pe / 4096 * 4096 := by
  rw [pteAddr, and_lnot64_flags h (by norm_num)]
  simp

theorem and_lnot64_zero {x : ℕ} (hx : x < 2 ^ 64) : x &&& lnot64 0 = x := by
  rw [and_lnot64_flags hx (by norm_num)]
  have hfull : x % 4096 &&& 4095 = x % 4096 % 4096 :=
    Nat.and_two_pow_sub_one_eq_mod (x % 4096) 12
  rw [show 4095 - 0 = 4095 from rfl, hfull]
  omega

theorem and_flag_split {x f : ℕ} (hf : f < 4096) : x &&& f = x % 4096 &&& f := by
  rw [and_page_split x f, Nat.div_eq_of_lt hf, Nat.mod_eq_of_lt hf]
  simp

theorem frame_div {t f : ℕ} (hf : f < 4096) : (t * 4096 + f) / 4096 = t := by omega

theorem frame_mod {t f : ℕ} (hf : f < 4096) : (t * 4096 + f) % 4096 = f := by omega

theorem pteAddr_frame {t f : ℕ} (ht : t < 2 ^ 52) (hf : f < 4096) :
    pteAddr (t * 4096 + f) = t * 4096 := by
  rw [pteAddr_eq (by omega), frame_div hf]

theorem frame_and_flag {t f g : ℕ} (hf : f < 4096) (hg : g < 4096) :
    (t * 4096 + f) &&& g = f &&& g := by
  rw [and_flag_split hg, frame_mod hf]

theorem frame_and_lnot64 {t f g : ℕ} (ht : t < 2 ^ 52) (hf : f < 4096) (hg : g < 4096) :
    (t * 4096 + f) &&& lnot64 g = t * 4096 + (f &&& (4095 - g)) := by
  rw [and_lnot64_flags (by omega) hg, frame_div hf, frame_mod hf]

/-- A page-aligned address or-ed with flag bits is their sum. -/
theorem frame_or_flag {t f : ℕ} (hf : f < 4096) : (t * 4096) ||| f = t * 4096 + f := by
  have h := Nat.two_pow_add_eq_or_of_lt (i := 12) (b := f) (by simpa using hf) t
  rw [mul_comm t 4096]
  exact h.symm

end WeensyOS
