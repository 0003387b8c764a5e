import WeensyOS.DiskImage
import Mathlib.Tactic.IntervalCases

/-!
# The boot loader

`boot` reads the kernel's ELF header and program headers into a scratch page, loads every segment
sector by sector, and jumps to the kernel. Sectors are asked for with 28-bit numbers, and stores
reach the first gigabyte, which is what `bootstart.S` maps. A store to the loader's own stack, code
or page tables counts as a failure here: how it goes on then depends on the compiled code.
-/

namespace WeensyOS.BootLoader
open ByteMemory

/-- The two drives, and the lowest address of the loader's stack, which its compiler decides. The
stack ends at `0x7C00`, then come the boot sector and, from `0x8000` on, three page tables. -/
structure Platform where
  drives : Bool → Disk
  stack : ℕ
  stack_le : stack ≤ 0x7C00

/-- The addresses that the loader may write and keep running. -/
def Platform.Writable (pc : Platform) (a : ℕ) : Prop := (a < pc.stack ∨ 0xB000 ≤ a) ∧ a < 2 ^ 30

instance (pc : Platform) (a : ℕ) : Decidable (pc.Writable a) :=
  inferInstanceAs (Decidable (_ ∧ _))

/-- Stores of `n` bytes from `a` on. -/
def store (pc : Platform) : ℕ → Memory → ℕ → (ℕ → UInt8) → Option Memory
  | 0, m, _, _ => some m
  | n + 1, m, a, src =>
      if pc.Writable a then store pc n (Function.update m a (src 0)) (a + 1) fun i => src (i + 1)
      else none

/-- What `boot_readsect` writes to the ports `0x1F2` to `0x1F6`. -/
structure AtaRequest where
  count : ℕ
  lbaLow : ℕ
  lbaMid : ℕ
  lbaHigh : ℕ
  device : ℕ

def ataRequest (srcSect : ℕ) : AtaRequest where
  count := 1
  lbaLow := srcSect % 256
  lbaMid := srcSect / 2 ^ 8 % 256
  lbaHigh := srcSect / 2 ^ 16 % 256
  device := (srcSect / 2 ^ 24 ||| 0xE0) % 256

namespace AtaRequest
variable (r : AtaRequest)

/-- The 28-bit sector number. -/
def lba : ℕ := r.lbaLow + 2 ^ 8 * r.lbaMid + 2 ^ 16 * r.lbaHigh + 2 ^ 24 * (r.device % 16)

/-- Bit 4 of the device register chooses the second drive. -/
def slave : Bool := r.device.testBit 4

end AtaRequest

/-- `boot_readsect`, on a ready disk. -/
def bootReadsect (pc : Platform) (m : Memory) (dst srcSect : ℕ) : Option Memory :=
  let r := ataRequest srcSect
  store pc sectorsize m dst fun i => (pc.drives r.slave).byte (r.lba * sectorsize + i)

/-- The loop over sectors of `boot_readseg`; `none` also without enough fuel. -/
def readSectors (pc : Platform) : ℕ → Memory → ℕ → ℕ → ℕ → Option Memory
  | 0, _, _, _, _ => none
  | fuel + 1, m, ptr, endPtr, srcSect =>
      if ptr < endPtr then do
        let m ← bootReadsect pc m ptr srcSect
        readSectors pc fuel m ((ptr + sectorsize) % 2 ^ 64) endPtr ((srcSect + 1) % 2 ^ 32)
      else some m

def bootReadseg (pc : Platform) (fuel : ℕ) (m : Memory) (ptr srcSect filesz memsz : ℕ) :
    Option Memory := do
  let endPtr := (ptr + filesz) % 2 ^ 64
  let memsz := (memsz + ptr) % 2 ^ 64
  let m ← readSectors pc fuel m (ptr / sectorsize * sectorsize) endPtr srcSect
  store pc (memsz - endPtr) m endPtr fun _ => 0

/-- The fields of a program header that the loader reads. -/
structure ElfProgram where
  offset : ℕ
  va : ℕ
  filesz : ℕ
  memsz : ℕ

def elfProgram (m : Memory) (ph : ℕ) : ElfProgram where
  offset := loadLE m (ph + 0x08) 8
  va := loadLE m (ph + 0x10) 8
  filesz := loadLE m (ph + 0x20) 8
  memsz := loadLE m (ph + 0x28) 8

def elfhdr : ℕ := 0x10000
def elfMagic : ℕ := 0x464C457F
def sizeofElfProgram : ℕ := 56

def eMagic (m : Memory) (hdr : ℕ) : ℕ := loadLE m hdr 4
def eEntry (m : Memory) (hdr : ℕ) : ℕ := loadLE m (hdr + 0x18) 8
def ePhoff (m : Memory) (hdr : ℕ) : ℕ := loadLE m (hdr + 0x20) 8
def ePhnum (m : Memory) (hdr : ℕ) : ℕ := loadLE m (hdr + 0x38) 2

/-- The loop of `boot` over the program headers. -/
def bootSegments (pc : Platform) (fuel : ℕ) : ℕ → Memory → ℕ → ℕ → Option Memory
  | 0, _, _, _ => none
  | n + 1, m, ph, eph =>
      if ph < eph then do
        let p := elfProgram m ph
        let m ← bootReadseg pc fuel m p.va ((p.offset / sectorsize + 1) % 2 ^ 32) p.filesz
          p.memsz
        bootSegments pc fuel n m ((ph + sizeofElfProgram) % 2 ^ 64) eph
      else some m

/-- `boot`: the memory and the address that it jumps to. With a wrong magic number it hangs. -/
def boot (pc : Platform) (fuel : ℕ) (m : Memory) : Option (Memory × ℕ) := do
  let m ← bootReadseg pc fuel m elfhdr 1 4096 4096
  if eMagic m elfhdr = elfMagic then
    let ph := (elfhdr + ePhoff m elfhdr) % 2 ^ 64
    let eph := (ph + sizeofElfProgram * ePhnum m elfhdr) % 2 ^ 64
    let m ← bootSegments pc fuel fuel m ph eph
    return (m, eEntry m elfhdr)
  else none

/-! One segment. -/

theorem store_spec {pc : Platform} (n : ℕ) (m : Memory) (a : ℕ) (src : ℕ → UInt8)
    (h : ∀ x, a ≤ x → x < a + n → pc.Writable x) :
    ∃ m', store pc n m a src = some m' ∧
      ∀ x, m' x = if a ≤ x ∧ x < a + n then src (x - a) else m x := by
  induction n generalizing m a src with
  | zero => exact ⟨m, rfl, fun x => (if_neg (by omega)).symm⟩
  | succ n ih =>
      obtain ⟨m', hm', hx⟩ := ih (Function.update m a (src 0)) (a + 1) (fun i => src (i + 1))
        fun x h1 h2 => h x (by omega) (by omega)
      refine ⟨m', ?_, fun x => ?_⟩
      · rw [store, if_pos (h a le_rfl (by omega))]
        exact hm'
      · rw [hx]
        by_cases hin : a + 1 ≤ x ∧ x < a + 1 + n
        · rw [if_pos hin, if_pos (by omega), show x - (a + 1) + 1 = x - a by omega]
        · rw [if_neg hin]
          by_cases ha : x = a
          · rw [ha, Function.update_self, if_pos (by omega), Nat.sub_self]
          · rw [Function.update_of_ne ha, if_neg (by omega)]

/-- A sector number of at most 28 bits is the one that the first drive gets. -/
theorem ataRequest_lba {s : ℕ} (h : s < 2 ^ 28) :
    (ataRequest s).lba = s ∧ (ataRequest s).slave = false := by
  have hdevice (d : ℕ) (hd : d < 16) : (d ||| 0xE0) % 256 % 16 = d ∧
      ((d ||| 0xE0) % 256).testBit 4 = false := by
    interval_cases d <;> decide
  obtain ⟨h1, h2⟩ := hdevice (s / 2 ^ 24) (by omega)
  refine ⟨?_, h2⟩
  simp only [AtaRequest.lba, ataRequest, h1]
  omega

section segment
variable (pc : Platform)

-- `omega` recurses as deep as the sector size is large.
set_option maxRecDepth 2000

/-- `n` sectors from `s` on are read to `ptr`. -/
theorem readSectors_spec (n : ℕ) {fuel : ℕ} (hfuel : n < fuel) (m : Memory) {ptr endPtr s : ℕ}
    (hend : endPtr ≤ ptr + 512 * n) (hlast : ∀ k < n, ptr + 512 * k < endPtr)
    (hw : ∀ x, ptr ≤ x → x < ptr + 512 * n → pc.Writable x) (hs : s + n ≤ 2 ^ 28) :
    ∃ m', readSectors pc fuel m ptr endPtr s = some m' ∧
      ∀ x, m' x = if ptr ≤ x ∧ x < ptr + 512 * n then (pc.drives false).byte (s * 512 + (x - ptr))
        else m x := by
  induction n generalizing fuel m ptr s with
  | zero =>
      obtain ⟨fuel, rfl⟩ := Nat.exists_eq_succ_of_ne_zero (Nat.ne_zero_of_lt hfuel)
      refine ⟨m, ?_, fun x => (if_neg (by omega)).symm⟩
      rw [readSectors, if_neg (by omega)]
  | succ n ih =>
      obtain ⟨fuel, rfl⟩ := Nat.exists_eq_succ_of_ne_zero (Nat.ne_zero_of_lt hfuel)
      obtain ⟨hlba, hslave⟩ := ataRequest_lba (show s < 2 ^ 28 by omega)
      obtain ⟨m₁, hm₁, hx₁⟩ := store_spec 512 m ptr (fun i => (pc.drives false).byte (s * 512 + i))
        fun x h1 h2 => hw x h1 (by omega)
      have htop : ptr + 512 ≤ 2 ^ 30 := by
        have := (hw (ptr + 511) (by omega) (by omega)).2
        omega
      obtain ⟨m', hm', hx⟩ := ih (show n < fuel by omega) m₁
        (show endPtr ≤ ptr + 512 + 512 * n by omega) (s := s + 1)
        (fun k hk => by have := hlast (k + 1) (by omega); omega)
        (fun x h1 h2 => hw x (by omega) (by omega)) (by omega)
      refine ⟨m', ?_, fun x => ?_⟩
      · have hread : bootReadsect pc m ptr s = some m₁ := by
          rw [bootReadsect, hlba, hslave]
          exact hm₁
        have hptr : (ptr + sectorsize) % 2 ^ 64 = ptr + 512 := by
          rw [sectorsize]
          omega
        have hsect : (s + 1) % 2 ^ 32 = s + 1 := by omega
        rw [readSectors, if_pos (by have := hlast 0 (by omega); omega), hread, hptr, hsect]
        exact hm'
      · rw [hx, hx₁]
        by_cases hin : ptr + 512 ≤ x ∧ x < ptr + 512 + 512 * n
        · rw [if_pos hin, if_pos (by omega),
            show (s + 1) * 512 + (x - (ptr + 512)) = s * 512 + (x - ptr) by omega]
        · rw [if_neg hin]
          by_cases hfirst : ptr ≤ x ∧ x < ptr + 512
          · rw [if_pos hfirst, if_pos (by omega)]
          · rw [if_neg hfirst, if_neg (by omega)]

/-- The addresses that loading a segment may write: its own, rounded to sectors. -/
def segmentRange (va memsz : ℕ) : Set ℕ :=
  Set.Ico (va / 512 * 512) ((va + memsz + 511) / 512 * 512)

theorem bootReadseg_spec {fuel : ℕ} (m : Memory) {va s filesz memsz : ℕ} (hle : filesz ≤ memsz)
    (hfuel : (va + filesz + 511) / 512 - va / 512 < fuel) (htop : va + memsz < 2 ^ 64)
    (hw : ∀ x ∈ segmentRange va memsz, pc.Writable x)
    (hs : s + ((va + filesz + 511) / 512 - va / 512) ≤ 2 ^ 28) :
    ∃ m', bootReadseg pc fuel m va s filesz memsz = some m' ∧
      (∀ x, va ≤ x → x < va + filesz →
        m' x = (pc.drives false).byte (s * 512 + (x - va / 512 * 512))) ∧
      (∀ x, va + filesz ≤ x → x < va + memsz → m' x = 0) ∧
      ∀ x ∉ segmentRange va memsz, m' x = m x := by
  have hend : va + filesz ≤
      va / 512 * 512 + 512 * ((va + filesz + 511) / 512 - va / 512) := by omega
  obtain ⟨m₁, hm₁, hx₁⟩ := readSectors_spec pc
    ((va + filesz + 511) / 512 - va / 512) hfuel m hend (fun k hk => by omega)
    (fun x h1 h2 => hw x ⟨h1, by omega⟩) hs
  obtain ⟨m', hm', hx⟩ := store_spec (memsz - filesz) m₁ (va + filesz) (fun _ => 0)
    fun x h1 h2 => hw x ⟨by omega, by omega⟩
  refine ⟨m', ?_, fun x h1 h2 => ?_, fun x h1 h2 => ?_, fun x hout => ?_⟩
  · rw [bootReadseg, Nat.mod_eq_of_lt (show va + filesz < 2 ^ 64 by omega), Nat.add_comm memsz va,
      Nat.mod_eq_of_lt htop, show va / sectorsize * sectorsize = va / 512 * 512 from rfl, hm₁,
      show va + memsz - (va + filesz) = memsz - filesz by omega]
    exact hm'
  · rw [hx, if_neg (by omega), hx₁, if_pos (by omega)]
  · rw [hx, if_pos (by omega)]
  · have hnot : ¬ (va / 512 * 512 ≤ x ∧ x < (va + memsz + 511) / 512 * 512) := hout
    rw [hx, if_neg (by omega), hx₁, if_neg (by omega)]

end segment

end WeensyOS.BootLoader
