import WeensyOS.BootLoader
import Mathlib.Order.CompletePartialOrder

/-!
# A kernel file on its way to memory

`mkbootdisk` puts the file at sector 1 and pads it with zeros, `boot` reads its segments back by
whole sectors. While segments are loaded, the scratch page keeps the first 4096 bytes of the file,
and what is loaded already stays.
-/

namespace WeensyOS.BootLoader
open ByteMemory Mkbootdisk

/-- The bytes of a file and the zeros behind it. -/
def fileBytes (f : List UInt8) : Memory := fun i => f.getD i 0

section file
variable (f : List UInt8)

def entry : ℕ := eEntry (fileBytes f) 0
def phoff : ℕ := ePhoff (fileBytes f) 0
def phnum : ℕ := ePhnum (fileBytes f) 0

def program (k : ℕ) : ElfProgram := elfProgram (fileBytes f) (phoff f + sizeofElfProgram * k)

def ElfProgram.range (p : ElfProgram) : Set ℕ := segmentRange p.va p.memsz

/-- A kernel as the linker makes it. -/
structure KernelFile : Prop where
  magic : eMagic (fileBytes f) 0 = elfMagic
  headers : phoff f + sizeofElfProgram * phnum f ≤ 4096
  congruent : ∀ k < phnum f, (program f k).va % 512 = (program f k).offset % 512
  inFile : ∀ k < phnum f, (program f k).offset + (program f k).filesz ≤ f.length
  filesz_le : ∀ k < phnum f, (program f k).filesz ≤ (program f k).memsz
  disjoint : ∀ j < phnum f, ∀ k < phnum f, j ≠ k → Disjoint (program f j).range (program f k).range
  scratch : ∀ k < phnum f, Disjoint (program f k).range (Set.Ico 0x10000 0x11000)

/-- The loader can reach its sectors and the memory that it wants. -/
structure Loadable (pc : Platform) : Prop extends KernelFile f where
  writable : ∀ k < phnum f, ∀ a ∈ (program f k).range, pc.Writable a
  sectors : f.length ≤ (2 ^ 28 - 1) * 512

/-- Memory holds a segment and its zeros. -/
structure SegmentLoaded (p : ElfProgram) (m : Memory) : Prop where
  file : ∀ i < p.filesz, m (p.va + i) = fileBytes f (p.offset + i)
  bss : ∀ i, p.filesz ≤ i → i < p.memsz → m (p.va + i) = 0

/-- The loader jumps to the kernel and has loaded all of it. -/
def Boots (pc : Platform) (m : Memory) : Prop :=
  ∃ N, ∀ fuel ≥ N, ∃ m', boot pc fuel m = some (m', entry f) ∧
    ∀ k < phnum f, SegmentLoaded f (program f k) m'

/-- The first `j` segments are loaded. -/
structure LoadState (j : ℕ) (m : Memory) : Prop where
  header : ∀ i < 4096, m (elfhdr + i) = fileBytes f i
  loaded : ∀ k < j, SegmentLoaded f (program f k) m

end file

set_option maxRecDepth 2000 in
theorem mem_range {p : ElfProgram} {i : ℕ} (h : i < p.memsz) : p.va + i ∈ p.range := by
  constructor <;> omega

variable {f : List UInt8} {pc : Platform} {fuel : ℕ}

theorem SegmentLoaded.of_agree {p : ElfProgram} {m m' : Memory} (h : SegmentLoaded f p m)
    (hle : p.filesz ≤ p.memsz) (hm : ∀ x ∈ p.range, m' x = m x) : SegmentLoaded f p m' where
  file i hi := by
    rw [hm _ (mem_range (by omega))]
    exact h.file i hi
  bss i hlo hhi := by
    rw [hm _ (mem_range hhi)]
    exact h.bss i hlo hhi

/-! The header in the scratch page. -/

section header
variable {j : ℕ} {m : Memory} (hm : LoadState f j m)

include hm

theorem LoadState.load {a n : ℕ} (h : a + n ≤ 4096) :
    loadLE m (elfhdr + a) n = loadLE (fileBytes f) a n := by
  apply loadLE_shift
  intro i hi
  rw [Nat.add_assoc]
  exact hm.header (a + i) (by omega)

theorem LoadState.program_eq {k : ℕ} (h : phoff f + sizeofElfProgram * k + 56 ≤ 4096) :
    elfProgram m (elfhdr + (phoff f + sizeofElfProgram * k)) = program f k := by
  simp only [elfProgram, program, Nat.add_assoc elfhdr]
  rw [hm.load (by omega), hm.load (by omega), hm.load (by omega), hm.load (by omega)]

end header

/-- `boot` up to its loop over the program headers. -/
theorem boot_header (hf : KernelFile f)
    (hdisk : ∀ i, (pc.drives false).byte (512 + i) = fileBytes f i) (hfuel : 2 ^ 28 ≤ fuel)
    (m : Memory) :
    ∃ m₁, LoadState f 0 m₁ ∧ boot pc fuel m =
      (bootSegments pc fuel fuel m₁ (elfhdr + (phoff f + sizeofElfProgram * 0))
        (elfhdr + (phoff f + sizeofElfProgram * phnum f))).map
          fun m' => (m', eEntry m' elfhdr) := by
  have hheaders := hf.headers
  have hsectors : (elfhdr + 4096 + 511) / 512 - elfhdr / 512 < fuel :=
    lt_of_lt_of_le (by decide) hfuel
  have hscratch : ∀ x ∈ segmentRange elfhdr 4096, pc.Writable x := by
    intro x hx
    have hhi : x < 0x11000 := hx.2
    exact ⟨.inr (le_trans (by decide) hx.1), hhi.trans (by decide)⟩
  obtain ⟨m₁, hread, hbytes, -, -⟩ := bootReadseg_spec pc m (s := 1)
    (le_refl 4096) hsectors (by decide) hscratch (by decide)
  have hm₁ : LoadState f 0 m₁ := by
    refine ⟨fun i hi => ?_, fun k hk => absurd hk (Nat.not_lt_zero k)⟩
    have hround : elfhdr / 512 * 512 = elfhdr := rfl
    have hbyte : 1 * 512 + (elfhdr + i - elfhdr / 512 * 512) = 512 + i := by
      rw [hround, Nat.add_sub_cancel_left, Nat.one_mul]
    rw [hbytes _ (by omega) (by omega), hbyte, hdisk]
  have hmagic : eMagic m₁ elfhdr = elfMagic :=
    (hm₁.load (show 0 + 4 ≤ 4096 by decide)).trans hf.magic
  have hphoff : ePhoff m₁ elfhdr = phoff f := hm₁.load (show 0x20 + 8 ≤ 4096 by decide)
  have hphnum : ePhnum m₁ elfhdr = phnum f := hm₁.load (show 0x38 + 2 ≤ 4096 by decide)
  have hph : (elfhdr + phoff f) % 2 ^ 64 = elfhdr + (phoff f + sizeofElfProgram * 0) := by
    rw [elfhdr]
    omega
  have heph : (elfhdr + (phoff f + sizeofElfProgram * 0) + sizeofElfProgram * phnum f) % 2 ^ 64 =
      elfhdr + (phoff f + sizeofElfProgram * phnum f) := by
    rw [elfhdr]
    omega
  refine ⟨m₁, hm₁, ?_⟩
  rw [boot, hread]
  change (if eMagic m₁ elfhdr = elfMagic then _ else none) = _
  rw [if_pos hmagic, hphoff, hphnum, hph, heph]
  cases bootSegments pc fuel fuel m₁ (elfhdr + (phoff f + sizeofElfProgram * 0))
    (elfhdr + (phoff f + sizeofElfProgram * phnum f)) <;> rfl

/-! Loading. -/

section load
variable (hf : Loadable f pc) (hdisk : ∀ i, (pc.drives false).byte (512 + i) = fileBytes f i)

include hf hdisk

set_option maxRecDepth 2000 in
theorem bootReadseg_program (hfuel : 2 ^ 28 ≤ fuel) {k : ℕ} (hk : k < phnum f) (m : Memory) :
    ∃ m', bootReadseg pc fuel m (program f k).va
        (((program f k).offset / sectorsize + 1) % 2 ^ 32) (program f k).filesz
        (program f k).memsz = some m' ∧
      SegmentLoaded f (program f k) m' ∧ ∀ x ∉ (program f k).range, m' x = m x := by
  have hcongruent := hf.congruent k hk
  have hfile := hf.inFile k hk
  have hle := hf.filesz_le k hk
  have hsectors := hf.sectors
  have hva : (program f k).va < 256 ^ 8 := loadLE_lt _ _ _
  have hwritable := hf.writable k hk
  generalize program f k = p at *
  have htop : p.va + p.memsz < 2 ^ 64 := by
    by_cases hzero : p.memsz = 0
    · omega
    · have hlast := (hwritable _ (mem_range (show p.memsz - 1 < p.memsz by omega))).2
      omega
  have hsect : (p.offset / sectorsize + 1) % 2 ^ 32 = p.offset / 512 + 1 := by
    rw [sectorsize]
    omega
  obtain ⟨m', hm', hbytes, hzeros, hframe⟩ := bootReadseg_spec pc m
    hle (s := p.offset / 512 + 1) (show _ < fuel by omega) htop hwritable (by omega)
  rw [← hsect] at hm'
  refine ⟨m', hm', ⟨fun i hi => ?_, fun i hlo hhi => ?_⟩, hframe⟩
  · rw [hbytes _ (by omega) (by omega), ← hdisk]
    congr 1
    omega
  · exact hzeros _ (by omega) (by omega)

/-- Loading a segment keeps the header and the segments before. -/
theorem LoadState.step (hfuel : 2 ^ 28 ≤ fuel) {j : ℕ} (hj : j < phnum f) {m : Memory}
    (hm : LoadState f j m) :
    ∃ m', bootReadseg pc fuel m (program f j).va
        (((program f j).offset / sectorsize + 1) % 2 ^ 32) (program f j).filesz
        (program f j).memsz = some m' ∧ LoadState f (j + 1) m' := by
  obtain ⟨m', hm', hloaded, hframe⟩ := bootReadseg_program hf hdisk hfuel hj m
  refine ⟨m', hm', fun i hi => ?_, fun k hk => ?_⟩
  · have hout : elfhdr + i ∉ (program f j).range := by
      intro hin
      apply Set.disjoint_left.mp (hf.scratch j hj) hin
      rw [elfhdr]
      constructor <;> omega
    rw [hframe _ hout]
    exact hm.header i hi
  · by_cases hkj : k = j
    · exact hkj ▸ hloaded
    · have hlt : k < j := by omega
      apply (hm.loaded k hlt).of_agree (hf.filesz_le k (by omega))
      intro x hx
      apply hframe
      exact Set.disjoint_left.mp (hf.disjoint k (by omega) j hj hkj) hx

theorem bootSegments_spec (hfuel : 2 ^ 28 ≤ fuel) (n : ℕ) {loops j : ℕ} (hloops : n < loops)
    (hj : j + n = phnum f) {m : Memory} (hm : LoadState f j m) :
    ∃ m', bootSegments pc fuel loops m (elfhdr + (phoff f + sizeofElfProgram * j))
      (elfhdr + (phoff f + sizeofElfProgram * phnum f)) = some m' ∧ LoadState f (phnum f) m' := by
  have hheaders := hf.headers
  induction n generalizing loops j m with
  | zero =>
      obtain ⟨loops, rfl⟩ := Nat.exists_eq_succ_of_ne_zero (Nat.ne_zero_of_lt hloops)
      rw [Nat.add_zero] at hj
      refine ⟨m, ?_, hj ▸ hm⟩
      rw [bootSegments, hj, if_neg (lt_irrefl _)]
  | succ n ih =>
      obtain ⟨loops, rfl⟩ := Nat.exists_eq_succ_of_ne_zero (Nat.ne_zero_of_lt hloops)
      have hlt : j < phnum f := by omega
      obtain ⟨m₁, hread, hm₁⟩ := hm.step hf hdisk hfuel hlt
      obtain ⟨m', hrest, hm'⟩ := ih (Nat.lt_of_succ_lt_succ hloops)
        (show j + 1 + n = phnum f by omega) hm₁
      simp only [sizeofElfProgram] at hheaders hrest ⊢
      refine ⟨m', ?_, hm'⟩
      have hnext : (elfhdr + (phoff f + 56 * j) + 56) % 2 ^ 64 =
          elfhdr + (phoff f + 56 * (j + 1)) := by
        rw [elfhdr]
        omega
      have hprogram := hm.program_eq (k := j) (by rw [sizeofElfProgram]; omega)
      rw [sizeofElfProgram] at hprogram
      rw [bootSegments, if_pos (by omega), hprogram]
      dsimp only
      rw [hread, sizeofElfProgram, hnext]
      exact hrest

theorem boot_spec (m : Memory) : Boots f pc m := by
  have hheaders := hf.headers
  have hfew : phnum f < 2 ^ 28 := by
    rw [sizeofElfProgram] at hheaders
    omega
  refine ⟨2 ^ 28, fun fuel hfuel => ?_⟩
  obtain ⟨m₁, hm₁, hboot⟩ := boot_header hf.toKernelFile hdisk hfuel m
  obtain ⟨m', hsegments, hm'⟩ := bootSegments_spec hf hdisk hfuel (phnum f)
    (hfew.trans_le hfuel) (Nat.zero_add _) hm₁
  have hentry : eEntry m' elfhdr = entry f := hm'.load (show 0x18 + 8 ≤ 4096 by decide)
  refine ⟨m', ?_, hm'.loaded⟩
  rw [hboot, hsegments, ← hentry]
  rfl

end load

/-! The image that `mkbootdisk` makes of a kernel. -/

structure DiskLayout (f image : List UInt8) : Prop where
  sectors : image.length % 512 = 0
  large : 1024 * 512 ≤ image.length
  signature : image[510]? = some 0x55 ∧ image[511]? = some 0xAA
  kernel : ∀ i < f.length, image[512 + i]? = f[i]?

/-- Every image has the layout and boots, and it comes out when enough writes make progress. -/
structure ImageBoots (pc : Platform) (bootsector f : List UInt8) (results : List WriteResult) :
    Prop where
  layout : ∀ image, mkbootdisk bootsector [.file f] results = .ok image → DiskLayout f image
  boots : ∀ image, mkbootdisk bootsector [.file f] results = .ok image →
    pc.drives false = Disk.ofBytes image → ∀ m, Boots f pc m
  comes : 1024 * 512 + f.length ≤ progress results →
    ∃ image, mkbootdisk bootsector [.file f] results = .ok image

theorem bootImage_layout {bootsector : List UInt8} (hboot : bootsector.length ≤ 510)
    (f : List UInt8) : DiskLayout f (bootImage bootsector f) where
  sectors := by
    rw [length_bootImage hboot]
    omega
  large := by
    rw [length_bootImage hboot]
    omega
  signature := bootImage_signature hboot f
  kernel i hi := by
    have hlength := length_bootImage hboot f
    have hbyte : (bootImage bootsector f).getD (512 + i) 0 = f.getD i 0 := bootImage_byte hboot f i
    have himage : 512 + i < (bootImage bootsector f).length := by omega
    rw [List.getD_eq_getElem _ _ himage, List.getD_eq_getElem _ _ hi] at hbyte
    rw [List.getElem?_eq_getElem himage, List.getElem?_eq_getElem hi, hbyte]

theorem mkbootdisk_comes {bootsector : List UInt8} (hboot : bootsector.length ≤ 510)
    (f : List UInt8) {results : List WriteResult} (hresults : .failed ∉ results)
    (henough : 1024 * 512 + f.length ≤ progress results) :
    mkbootdisk bootsector [.file f] results = .ok (bootImage bootsector f) := by
  rcases mkbootdisk_file hboot f hresults with hok | ⟨-, hfew⟩
  · exact hok
  · rw [length_bootImage hboot] at hfew
    omega

/-! Kernels of one segment. -/

def littleEndian (n : ℕ) : ℕ → List UInt8
  | 0 => []
  | w + 1 => UInt8.ofNat n :: littleEndian (n / 256) w

/-- Fields, given by value and width, one after the other. -/
def record : List (ℕ × ℕ) → List UInt8 → List UInt8
  | [], rest => rest
  | x :: fields, rest => littleEndian x.1 x.2 ++ record fields rest

theorem length_littleEndian (n w : ℕ) : (littleEndian n w).length = w := by
  induction w generalizing n with
  | zero => rfl
  | succ w ih => rw [littleEndian, List.length_cons, ih]

theorem loadLE_littleEndian (n w : ℕ) (l : List UInt8) :
    loadLE (fileBytes (littleEndian n w ++ l)) 0 w = n % 256 ^ w := by
  induction w generalizing n with
  | zero => exact (Nat.mod_one n).symm
  | succ w ih =>
      have hshift : loadLE (fileBytes (littleEndian n (w + 1) ++ l)) (0 + 1) w =
          loadLE (fileBytes (littleEndian (n / 256) w ++ l)) 0 w := by
        apply loadLE_shift
        intro i hi
        rw [Nat.zero_add, Nat.zero_add, Nat.add_comm 1 i]
        rfl
      have hfirst : (fileBytes (littleEndian n (w + 1) ++ l) 0).toNat = n % 256 := rfl
      rw [loadLE, hshift, ih, hfirst, pow_succ, mul_comm (256 ^ w) 256, Nat.mod_mul]

theorem loadLE_append (l l' : List UInt8) (a w : ℕ) :
    loadLE (fileBytes (l ++ l')) (l.length + a) w = loadLE (fileBytes l') a w := by
  apply loadLE_shift
  intro i hi
  rw [fileBytes, List.getD_append_right _ _ _ _ (by omega), Nat.add_assoc, Nat.add_sub_cancel_left]
  rfl

theorem record_append (fields : List (ℕ × ℕ)) (rest : List UInt8) :
    record fields rest = record fields [] ++ rest := by
  induction fields with
  | nil => rfl
  | cons x fields ih => rw [record, ih, ← List.append_assoc, ← record]

theorem loadLE_record {n w : ℕ} (hn : n < 256 ^ w) (fields : List (ℕ × ℕ)) (k : ℕ)
    (hk : fields[k]? = some (n, w)) (rest : List UInt8) :
    loadLE (fileBytes (record fields rest)) ((fields.take k).map Prod.snd).sum w = n := by
  induction k generalizing fields with
  | zero =>
      cases fields with
      | nil => cases hk
      | cons x fields =>
          rw [Option.some.inj hk]
          exact (loadLE_littleEndian n w _).trans (Nat.mod_eq_of_lt hn)
  | succ k ih =>
      cases fields with
      | nil => cases hk
      | cons x fields =>
          have hlength := length_littleEndian x.1 x.2
          rw [List.take_succ_cons, List.map_cons, List.sum_cons, ← hlength]
          exact (loadLE_append _ _ _ _).trans (ih fields hk)

def headerFields (p : ElfProgram) : List (ℕ × ℕ) :=
  [(elfMagic, 4), (0, 20), (0x40000, 8), (64, 8), (0, 16), (1, 2), (0, 14),
    (p.offset, 8), (p.va, 8), (0, 8), (p.filesz, 8), (p.memsz, 8), (0, 8)]

def oneSegment (p : ElfProgram) (rest : List UInt8) : List UInt8 := record (headerFields p) rest

section oneSegment
variable {p : ElfProgram} {rest : List UInt8} (hoffset : p.offset < 256 ^ 8) (hva : p.va < 256 ^ 8)
  (hle : p.filesz ≤ p.memsz) (hmemsz : p.memsz < 256 ^ 8)

theorem length_header (p : ElfProgram) : (record (headerFields p) []).length = 120 := by
  simp only [headerFields, record, List.length_append, length_littleEndian]
  rfl

theorem phoff_oneSegment : phoff (oneSegment p rest) = 64 :=
  loadLE_record (by decide) (headerFields p) 3 rfl rest

theorem phnum_oneSegment : phnum (oneSegment p rest) = 1 :=
  loadLE_record (by decide) (headerFields p) 5 rfl rest

include hoffset hva hle hmemsz

theorem program_oneSegment : program (oneSegment p rest) 0 = p := by
  rw [program, phoff_oneSegment]
  have h1 := loadLE_record hoffset (headerFields p) 7 rfl rest
  have h2 := loadLE_record hva (headerFields p) 8 rfl rest
  have h3 := loadLE_record (hle.trans_lt hmemsz) (headerFields p) 10 rfl rest
  have h4 := loadLE_record hmemsz (headerFields p) 11 rfl rest
  exact congr (congr (congr (congrArg ElfProgram.mk h1) h2) h3) h4

theorem oneSegment_kernelFile (hcongruent : p.va % 512 = p.offset % 512)
    (hfile : p.offset + p.filesz ≤ 120 + rest.length)
    (hscratch : Disjoint p.range (Set.Ico 0x10000 0x11000)) : KernelFile (oneSegment p rest) := by
  have hzero {k : ℕ} (hk : k < phnum (oneSegment p rest)) : program (oneSegment p rest) k = p := by
    rw [phnum_oneSegment] at hk
    rw [Nat.lt_one_iff.mp hk]
    exact program_oneSegment hoffset hva hle hmemsz
  have hlength : (oneSegment p rest).length = 120 + rest.length := by
    rw [oneSegment, record_append, List.length_append, length_header]
  constructor
  · exact loadLE_record (by decide) (headerFields p) 0 rfl rest
  · rw [phoff_oneSegment, phnum_oneSegment]
    decide
  · intro k hk
    rw [hzero hk]
    exact hcongruent
  · intro k hk
    rw [hzero hk, hlength]
    exact hfile
  · intro k hk
    rw [hzero hk]
    exact hle
  · intro j hj k hk hjk
    rw [phnum_oneSegment] at hj hk
    omega
  · intro k hk
    rw [hzero hk]
    exact hscratch

end oneSegment

/-! Kernels that do not boot. -/

theorem store_eq_none {n a : ℕ} (hn : n ≠ 0) (h : ¬ pc.Writable a) (m : Memory) (src : ℕ → UInt8) :
    store pc n m a src = none := by
  cases n with
  | zero => exact absurd rfl hn
  | succ n => exact if_neg h

theorem readSectors_eq_none {ptr endPtr s : ℕ} (hlt : ptr < endPtr) (h : ¬ pc.Writable ptr)
    (m : Memory) : readSectors pc fuel m ptr endPtr s = none := by
  cases fuel with
  | zero => rfl
  | succ fuel =>
      have hread : bootReadsect pc m ptr s = none := store_eq_none (by decide) h m _
      rw [readSectors, if_pos hlt, hread]
      rfl

theorem not_boots_of_not_writable (hf : KernelFile f)
    (hdisk : ∀ i, (pc.drives false).byte (512 + i) = fileBytes f i) (hphnum : 0 < phnum f)
    (hfilesz : 0 < (program f 0).filesz) (htop : (program f 0).va + (program f 0).filesz < 2 ^ 64)
    (hw : ¬ pc.Writable ((program f 0).va / 512 * 512)) (m : Memory) : ¬ Boots f pc m := by
  rintro ⟨N, h⟩
  obtain ⟨m', hsome, -⟩ := h (max N (2 ^ 28)) (le_max_left _ _)
  obtain ⟨m₁, hm₁, hboot⟩ := boot_header hf hdisk (le_max_right N _) m
  have hheaders := hf.headers
  have hprogram := hm₁.program_eq (k := 0) (by simp only [sizeofElfProgram] at *; omega)
  have hlt : (program f 0).va / sectorsize * sectorsize <
      ((program f 0).va + (program f 0).filesz) % 2 ^ 64 := by
    rw [Nat.mod_eq_of_lt htop, sectorsize]
    omega
  have hread (fuel s : ℕ) : bootReadseg pc fuel m₁ (program f 0).va s (program f 0).filesz
      (program f 0).memsz = none := by
    rw [bootReadseg, readSectors_eq_none hlt hw]
    rfl
  have hloops : max N (2 ^ 28) ≠ 0 := by omega
  obtain ⟨loops, hloops⟩ := Nat.exists_eq_succ_of_ne_zero hloops
  rw [hboot, hloops, bootSegments, if_pos (by rw [sizeofElfProgram]; omega), hprogram] at hsome
  dsimp only at hsome
  rw [hread] at hsome
  cases hsome

def kernelProgram : ElfProgram := ⟨0, 0x40000, 120, 0x200⟩
def highProgram : ElfProgram := ⟨0, 2 ^ 30, 1, 1⟩
def lowProgram : ElfProgram := ⟨0, 0x7C00, 1, 1⟩
def farProgram : ElfProgram := ⟨(2 ^ 28 - 1) * 512, 0x40000, 1, 1⟩

/-- Sector `2 ^ 28` is asked for as sector 0 of the second drive. -/
theorem bootReadseg_far (pc : Platform) (fuel : ℕ) (m : Memory) :
    ∃ m', bootReadseg pc (fuel + 2) m farProgram.va
        ((farProgram.offset / sectorsize + 1) % 2 ^ 32) farProgram.filesz farProgram.memsz =
        some m' ∧
      m' 0x40000 = (pc.drives true).byte 0 := by
  obtain ⟨m', hstore, hx⟩ := store_spec 512 m 0x40000 (fun i => (pc.drives true).byte (0 * 512 + i))
    fun x hlo hhi => ⟨.inr (by omega), by omega⟩
  refine ⟨m', ?_, ?_⟩
  · have hread : bootReadsect pc m 0x40000 (2 ^ 28) = some m' := hstore
    have hdone : readSectors pc (fuel + 1) m' 0x40200 0x40001 (2 ^ 28 + 1) = some m' := by
      rw [readSectors, if_neg (by decide)]
    have hsectors : readSectors pc (fuel + 2) m 0x40000 0x40001 (2 ^ 28) = some m' := by
      rw [readSectors, if_pos (by decide), hread]
      exact hdone
    have hsect : (farProgram.offset / sectorsize + 1) % 2 ^ 32 = 2 ^ 28 := by decide
    rw [hsect]
    change (readSectors pc (fuel + 2) m 0x40000 0x40001 (2 ^ 28) >>= _) = _
    rw [hsectors]
    rfl
  · rw [hx, if_pos (by decide)]

def farKernel : List UInt8 :=
  oneSegment farProgram (List.replicate ((2 ^ 28 - 1) * 512 - 120) 0 ++ [1])

theorem range_disjoint_scratch {p : ElfProgram} (h : p.va + p.memsz ≤ 0x10000 ∨ 0x11000 ≤ p.va) :
    Disjoint p.range (Set.Ico 0x10000 0x11000) := by
  apply Set.disjoint_left.mpr
  rintro x ⟨hlo, hhi⟩ ⟨hlo', hhi'⟩
  omega

theorem kernelFile_far : KernelFile farKernel := by
  apply oneSegment_kernelFile (by decide) (by decide) (by decide) (by decide) (by decide)
  · rw [List.length_append, List.length_replicate]
    decide
  · exact range_disjoint_scratch (.inr (by decide))

theorem farKernel_byte : fileBytes farKernel ((2 ^ 28 - 1) * 512) = 1 := by
  rw [fileBytes, farKernel, oneSegment, record_append,
    List.getD_append_right _ _ _ _ (by rw [length_header]; decide), length_header,
    List.getD_append_right _ _ _ _ (by rw [List.length_replicate]), List.length_replicate,
    Nat.sub_self]
  rfl

/-- The last byte of the file does not arrive. -/
theorem not_boots_far (hdisk : ∀ i, (pc.drives false).byte (512 + i) = fileBytes farKernel i)
    (hother : (pc.drives true).byte 0 ≠ 1) (m : Memory) : ¬ Boots farKernel pc m := by
  rintro ⟨N, h⟩
  obtain ⟨m', hsome, hloaded⟩ := h (max N (2 ^ 28)) (le_max_left _ _)
  have hfuel : 2 ^ 28 ≤ max N (2 ^ 28) := le_max_right _ _
  obtain ⟨m₁, hm₁, hboot⟩ := boot_header kernelFile_far hdisk hfuel m
  have hprogram : program farKernel 0 = farProgram := program_oneSegment (by decide) (by decide)
    (by decide) (by decide)
  have hphoff : phoff farKernel = 64 := phoff_oneSegment
  have hphnum : phnum farKernel = 1 := phnum_oneSegment
  obtain ⟨fuel, hfuel⟩ := Nat.exists_eq_add_of_le' (show 2 ≤ max N (2 ^ 28) by omega)
  obtain ⟨m₂, hread, hbyte⟩ := bootReadseg_far pc fuel m₁
  have hfirst := hm₁.program_eq (k := 0) (by rw [hphoff]; decide)
  have hsegments : bootSegments pc (fuel + 2) (fuel + 2) m₁
      (elfhdr + (phoff farKernel + sizeofElfProgram * 0))
      (elfhdr + (phoff farKernel + sizeofElfProgram * phnum farKernel)) = some m₂ := by
    rw [bootSegments, hfirst, hprogram, hphoff, hphnum, if_pos (by decide)]
    dsimp only
    have hdone : bootSegments pc (fuel + 2) (fuel + 1) m₂
        ((elfhdr + (64 + sizeofElfProgram * 0) + sizeofElfProgram) % 2 ^ 64)
        (elfhdr + (64 + sizeofElfProgram * 1)) = some m₂ := by
      rw [bootSegments, if_neg (by decide)]
    rw [hread]
    exact hdone
  rw [hboot, hfuel, hsegments] at hsome
  have hm' : m₂ = m' := congrArg Prod.fst (Option.some.inj hsome)
  have hfile := (hloaded 0 (by rw [hphnum]; decide)).file 0 (by rw [hprogram]; decide)
  rw [hprogram, ← hm'] at hfile
  exact hother (hbyte.symm.trans (hfile.trans farKernel_byte))

def highKernel : List UInt8 := oneSegment highProgram []
def lowKernel : List UInt8 := oneSegment lowProgram []

theorem kernelFile_high : KernelFile highKernel := by
  apply oneSegment_kernelFile (by decide) (by decide) (by decide) (by decide) (by decide)
    (by decide)
  exact range_disjoint_scratch (.inr (by decide))

theorem kernelFile_low : KernelFile lowKernel := by
  apply oneSegment_kernelFile (by decide) (by decide) (by decide) (by decide) (by decide)
    (by decide)
  exact range_disjoint_scratch (.inl (by decide))

/-- Both drives hold the image of the kernel. -/
def imagePlatform (f : List UInt8) : Platform where
  drives _ := Disk.ofBytes (bootImage [] f)
  stack := 0x7000
  stack_le := by decide

/-- A schedule of one byte a time. -/
def slowly (f : List UInt8) : List WriteResult := List.replicate (1024 * 512 + f.length) (.wrote 0)

theorem failed_notMem_slowly (f : List UInt8) : .failed ∉ slowly f :=
  fun hmem => by cases List.eq_of_mem_replicate hmem

theorem length_nil_le : ([] : List UInt8).length ≤ 510 := by decide

section platform
variable (f : List UInt8)

theorem imagePlatform_byte (i : ℕ) :
    ((imagePlatform f).drives false).byte (512 + i) = fileBytes f i :=
  bootImage_byte length_nil_le f i

theorem not_imageBoots_of_not_boots (h : ∀ m, ¬ Boots f (imagePlatform f) m) :
    ¬ ImageBoots (imagePlatform f) [] f (slowly f) := by
  intro himage
  have hprogress : progress (slowly f) = 1024 * 512 + f.length := by
    rw [progress, slowly, List.countP_replicate]
    rfl
  have hok : mkbootdisk [] [.file f] (slowly f) = .ok (bootImage [] f) :=
    mkbootdisk_comes length_nil_le f (failed_notMem_slowly f) hprogress.ge
  exact h (fun _ => 0) (himage.boots _ hok rfl _)

end platform

/-- A loadable kernel boots from its image, for every schedule of writes. -/
theorem image_boots {pc : Platform} {bootsector f : List UInt8} (hboot : bootsector.length ≤ 510)
    (hf : Loadable f pc) {results : List WriteResult} (hresults : .failed ∉ results) :
    ImageBoots pc bootsector f results := by
  have hone (image : List UInt8) (h : mkbootdisk bootsector [.file f] results = .ok image) :
      image = bootImage bootsector f := by
    rcases mkbootdisk_file hboot f hresults with hok | ⟨hpending, -⟩
    · rw [hok] at h
      exact (Except.ok.inj h).symm
    · rw [hpending] at h
      cases h
  constructor
  · intro image himage
    rw [hone image himage]
    exact bootImage_layout hboot f
  · intro image himage hdrive
    apply boot_spec hf
    intro i
    rw [hdrive, hone image himage]
    exact bootImage_byte hboot f i
  · intro henough
    exact ⟨_, mkbootdisk_comes hboot f hresults henough⟩

theorem image_boots_kernel : ImageBoots (imagePlatform (oneSegment kernelProgram [])) []
    (oneSegment kernelProgram []) (slowly (oneSegment kernelProgram [])) := by
  have hprogram : program (oneSegment kernelProgram []) 0 = kernelProgram :=
    program_oneSegment (by decide) (by decide) (by decide) (by decide)
  have hfile : KernelFile (oneSegment kernelProgram []) :=
    oneSegment_kernelFile (by decide) (by decide) (by decide) (by decide) (by decide) (by decide)
      (range_disjoint_scratch (.inr (by decide)))
  apply image_boots length_nil_le
    ⟨hfile, fun k hk a ha => ?_, by decide⟩ (failed_notMem_slowly _)
  rw [phnum_oneSegment] at hk
  rw [Nat.lt_one_iff.mp hk, hprogram] at ha
  exact ⟨.inr (le_trans (by decide) ha.1), lt_of_lt_of_le ha.2 (by decide)⟩

/-- A segment above the first gigabyte, one over the loader, one in sector `2 ^ 28`. -/
theorem not_imageBoots :
    (KernelFile highKernel ∧
      ¬ ImageBoots (imagePlatform highKernel) [] highKernel (slowly highKernel)) ∧
    (KernelFile lowKernel ∧
      ¬ ImageBoots (imagePlatform lowKernel) [] lowKernel (slowly lowKernel)) ∧
    KernelFile farKernel ∧
      ¬ ImageBoots (imagePlatform farKernel) [] farKernel (slowly farKernel) := by
  refine ⟨⟨kernelFile_high, ?_⟩, ⟨kernelFile_low, ?_⟩, ⟨kernelFile_far, ?_⟩⟩
  · apply not_imageBoots_of_not_boots
    have hprogram : program highKernel 0 = highProgram :=
      program_oneSegment (by decide) (by decide) (by decide) (by decide)
    have hphnum : phnum highKernel = 1 := phnum_oneSegment
    apply not_boots_of_not_writable kernelFile_high (imagePlatform_byte _)
      (by rw [hphnum]; decide) <;> rw [hprogram] <;> decide
  · apply not_imageBoots_of_not_boots
    have hprogram : program lowKernel 0 = lowProgram :=
      program_oneSegment (by decide) (by decide) (by decide) (by decide)
    have hphnum : phnum lowKernel = 1 := phnum_oneSegment
    apply not_boots_of_not_writable kernelFile_low (imagePlatform_byte _)
      (by rw [hphnum]; decide) <;> rw [hprogram] <;> decide
  · apply not_imageBoots_of_not_boots
    have hother : ((imagePlatform farKernel).drives true).byte 0 = 0 := rfl
    exact not_boots_far (imagePlatform_byte _) (by rw [hother]; decide)

end WeensyOS.BootLoader
