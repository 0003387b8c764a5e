import WeensyOS.TableTree
import Mathlib.Data.Finset.Card
import Mathlib.Order.Interval.Finset.Nat

/-!
# The `pageinfo` array and the page allocators

Owner and reference count of every physical page, their initial values, and the searches that hand
out pages. Both searches of the source take the lowest-numbered free page, `lowestFree`.
-/

namespace WeensyOS
open ByteMemory

structure PageInfo where
  owner : ℤ
  refcount : ℤ
  deriving DecidableEq, Repr

abbrev PageInfos := ℕ → PageInfo

@[simp] abbrev poFree : ℤ := 0
@[simp] abbrev poReserved : ℤ := -1
@[simp] abbrev poKernel : ℤ := -2

/-- The linker symbols of a kernel image that the code refers to. -/
structure KernelLayout where
  startData : ℕ
  endAddr : ℕ
  kernelPagetables : ℕ
  defaultIntHandler : ℕ
  virtualMemoryMap : ℕ
  pagetables_aligned : kernelPagetables % 4096 = 0
  pagetables_lo : 0x40000 ≤ kernelPagetables
  pagetables_hi : kernelPagetables + 5 * 4096 ≤ endAddr
  end_le : endAddr ≤ 0x7F000
  handler_mem : 0x40000 ≤ defaultIntHandler ∧ defaultIntHandler < endAddr
  map_mem : 0x40000 ≤ virtualMemoryMap ∧ virtualMemoryMap < endAddr

/-- `physical_memory_isreserved`: page 0 and the I/O hole. -/
def physicalMemoryIsreserved (pa : ℕ) : Prop := pa = 0 ∨ (pa ≥ 0xA0000 ∧ pa < 0x100000)

instance (pa : ℕ) : Decidable (physicalMemoryIsreserved pa) :=
  inferInstanceAs (Decidable (_ ∨ _))

def initialOwner (L : KernelLayout) (addr : ℕ) : ℤ :=
  if physicalMemoryIsreserved addr then poReserved
  else if (addr ≥ kernelStartAddr ∧ addr < L.endAddr) ∨ addr = kernelStackTop - pageSize then
    poKernel
  else poFree

def pageinfoInit (L : KernelLayout) : PageInfos := fun pn =>
  let owner := initialOwner L (pageAddress pn)
  ⟨owner, if owner ≠ poFree then 1 else 0⟩

/-- Pages that the allocator may hand out: neither reserved nor kernel memory. -/
def usable (L : KernelLayout) (pn : ℕ) : Prop := pn < 512 ∧ initialOwner L (pageAddress pn) = poFree

instance (L : KernelLayout) (pn : ℕ) : Decidable (usable L pn) :=
  inferInstanceAs (Decidable (_ ∧ _))

def assignPhysicalPage (info : PageInfos) (addr : ℕ) (owner : ℤ) : PageInfos × ℤ :=
  if addr &&& 0xFFF ≠ 0 ∨ addr ≥ memsizePhysical ∨
      (info (pageNumber addr).toNat).refcount ≠ 0 then (info, -1)
  else (Function.update info (pageNumber addr).toNat ⟨toInt8 owner, 1⟩, 0)

/-- `for (p = 1; p < NPAGES; p++) if (pageinfo[p].refcount == 0) break;`, with `n` rounds left. -/
def findFree (info : PageInfos) : ℕ → ℕ → ℕ
  | 0, p => p
  | n + 1, p => if (info p).refcount = 0 then p else findFree info n (p + 1)

def allocPageProcess (info : PageInfos) (pid : ℤ) : PageInfos × ℕ :=
  let p := findFree info (nPages - 1) 1
  let r := assignPhysicalPage info (pageAddress p) pid
  if r.2 > -1 then (r.1, pageAddress p) else (r.1, 0)

/-- The search of `sys_page_alloc_find_free`, which gives up inside the loop at the last page. -/
def findFreeOrFail (info : PageInfos) : ℕ → ℕ → Option ℕ
  | 0, p => some p
  | n + 1, p =>
    if (info p).refcount = 0 then some p
    else if p = nPages - 1 then none
    else findFreeOrFail info n (p + 1)

/-- `++pageinfo[pn].refcount`. An index outside the array is taken to hit no modelled state. -/
def incRefcount (info : PageInfos) (pn : ℤ) : PageInfos :=
  if 0 ≤ pn ∧ pn < nPages then
    Function.update info pn.toNat
      { info pn.toNat with refcount := toInt8 ((info pn.toNat).refcount + 1) }
  else info

/-- The lowest-numbered free page in `[1, NPAGES)`. -/
def lowestFree (info : PageInfos) : Option ℕ :=
  let p := findFree info (nPages - 1) 1
  if p < nPages then some p else none

def freePages (info : PageInfos) : Finset ℕ :=
  (Finset.Ico 1 512).filter (fun pn => (info pn).refcount = 0)

theorem findFree_spec (info : PageInfos) (n p : ℕ) :
    p ≤ findFree info n p ∧ findFree info n p ≤ p + n ∧
      (∀ q, p ≤ q → q < findFree info n p → (info q).refcount ≠ 0) ∧
      (findFree info n p < p + n → (info (findFree info n p)).refcount = 0) := by
  induction n generalizing p with
  | zero => exact ⟨le_rfl, le_rfl, fun q h h' => by simp only [findFree] at h'; omega,
      fun h => by simp only [findFree] at h; omega⟩
  | succ n ih =>
      rw [findFree]
      split_ifs with hz
      · exact ⟨le_rfl, by omega, fun q h h' => by omega, fun _ => hz⟩
      · obtain ⟨h1, h2, h3, h4⟩ := ih (p + 1)
        refine ⟨by omega, by omega, fun q h h' => ?_, fun h => h4 (by omega)⟩
        by_cases hq : q = p
        · rwa [hq]
        · exact h3 q (by omega) h'

theorem lowestFree_eq_some {info : PageInfos} {pn : ℕ} (h : lowestFree info = some pn) :
    1 ≤ pn ∧ pn < 512 ∧ (info pn).refcount = 0 := by
  obtain ⟨h1, -, -, h4⟩ := findFree_spec info 511 1
  unfold lowestFree at h
  simp only [nPages, Nat.reduceSub] at h
  split_ifs at h with hlt
  obtain rfl := Option.some.inj h
  exact ⟨h1, hlt, h4 (by omega)⟩

theorem lowestFree_eq_none {info : PageInfos} :
    lowestFree info = none ↔ ∀ q, 1 ≤ q → q < 512 → (info q).refcount ≠ 0 := by
  obtain ⟨h1, h2, h3, h4⟩ := findFree_spec info 511 1
  unfold lowestFree
  simp only [nPages, Nat.reduceSub]
  split_ifs with hlt
  · simp only [false_iff, not_forall]
    exact ⟨_, h1, hlt, not_not.mpr (h4 (by omega))⟩
  · simp only [true_iff]
    exact fun q hq hq' => h3 q hq (by omega)

theorem freePages_eq_empty {info : PageInfos} : freePages info = ∅ ↔ lowestFree info = none := by
  rw [lowestFree_eq_none, freePages, Finset.filter_eq_empty_iff]
  simp only [Finset.mem_Ico, and_imp]

theorem freePages_nonempty {info : PageInfos} :
    (freePages info).Nonempty ↔ (lowestFree info).isSome := by
  rw [Finset.nonempty_iff_ne_empty, Ne, freePages_eq_empty, Option.isSome_iff_ne_none]

theorem exists_lowestFree {info : PageInfos} (h : 0 < (freePages info).card) :
    ∃ pn, lowestFree info = some pn := by
  cases hl : lowestFree info with
  | some pn => exact ⟨pn, rfl⟩
  | none => rw [freePages_eq_empty.mpr hl] at h; simp at h

theorem card_freePages_assign {info : PageInfos} {pn : ℕ} (owner : ℤ)
    (h : lowestFree info = some pn) :
    (freePages (Function.update info pn ⟨owner, 1⟩)).card + 1 = (freePages info).card := by
  obtain ⟨h1, h2, h3⟩ := lowestFree_eq_some h
  have hmem : pn ∈ freePages info := by simp [freePages, h1, h2, h3]
  have herase : freePages (Function.update info pn ⟨owner, 1⟩) = (freePages info).erase pn := by
    ext q
    by_cases hq : q = pn
    · subst q
      simp [freePages]
    · simp [freePages, hq]
  rw [herase, Finset.card_erase_add_one hmem]

theorem assignPhysicalPage_free {info : PageInfos} {pn : ℕ} {owner : ℤ} (hpn : pn < 512)
    (hfree : (info pn).refcount = 0) :
    assignPhysicalPage info (pageAddress pn) owner =
      (Function.update info pn ⟨toInt8 owner, 1⟩, 0) := by
  have hn : (pageNumber (pn * 4096)).toNat = pn := by rw [pageNumber_eq (by omega)]; omega
  have hoff : pn * 4096 &&& 0xFFF = 0 := by
    rw [← pageOffset, pageOffset_eq]
    omega
  rw [pageAddress_eq, assignPhysicalPage, if_neg, hn]
  rintro (hc | hc | hc)
  · exact hc hoff
  · simp only [memsizePhysical] at hc
    omega
  · rw [hn] at hc
    exact hc hfree

/-- The allocator in terms of the lowest free page; address 0 reports that there is none. -/
theorem allocPageProcess_eq (info : PageInfos) (pid : ℤ) :
    allocPageProcess info pid =
      match lowestFree info with
      | some pn => (Function.update info pn ⟨toInt8 pid, 1⟩, pn * 4096)
      | none => (info, 0) := by
  obtain ⟨h1, h2, -, h4⟩ := findFree_spec info 511 1
  unfold allocPageProcess lowestFree
  simp only [nPages, Nat.reduceSub]
  split_ifs with hr hlt hlt
  · rw [assignPhysicalPage_free hlt (h4 (by omega)), pageAddress_eq]
  · exfalso
    have hge : pageAddress (findFree info 511 1) ≥ memsizePhysical := by
      rw [pageAddress_eq, memsizePhysical]
      omega
    simp [assignPhysicalPage, hge] at hr
  · exact absurd (by simp [assignPhysicalPage_free hlt (h4 (by omega))]) hr
  · have hge : pageAddress (findFree info 511 1) ≥ memsizePhysical := by
      rw [pageAddress_eq, memsizePhysical]
      omega
    simp [assignPhysicalPage, hge]

theorem findFreeOrFail_eq (info : PageInfos) {n p : ℕ} (hp : p < 512) (hn : p + n = 512) :
    findFreeOrFail info n p =
      if findFree info n p < 512 then some (findFree info n p) else none := by
  induction n generalizing p with
  | zero => omega
  | succ n ih =>
      rw [findFreeOrFail, findFree]
      simp only [nPages, Nat.reduceSub]
      split_ifs with hz hlast
      · rfl
      · obtain ⟨h1, -⟩ := findFree_spec info n (p + 1)
        omega
      · rfl
      · rw [ih (by omega) (by omega), if_pos (by assumption)]
      · rw [ih (by omega) (by omega), if_neg (by assumption)]

theorem findFreeOrFail_eq_lowestFree (info : PageInfos) :
    findFreeOrFail info (nPages - 1) 1 = lowestFree info :=
  findFreeOrFail_eq info (by norm_num) rfl

end WeensyOS
