import WeensyOS.SysMapping
import WeensyOS.Refinement

/-!
# What `check_virtual_memory` guarantees

The state is arbitrary: only the page-table pointers and the entries of upper-level tables lie in
physical memory. If the check passes, page tables of different owners have no table page in common,
no allocation can hand out a table page, and kernel addresses translate to themselves. The check
asks `virtual_memory_lookup` whether kernel data and stack are writable, which for unusual flags in
upper-level entries is not what the processor answers.
-/

namespace WeensyOS
open ByteMemory

/-- The table pages reached through nonzero entries, by level: 1 for the root, 4 for leaf tables. -/
inductive TablePage (m : Memory) (root : ℕ) : ℕ → ℕ → Prop
  | root : TablePage m root 1 root
  | next {level pt index : ℕ} (h : TablePage m root level pt) (hlevel : level < 4)
      (hindex : index < nPagetableEntries) (hne : entry m pt index ≠ 0) :
      TablePage m root (level + 1) (pteAddr (entry m pt index))

namespace Kernel
variable (L : KernelLayout) (k : Kernel)

/-- A process in use that has a page table of its own. -/
def OwnsTable (p : ℕ) : Prop :=
  p < nProc ∧ k.Live p ∧ (k.processes p).pagetable ≠ L.kernelPagetables

/-- Tables that processes and the kernel reach lie in physical memory. -/
structure TablesInMemory : Prop where
  own : ∀ p, k.OwnsTable L p → ∀ level pt, TablePage k.mem (k.processes p).pagetable level pt →
    pt < memsizePhysical
  kernel : ∀ level pt, TablePage k.mem L.kernelPagetables level pt → pt < memsizePhysical

end Kernel

/-- The pages of kernel code and data, and the kernel's stack page. -/
def KernelPage (L : KernelLayout) (va : ℕ) : Prop :=
  kernelStartAddr ≤ va ∧ va / 4096 * 4096 < L.endAddr ∨ va / 4096 * 4096 = kernelStackTop - pageSize

/-- The pages that the kernel writes: data from `start_data` on, and the stack page. -/
def KernelData (L : KernelLayout) (va : ℕ) : Prop :=
  KernelPage L va ∧
    (L.startData ≤ va / 4096 * 4096 ∨ va / 4096 * 4096 = kernelStackTop - pageSize)

/-- What the check is for. -/
structure CheckSound (L : KernelLayout) (k : Kernel) : Prop where
  disjoint : ∀ p q, p ≠ q → k.OwnsTable L p → k.OwnsTable L q → ∀ l l' pt,
    TablePage k.mem (k.processes p).pagetable l pt →
      ¬ TablePage k.mem (k.processes q).pagetable l' pt
  kernel : ∀ p, k.OwnsTable L p → ∀ l l' pt,
    TablePage k.mem (k.processes p).pagetable l pt → ¬ TablePage k.mem L.kernelPagetables l' pt
  counted : ∀ p, k.OwnsTable L p → ∀ l pt, TablePage k.mem (k.processes p).pagetable l pt →
    (k.pageinfo (pt / pageSize)).refcount = 1
  kept : ∀ p, k.OwnsTable L p → ∀ l pt, TablePage k.mem (k.processes p).pagetable l pt →
    ∀ info : PageInfos, (info (pt / pageSize)).refcount = (k.pageinfo (pt / pageSize)).refcount →
      (∀ pid, (allocPageProcess info pid).2 ≠ 0 → (allocPageProcess info pid).2 ≠ pt) ∧
      findFreeOrFail info (nPages - 1) 1 ≠ some (pt / pageSize)
  identity : ∀ p, k.OwnsTable L p → ∀ va, KernelPage L va →
    ∃ t, walk k.mem (k.processes p).pagetable va = some t ∧ t.pa = va ∧
      (KernelData L va → t.writable = true)

/-- Every upper-level entry on the way to kernel data and stack allows writing. -/
def UpperWritable (L : KernelLayout) (k : Kernel) : Prop :=
  ∀ p, k.OwnsTable L p → ∀ va, KernelData L va → ∀ i < 3,
    pathEntry k.mem (k.processes p).pagetable va i &&& pteW ≠ 0

section walk
variable {m : Memory} {pt va va' : ℕ}

/-- The access rights of the processor, in terms of the entries on the path. -/
theorem walkLevels_rights (n i : ℕ) (w u : Bool)
    (hp : ∀ j, i ≤ j → j < i + n → pathEntry m pt va j &&& pteP ≠ 0) :
    ∃ t, walkLevels m va n i (pathTable m pt va i) w u = some t ∧
      t.pa = pathTable m pt va (i + n) + pageOffset va ∧
      (t.writable = true ↔
        w = true ∧ ∀ j, i ≤ j → j < i + n → pathEntry m pt va j &&& pteW ≠ 0) := by
  induction n generalizing i w u with
  | zero => exact ⟨_, rfl, rfl, ⟨fun h => ⟨h, fun j h1 h2 => by omega⟩, fun h => h.1⟩⟩
  | succ n ih =>
      have hpath : entry m (pathTable m pt va i) (pageindex va i) = pathEntry m pt va i := rfl
      obtain ⟨t, ht, hpa, hw⟩ := ih (i + 1) (w && pathEntry m pt va i &&& pteW ≠ 0)
        (u && pathEntry m pt va i &&& pteU ≠ 0) fun j h1 h2 => hp j (by omega) (by omega)
      refine ⟨t, ?_, by rw [hpa, show i + 1 + n = i + (n + 1) by omega], ?_⟩
      · rw [walkLevels]
        simp only [hpath]
        rw [if_neg (hp i le_rfl (by omega))]
        exact ht
      · rw [hw, Bool.and_eq_true, decide_eq_true_iff]
        constructor
        · rintro ⟨⟨h1, h2⟩, h3⟩
          refine ⟨h1, fun j hj hj' => ?_⟩
          obtain rfl | hne := eq_or_ne j i
          · exact h2
          · exact h3 j (by omega) (by omega)
        · rintro ⟨h1, h2⟩
          exact ⟨⟨h1, h2 i le_rfl (by omega)⟩, fun j hj hj' => h2 j (by omega) (by omega)⟩

theorem walk_rights (hr : Reached m pt va 4) : ∃ t, walk m pt va = some t ∧
    t.pa = pteAddr (pathEntry m pt va 3) + pageOffset va ∧
    (t.writable = true ↔ ∀ i < 4, pathEntry m pt va i &&& pteW ≠ 0) := by
  obtain ⟨t, ht, hpa, hw⟩ := walkLevels_rights 4 0 true true fun j _ hj => hr j (by omega)
  refine ⟨t, ht, hpa, hw.trans ?_⟩
  simp only [true_and, Nat.zero_add]
  exact ⟨fun h i hi => h i (Nat.zero_le i) hi, fun h i _ hi => h i hi⟩

end walk

section levels
variable {m : Memory} {info : PageInfos} {owner rc : ℤ} {root : ℕ}

theorem ownershipLevel_info {n pt : ℕ} (hpt : pt < memsizePhysical)
    (h : checkPageTableOwnershipLevel m info owner n pt rc) :
    info (pt / pageSize) = ⟨owner, rc⟩ := by
  simp only [memsizePhysical] at hpt
  have hpn : (pageNumber pt).toNat = pt / pageSize := by
    rw [pageNumber_eq (by omega), Int.toNat_natCast]
  cases n with
  | zero =>
      rw [checkPageTableOwnershipLevel, hpn] at h
      rw [← h.2.1, ← h.2.2]
  | succ n =>
      rw [checkPageTableOwnershipLevel, hpn] at h
      rw [← h.1.2.1, ← h.1.2.2]

/-- The recursion of the check visits every table page. -/
theorem TablePage.visited {level pt : ℕ} (h : TablePage m root level pt)
    (hc : checkPageTableOwnershipLevel m info owner 3 root rc) :
    1 ≤ level ∧ level ≤ 4 ∧
      checkPageTableOwnershipLevel m info owner (4 - level) pt (if level = 1 then rc else 1) := by
  induction h with
  | root => exact ⟨le_rfl, by norm_num, hc⟩
  | @next level pt index _ hlevel hindex hne ih =>
      obtain ⟨h1, -, hcheck⟩ := ih
      rw [show 4 - level = (4 - (level + 1)) + 1 by omega, checkPageTableOwnershipLevel] at hcheck
      refine ⟨by omega, hlevel, ?_⟩
      rw [if_neg (by omega)]
      exact hcheck.2 index hindex hne

theorem TablePage.info_eq {level pt : ℕ} (h : TablePage m root level pt)
    (hc : checkPageTableOwnershipLevel m info owner 3 root rc) (hpt : pt < memsizePhysical) :
    info (pt / pageSize) = ⟨owner, if level = 1 then rc else 1⟩ :=
  ownershipLevel_info hpt (h.visited hc).2.2

end levels

/-- A page in use is not handed out. -/
theorem counted_not_allocated {info : PageInfos} {pn : ℕ} (h : (info pn).refcount ≠ 0) :
    lowestFree info ≠ some pn := fun hpn => h (lowestFree_eq_some hpn).2.2

theorem allocPageProcess_ne {info : PageInfos} {pt : ℕ} (h : (info (pt / pageSize)).refcount ≠ 0)
    (pid : ℤ) (hne : (allocPageProcess info pid).2 ≠ 0) : (allocPageProcess info pid).2 ≠ pt := by
  rw [allocPageProcess_eq] at hne ⊢
  cases hpn : lowestFree info with
  | none =>
      rw [hpn] at hne
      exact absurd rfl hne
  | some pn =>
      rintro rfl
      have hdiv : pn * 4096 / pageSize = pn := Nat.mul_div_cancel pn (by norm_num)
      rw [hdiv] at h
      exact counted_not_allocated h hpn

section mappings
variable {L : KernelLayout} {m : Memory} {pt va : ℕ}

theorem pageindex_base (va l : ℕ) : pageindex (va / 4096 * 4096) l = pageindex va l := by
  have hdiv (n : ℕ) : va / 4096 * 4096 / 2 ^ (12 + n) = va / 2 ^ (12 + n) := by
    rw [pow_add, ← Nat.div_div_eq_div_mul, ← Nat.div_div_eq_div_mul,
      show (2 : ℕ) ^ 12 = 4096 from rfl, Nat.mul_div_cancel _ (by norm_num)]
  rw [pageindex_eq, pageindex_eq, hdiv]

/-- What the assertions about one page say about the entries on its path. -/
theorem lookup_base_path
    (hpa : (virtualMemoryLookup m pt (va / 4096 * 4096)).pa = va / 4096 * 4096) :
    Reached m pt va 4 ∧ pteAddr (pathEntry m pt va 3) = va / 4096 * 4096 := by
  have hidx (l : ℕ) : pageindex (va / 4096 * 4096) l = pageindex va l := pageindex_base va l
  rw [lookup_path] at hpa
  split_ifs at hpa with hr
  · refine ⟨(reached_congr fun l _ => hidx l).mp hr, ?_⟩
    rw [pathEntry_congr fun l _ => hidx l, pageOffset_eq] at hpa
    dsimp only at hpa
    omega
  · have hall : 2 ^ 64 - 1 = va / 4096 * 4096 := hpa
    omega

theorem lookup_base_writable (hr : Reached m pt va 4)
    (hw : (virtualMemoryLookup m pt (va / 4096 * 4096)).perm &&& pteW ≠ 0) :
    pathEntry m pt va 3 &&& pteW ≠ 0 := by
  have hidx (l : ℕ) : pageindex (va / 4096 * 4096) l = pageindex va l := pageindex_base va l
  have hr' : Reached m pt (va / 4096 * 4096) 4 := (reached_congr fun l _ => hidx l).mpr hr
  rw [lookup_path, if_pos hr', pteFlags_eq, ← and_flag_split (by norm_num)] at hw
  have hfour := ((carried_four m pt (va / 4096 * 4096) (k := 1) (Or.inl rfl)).mp hw).1
  rwa [pathEntry_congr fun l _ => hidx l] at hfour

/-- The assertions of `check_page_table_mappings`, for any address of the pages they are about. -/
theorem KernelPage.checked (h : KernelPage L va) (hc : checkPageTableMappings L m pt) :
    (virtualMemoryLookup m pt (va / 4096 * 4096)).pa = va / 4096 * 4096 ∧
      (KernelData L va → (virtualMemoryLookup m pt (va / 4096 * 4096)).perm &&& pteW ≠ 0) := by
  obtain ⟨-, hpages, hstack, hstackW⟩ := hc
  rcases h with ⟨hlo, hhi⟩ | hs
  · have hi := hpages (va / 4096 - 64) (by
      simp only [kernelStartAddr, pageSize] at hlo ⊢
      omega)
    have hva : kernelStartAddr + (va / 4096 - 64) * pageSize = va / 4096 * 4096 := by
      simp only [kernelStartAddr, pageSize] at hlo ⊢
      omega
    rw [hva] at hi
    refine ⟨hi.1, fun hdata => ?_⟩
    rcases hdata.2 with hd | hd
    · exact hi.2 hd
    · rwa [hd]
  · rw [hs]
    exact ⟨hstack, fun _ => hstackW⟩

/-- Kernel addresses are translated to themselves, and the leaf entries of data and stack allow
writing. Whether the processor lets the kernel write depends on the other three entries. -/
theorem KernelPage.walk (h : KernelPage L va) (hc : checkPageTableMappings L m pt) :
    ∃ t, WeensyOS.walk m pt va = some t ∧ t.pa = va ∧
      (KernelData L va → (t.writable = true ↔ ∀ i < 3, pathEntry m pt va i &&& pteW ≠ 0)) := by
  obtain ⟨hpa, hw⟩ := h.checked hc
  obtain ⟨hr, haddr⟩ := lookup_base_path hpa
  obtain ⟨t, ht, htpa, htw⟩ := walk_rights hr
  refine ⟨t, ht, ?_, fun hdata =>
    htw.trans ⟨fun hall i hi => hall i (by omega), fun hall i hi => ?_⟩⟩
  · rw [htpa, haddr, pageOffset_eq]
    omega
  · obtain rfl | hne := eq_or_ne i 3
    · exact lookup_base_writable hr (hw hdata)
    · exact hall i (by omega)

end mappings

section sound
variable {L : KernelLayout} {k : Kernel} (hc : checkVirtualMemory L k) (hm : k.TablesInMemory L)

include hc

theorem checked_own {p : ℕ} (hp : k.OwnsTable L p) :
    checkPageTableMappings L k.mem (k.processes p).pagetable ∧
      checkPageTableOwnershipLevel k.mem k.pageinfo p 3 (k.processes p).pagetable 1 := by
  obtain ⟨hlt, hlive, hne⟩ := hp
  obtain ⟨hmap, hown⟩ := hc.2.2.2.1 p hlt hlive hne
  rw [checkPageTableOwnership, if_neg hne] at hown
  exact ⟨hmap, hown⟩

theorem checked_kernel : ∃ rc,
    checkPageTableOwnershipLevel k.mem k.pageinfo poKernel 3 L.kernelPagetables rc := by
  have hown := hc.2.2.1
  rw [checkPageTableOwnership, if_pos rfl] at hown
  exact ⟨_, hown⟩

include hm

theorem own_info {p l pt : ℕ} (hp : k.OwnsTable L p)
    (ht : TablePage k.mem (k.processes p).pagetable l pt) :
    k.pageinfo (pt / pageSize) = ⟨p, 1⟩ := by
  rw [ht.info_eq (checked_own hc hp).2 (hm.own p hp l pt ht), ite_self]

/-- The check is sound but for the access rights that upper-level entries take away. -/
theorem checkSound_iff : CheckSound L k ↔ UpperWritable L k := by
  constructor
  · intro h p hp va hdata
    obtain ⟨t, ht, -, hw⟩ := hdata.1.walk (checked_own hc hp).1
    obtain ⟨t', ht', -, hw'⟩ := h.identity p hp va hdata.1
    obtain rfl := Option.some.inj (ht.symm.trans ht')
    exact (hw hdata).mp (hw' hdata)
  · intro h
    constructor
    · intro p q hne hp hq l l' pt htp htq
      have heq := (own_info hc hm hp htp).symm.trans (own_info hc hm hq htq)
      apply hne
      exact_mod_cast (PageInfo.mk.inj heq).1
    · intro p hp l l' pt htp htk
      obtain ⟨rc, hkernel⟩ := checked_kernel hc
      have heq := (own_info hc hm hp htp).symm.trans (htk.info_eq hkernel (hm.kernel l' pt htk))
      have howner : (p : ℤ) = -2 := (PageInfo.mk.inj heq).1
      omega
    · intro p hp l pt ht
      rw [own_info hc hm hp ht]
    · intro p hp l pt ht info hinfo
      have hne : (info (pt / pageSize)).refcount ≠ 0 := by
        rw [hinfo, own_info hc hm hp ht]
        norm_num
      refine ⟨allocPageProcess_ne hne, ?_⟩
      rw [findFreeOrFail_eq_lowestFree]
      exact counted_not_allocated hne
    · intro p hp va hva
      obtain ⟨t, ht, hpa, hw⟩ := hva.walk (checked_own hc hp).1
      exact ⟨t, ht, hpa, fun hdata => (hw hdata).mpr (h p hp va hdata)⟩

end sound

/-! A page table of the usual shape, but for the flags of its root entry. -/

structure UpperTables (m : Memory) (T : Fin 5 → ℕ) (f : ℕ) : Prop where
  lt : ∀ j, T j < 512
  flags : 0 < f ∧ f < 8
  l1 : ∀ i < 512, entry m (T 0 * 4096) i = if i = 0 then T 1 * 4096 + f else 0
  l2 : ∀ i < 512, entry m (T 1 * 4096) i = if i = 0 then T 2 * 4096 + 7 else 0
  l3 : ∀ i < 512, entry m (T 2 * 4096) i =
    if i = 0 then T 3 * 4096 + 7 else if i = 1 then T 4 * 4096 + 7 else 0

theorem Tree.upperTables {m : Memory} {T : Fin 5 → ℕ} {leaf : ℕ → ℕ} (h : Tree m T leaf) :
    UpperTables m T 7 := ⟨h.lt, by norm_num, h.l1, h.l2, h.l3⟩

namespace UpperTables
variable {m : Memory} {T : Fin 5 → ℕ} {f : ℕ} (h : UpperTables m T f)

include h

theorem addr (j : Fin 5) {g : ℕ} (hg : g < 8) : pteAddr (T j * 4096 + g) = T j * 4096 :=
  pteAddr_frame (by have := h.lt j; omega) (by omega)

theorem tablePage {level pt : ℕ} (ht : TablePage m (T 0 * 4096) level pt) :
    level = 1 ∧ pt = T 0 * 4096 ∨ level = 2 ∧ pt = T 1 * 4096 ∨ level = 3 ∧ pt = T 2 * 4096 ∨
      level = 4 ∧ (pt = T 3 * 4096 ∨ pt = T 4 * 4096) := by
  induction ht with
  | root => exact .inl ⟨rfl, rfl⟩
  | next _ hlevel hindex hne ih =>
      rcases ih with ⟨rfl, rfl⟩ | ⟨rfl, rfl⟩ | ⟨rfl, rfl⟩ | ⟨rfl, -⟩
      · rw [h.l1 _ hindex] at hne ⊢
        split_ifs at hne ⊢
        · exact .inr (.inl ⟨rfl, h.addr 1 h.flags.2⟩)
        · exact absurd rfl hne
      · rw [h.l2 _ hindex] at hne ⊢
        split_ifs at hne ⊢
        · exact .inr (.inr (.inl ⟨rfl, h.addr 2 (by norm_num)⟩))
        · exact absurd rfl hne
      · rw [h.l3 _ hindex] at hne ⊢
        split_ifs at hne ⊢
        · exact .inr (.inr (.inr ⟨rfl, .inl (h.addr 3 (by norm_num))⟩))
        · exact .inr (.inr (.inr ⟨rfl, .inr (h.addr 4 (by norm_num))⟩))
        · exact absurd rfl hne
      · omega

theorem tablePage_lt {level pt : ℕ} (ht : TablePage m (T 0 * 4096) level pt) :
    pt < memsizePhysical := by
  have hlt (j : Fin 5) : T j * 4096 < memsizePhysical := by
    have := h.lt j
    simp only [memsizePhysical]
    omega
  rcases h.tablePage ht with ⟨-, rfl⟩ | ⟨-, rfl⟩ | ⟨-, rfl⟩ | ⟨-, rfl | rfl⟩
  all_goals exact hlt _

theorem ownership {info : PageInfos} {owner : ℤ} (hinfo : ∀ j, info (T j) = ⟨owner, 1⟩) :
    checkPageTableOwnershipLevel m info owner 3 (T 0 * 4096) 1 := by
  have h3 : checkPageTableOwnershipLevel m info owner 1 (T 2 * 4096) 1 := by
    apply (ownershipLevel_succ (h.lt 2)).mpr
    refine ⟨hinfo 2, (ownershipEntries_two (h.lt 3) (h.lt 4) h.l3).mpr ?_⟩
    exact ⟨(ownershipLevel_zero (h.lt 3)).mpr (hinfo 3),
      (ownershipLevel_zero (h.lt 4)).mpr (hinfo 4)⟩
  have h2 : checkPageTableOwnershipLevel m info owner 2 (T 1 * 4096) 1 :=
    (ownershipLevel_succ (h.lt 1)).mpr
      ⟨hinfo 1, (ownershipEntries_one (h.lt 2) h.l2).mpr h3⟩
  refine (ownershipLevel_succ (h.lt 0)).mpr ⟨hinfo 0, fun index hindex hne => ?_⟩
  rw [h.l1 _ hindex] at hne ⊢
  split_ifs at hne ⊢
  · rwa [h.addr 1 h.flags.2]
  · exact absurd rfl hne

/-- The upper entries on the way to an address of the first gigabyte. -/
theorem pathEntry_upper {va : ℕ} (hva : va < 2 ^ 21) :
    pathEntry m (T 0 * 4096) va 0 = T 1 * 4096 + f ∧
      pathEntry m (T 0 * 4096) va 1 = T 2 * 4096 + 7 ∧
      pathEntry m (T 0 * 4096) va 2 = T 3 * 4096 + 7 := by
  have i0 : pageindex va 0 = 0 := by rw [pageindex_zero]; omega
  have i1 : pageindex va 1 = 0 := by rw [pageindex_one]; omega
  have i2 : pageindex va 2 = 0 := by rw [pageindex_two]; omega
  have h0 : pathEntry m (T 0 * 4096) va 0 = T 1 * 4096 + f := by
    rw [pathEntry, i0, pathTable, h.l1 0 (by norm_num), if_pos rfl]
  have h1 : pathEntry m (T 0 * 4096) va 1 = T 2 * 4096 + 7 := by
    have ht : pathTable m (T 0 * 4096) va 1 = T 1 * 4096 := (congrArg pteAddr h0).trans
      (h.addr 1 h.flags.2)
    rw [pathEntry, i1, ht, h.l2 0 (by norm_num), if_pos rfl]
  have h2 : pathEntry m (T 0 * 4096) va 2 = T 3 * 4096 + 7 := by
    have ht : pathTable m (T 0 * 4096) va 2 = T 2 * 4096 := (congrArg pteAddr h1).trans
      (h.addr 2 (by norm_num))
    rw [pathEntry, i2, ht, h.l3 0 (by norm_num), if_pos rfl]
  exact ⟨h0, h1, h2⟩

end UpperTables

/-- The root entry of `T` without its write bit, which `virtual_memory_lookup` does not miss. -/
def denyRoot (m : Memory) (T : Fin 5 → ℕ) : Memory := setEntry m (T 0 * 4096) 0 (T 1 * 4096 + 5)

section deny
variable {m : Memory} {T : Fin 5 → ℕ} {leaf : ℕ → ℕ} (h : Tree m T leaf)

include h

theorem Tree.entry_denyRoot (t : ℕ) {i : ℕ} (hi : i < 512) :
    entry (denyRoot m T) (t * 4096) i =
      if t = T 0 ∧ i = 0 then T 1 * 4096 + 5 else entry m (t * 4096) i :=
  entry_setEntry m (T 0) t (by norm_num) hi (by have := h.lt 1; omega)

theorem Tree.entry_denyRoot_of_ne {j : Fin 5} (hj : j ≠ 0) {i : ℕ} (hi : i < 512) :
    entry (denyRoot m T) (T j * 4096) i = entry m (T j * 4096) i := by
  rw [h.entry_denyRoot _ hi, if_neg fun hc => hj (h.inj hc.1)]

theorem Tree.denied : UpperTables (denyRoot m T) T 5 := by
  refine ⟨h.lt, by norm_num, fun i hi => ?_, fun i hi => ?_, fun i hi => ?_⟩
  · rw [h.entry_denyRoot _ hi]
    by_cases h0 : i = 0
    · rw [if_pos ⟨rfl, h0⟩, if_pos h0]
    · rw [if_neg fun hc => h0 hc.2, h.l1 i hi, if_neg h0, if_neg h0]
  · rw [h.entry_denyRoot_of_ne (by decide) hi, h.l2 i hi]
  · rw [h.entry_denyRoot_of_ne (by decide) hi, h.l3 i hi]

theorem Tree.lookup_denyRoot (va : ℕ) :
    virtualMemoryLookup (denyRoot m T) (T 0 * 4096) va = virtualMemoryLookup m (T 0 * 4096) va := by
  have hsame {j : Fin 5} (hj : j ≠ 0) (l : ℕ) :
      entry (denyRoot m T) (T j * 4096) (pageindex va l) = entry m (T j * 4096) (pageindex va l) :=
    h.entry_denyRoot_of_ne hj (pageindex_lt va l)
  have hleaf : entry (denyRoot m T) (leafTable T (va / 4096 % 1024) * 4096) (pageindex va 3) =
      entry m (leafTable T (va / 4096 % 1024) * 4096) (pageindex va 3) := by
    unfold leafTable
    split_ifs
    · exact hsame (by decide) 3
    · exact hsame (by decide) 3
  have hmask : (T 1 * 4096 + 5) &&& lnot64 6 = T 1 * 4096 + 1 :=
    frame_and_lnot64 (by have := h.lt 1; omega) (by norm_num) (by norm_num)
  have hroot : pteW ||| pteU ||| pteP = 0 * 4096 + 7 := rfl
  suffices hlevels : lookupLevels (denyRoot m T) va 4 0 (T 0 * 4096) (0 * 4096 + 7) =
      lookupLevels m va 4 0 (T 0 * 4096) (0 * 4096 + 7) by
    simp only [virtualMemoryLookup, hroot, hlevels]
  have hzero := h.denied.l1 _ (pageindex_lt va 0)
  have hone : pageindex va 0 = 0 → lookupLevels (denyRoot m T) va 4 0 (T 0 * 4096) (0 * 4096 + 7) =
      lookupLevels (denyRoot m T) va 3 1 (T 1 * 4096) (T 1 * 4096 + 1) := by
    intro h0
    rw [if_pos h0] at hzero
    rw [lookupLevels_present _ _ _ _ _ _ (by norm_num), hzero]
    change lookupLevels _ _ _ _ (pteAddr ((T 1 * 4096 + 5) &&& lnot64 6))
      ((T 1 * 4096 + 5) &&& lnot64 6) = _
    rw [hmask, pteAddr_frame (by have := h.lt 1; omega) (by norm_num)]
  have hin (he : entry m (T 0 * 4096) (pageindex va 0) = T 1 * 4096 + 7) : pageindex va 0 = 0 := by
    rw [h.l1 _ (pageindex_lt va 0)] at he
    split_ifs at he with h0
    exact h0
  rcases h.upper_entries va with ⟨h0, e0, -⟩ | ⟨e0, ⟨e1, -⟩ | ⟨e1, ⟨e2, -⟩ | ⟨e2, -⟩⟩⟩
  · rw [if_neg h0] at hzero
    rw [lookupLevels_from_seven_zero hzero, lookupLevels_from_seven_zero e0]
  · rw [hone (hin e0), lookupLevels_from_seven (h.lt 1) e0, lookupLevels_from_one,
      lookupLevels_from_one, hsame (by decide), e1, lookupLevels_absent _ _ _ _ _ _ rfl,
      lookupLevels_absent _ _ _ _ _ _ rfl]
  · rw [hone (hin e0), lookupLevels_from_seven (h.lt 1) e0, lookupLevels_from_one,
      lookupLevels_from_one, hsame (by decide), e1,
      pteAddr_frame (by have := h.lt 2; omega) (by norm_num), lookupLevels_from_seven_zero e2,
      lookupLevels_from_seven_zero ((hsame (by decide) 2).trans e2)]
  · rw [hone (hin e0), lookupLevels_from_seven (h.lt 1) e0, lookupLevels_from_one,
      lookupLevels_from_one, hsame (by decide), e1,
      pteAddr_frame (by have := h.lt 2; omega) (by norm_num),
      lookupLevels_from_seven (h.leafTable_lt _) e2,
      lookupLevels_from_seven (h.leafTable_lt _) ((hsame (by decide) 2).trans e2),
      lookupLevels_from_one, lookupLevels_from_one, hleaf]
    rfl

end deny

open World

section denied
variable {L : KernelLayout} {k : Kernel} {w : World} (h : Sim L k w) (hw : w.Wf L)

include h

theorem Sim.tablesInMemory : k.TablesInMemory L := by
  constructor
  · intro p hp level pt ht
    have hlive := (h.live p).mp hp.2.1
    rw [h.mem.root p hlive] at ht
    exact (h.mem.tree p hlive).upperTables.tablePage_lt ht
  · intro level pt ht
    rw [← L.tables_zero] at ht
    exact h.mem.kernel.upperTables.tablePage_lt ht

theorem Sim.upperWritable : UpperWritable L k := by
  intro p hp va hdata i hi
  have hlive := (h.live p).mp hp.2.1
  have hva : va < 2 ^ 21 := by
    have hend := L.end_le
    have hpage := hdata.1
    unfold KernelPage at hpage
    simp only [kernelStackTop, pageSize] at hpage
    omega
  rw [h.mem.root p hlive]
  obtain ⟨h0, h1, h2⟩ := (h.mem.tree p hlive).upperTables.pathEntry_upper hva
  have hflag (t : ℕ) : (t * 4096 + 7) &&& pteW ≠ 0 := by
    rw [frame_and_flag (by norm_num) (by norm_num)]
    exact (by decide : 7 &&& 2 ≠ 0)
  obtain rfl | rfl | rfl : i = 0 ∨ i = 1 ∨ i = 2 := by omega
  · rw [h0]
    exact hflag _
  · rw [h1]
    exact hflag _
  · rw [h2]
    exact hflag _

include hw

/-- A running process whose root entry denies writing passes the check. -/
theorem Sim.denied (hchk : w.Checked L) {p : ℕ} (hp : w.Live p) :
    checkVirtualMemory L { k with mem := denyRoot k.mem (w.frames p) } ∧
      ({ k with mem := denyRoot k.mem (w.frames p) } : Kernel).TablesInMemory L ∧
      ¬ UpperWritable L { k with mem := denyRoot k.mem (w.frames p) } := by
  have hc := (h.check_iff hw).mpr hchk
  have htree := h.mem.tree p hp
  have hdenied := htree.denied
  have ha : AgreeOff 4096 (· = w.frames p 0) k.mem (denyRoot k.mem (w.frames p)) := by
    unfold denyRoot setEntry
    exact agreeOff_storeLE 4096 k.mem (w.frames p 0) (8 * 0) _ 8 (by norm_num)
  have hkernel : Tree (denyRoot k.mem (w.frames p)) L.tables kernelOwnLeaf :=
    h.mem.kernel.frame ha fun j hj => hw.frames_ne_kernel hp 0 j hj.symm
  have hother (q : ℕ) (hq : w.Live q) (hne : q ≠ p) :
      Tree (denyRoot k.mem (w.frames p)) (w.frames q) (w.leaf q) :=
    (h.mem.tree q hq).frame ha fun j hj => hne (hw.frames_inj hq hp hj).1
  have hlook (va : ℕ) := htree.lookup_denyRoot va
  have hmap := (hc.2.2.2.1 p (hw.live_lt hp) ((h.live p).mpr hp) (h.pagetable_ne_kernel hw hp)).1
  rw [h.mem.root p hp] at hmap
  obtain ⟨hzero, -, -, -, howners⟩ := hc
  generalize denyRoot k.mem (w.frames p) = m' at *
  have hupper (q : ℕ) (hq : w.Live q) : ∃ f, UpperTables m' (w.frames q) f := by
    obtain rfl | hne := eq_or_ne q p
    · exact ⟨5, hdenied⟩
    · exact ⟨7, (hother q hq hne).upperTables⟩
  have hmappings (q : ℕ) (hq : w.Live q) : checkPageTableMappings L m' (w.frames q 0 * 4096) := by
    obtain rfl | hne := eq_or_ne q p
    · simpa only [checkPageTableMappings, hlook] using hmap
    · exact checkPageTableMappings_tree (hother q hq hne) (w.leaf_kernel q)
  constructor
  · refine ⟨hzero, ?_, h.kernel_ownership hw hkernel, fun q hq hlq hne => ?_, howners⟩
    · rw [← L.tables_zero]
      exact checkPageTableMappings_tree hkernel kernelOwnLeaf_kernel
    · have hq' := (h.live q).mp hlq
      obtain ⟨f, hf⟩ := hupper q hq'
      rw [checkPageTableOwnership, if_neg hne]
      dsimp only
      rw [h.mem.root q hq']
      refine ⟨hmappings q hq', hf.ownership fun j => ?_⟩
      rw [h.info]
      exact hchk.tables q hq' j
  constructor
  · constructor
    · intro q hq level pt ht
      have hq' := (h.live q).mp hq.2.1
      obtain ⟨f, hf⟩ := hupper q hq'
      dsimp only at ht
      rw [h.mem.root q hq'] at ht
      exact hf.tablePage_lt ht
    · intro level pt ht
      rw [← L.tables_zero] at ht
      exact hkernel.upperTables.tablePage_lt ht
  · intro hall
    have hown : ({ k with mem := m' } : Kernel).OwnsTable L p :=
      ⟨hw.live_lt hp, (h.live p).mpr hp, h.pagetable_ne_kernel hw hp⟩
    have hstack : KernelData L (kernelStackTop - pageSize) :=
      ⟨.inr (by decide), .inr (by decide)⟩
    have hflag := hall p hown _ hstack 0 (by norm_num)
    dsimp only at hflag
    rw [h.mem.root p hp, (hdenied.pathEntry_upper (by decide)).1,
      frame_and_flag (by norm_num) (by norm_num)] at hflag
    exact hflag (by decide)

end denied

/-- Every page table of a freshly booted kernel meets the condition. -/
theorem checkSound_sample : ∃ M, Machine.Boots sampleLayout (sampleImages 3) (some "fork") M ∧
    CheckSound sampleLayout M.kernel := by
  obtain ⟨M, hM⟩ := sample_boots sampleLayout 3 (some "fork") (by decide)
  obtain ⟨w, hw, hrep, -⟩ := sample_world sampleLayout (by norm_num) hM
  have hcheck := (hrep.sim.check_iff hrep.wf).mpr (hw.booting.checked hw.complete)
  have hsound := (checkSound_iff hcheck hrep.sim.tablesInMemory).mpr hrep.sim.upperWritable
  exact ⟨M, hM, hsound⟩

/-- The root entry of a running process may deny writing: the check passes all the same. -/
theorem not_checkSound : ¬ ∀ (L : KernelLayout) (k : Kernel), checkVirtualMemory L k →
    k.TablesInMemory L → CheckSound L k := by
  intro hall
  obtain ⟨M, hM⟩ := sample_boots sampleLayout 3 (some "fork") (by decide)
  obtain ⟨w, hw, hrep, -⟩ := sample_world sampleLayout (by norm_num) hM
  obtain ⟨hcheck, hmem, hnot⟩ := hrep.sim.denied hrep.wf (hw.booting.checked hw.complete)
    (p := 1) (by rw [Live, hw.state]; decide)
  exact hnot ((checkSound_iff hcheck hmem).mp (hall _ _ hcheck hmem))

end WeensyOS
