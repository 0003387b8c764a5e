import WeensyOS.Discipline
import WeensyOS.MapRange

/-!
# `sys_page_alloc`

The address is an arbitrary 64-bit value of the caller. It is compared with `PROC_START_ADDR` after
a page has been taken, an unaligned one reaches an assertion of `virtual_memory_map`, and the result
of that function is ignored. Once there is a free page, the call is right on the aligned addresses
of the user range only.
-/

namespace WeensyOS
open ByteMemory

section contract
variable (k : Kernel) (reg : Registers) (cr2 : ℕ)

/-- The argument of the call. -/
def Kernel.allocArg (k : Kernel) : ℕ := k.currentProc.registers.regRdi.toNat

/-- In `k'` the page of `addr` is a page of its own, free in `k`, that the caller may write; all
other translations of the caller are those of `k`. -/
def PageGranted (k' : Kernel) (addr : ℕ) : Prop :=
  ∃ pn ∈ freePages k.pageinfo, k'.pageinfo pn = ⟨k.currentProc.pid, 1⟩ ∧
    ∀ va, walk k'.mem k.currentProc.pagetable va =
      if pageIndex36 va = pageIndex36 addr then some ⟨pn * 4096 + va % 4096, true, true⟩
      else walk k.mem k.currentProc.pagetable va

/-- `INT_SYS_PAGE_ALLOC` returns; it returns 0 exactly on the right addresses while pages are free,
and then has granted a page; when it returns -1 it has changed neither `pageinfo` nor memory. -/
def PageAllocHonoured : Prop :=
  ∃ k', dispatch k reg cr2 = .ok (k', .break) ∧
    (k'.currentProc.registers.regRax = 0 ∨ k'.currentProc.registers.regRax = -1) ∧
    (k'.currentProc.registers.regRax = 0 ↔
      inUserRange k.allocArg ∧ (freePages k.pageinfo).Nonempty) ∧
    (k'.currentProc.registers.regRax = 0 → PageGranted k k' k.allocArg) ∧
    (k'.currentProc.registers.regRax = -1 → k'.pageinfo = k.pageinfo ∧ k'.mem = k.mem)

end contract

section tree
variable {m : Memory} {T : Fin 5 → ℕ} {leaf : ℕ → ℕ} (h : Tree m T leaf)

include h

/-- The translations after a new leaf entry. -/
theorem Tree.walk_setLeaf {addr pn : ℕ} (hpn : pn < 512) (hin : inTree addr) (va : ℕ) :
    walk (setEntry m (leafTable T (addr / 4096 % 1024) * 4096) (addr / 4096 % 1024 % 512)
        (pn * 4096 + 7)) (T 0 * 4096) va =
      if pageIndex36 va = pageIndex36 addr then some ⟨pn * 4096 + va % 4096, true, true⟩
      else walk m (T 0 * 4096) va := by
  have hset := h.setLeaf (i := addr / 4096 % 1024) (Nat.mod_lt _ (by norm_num))
    (show pn * 4096 + 7 < 2 ^ 64 by omega)
  rw [hset.walk_eq, h.walk_eq]
  have hsplit : pageIndex36 va = pageIndex36 addr ↔
      inTree va ∧ va / 4096 % 1024 = addr / 4096 % 1024 := by
    unfold pageIndex36
    unfold inTree at hin ⊢
    omega
  by_cases hva : inTree va
  · rw [if_pos hva, if_pos hva]
    by_cases hidx : va / 4096 % 1024 = addr / 4096 % 1024
    · have hflag (g : ℕ) (hg : g < 4096) : (pn * 4096 + 7) &&& g = 7 &&& g :=
        frame_and_flag (by norm_num) hg
      rw [if_pos (hsplit.mpr ⟨hva, hidx⟩), hidx, Function.update_self, Translation.ofEntry,
        hflag 1 (by norm_num), hflag 2 (by norm_num), hflag 4 (by norm_num),
        pteAddr_frame (by omega) (by norm_num), pageOffset_eq]
      rfl
    · rw [if_neg fun hc => hidx (hsplit.mp hc).2, Function.update_of_ne hidx]
  · rw [if_neg hva, if_neg hva, if_neg fun hc => hva (hsplit.mp hc).1]

end tree

/-- The kernel when the call returns `r`. -/
def Kernel.allocated (k : Kernel) (m : Memory) (info : PageInfos) (r : ℤ) : Kernel :=
  ({ k with mem := m, pageinfo := info } : Kernel).setRax k.current (BitVec.ofInt 64 r)

section dispatch
variable {k : Kernel} {reg : Registers} {cr2 : ℕ} (hreg : reg.regIntno.toNat = 51)

theorem Kernel.allocArg_lt (k : Kernel) : k.allocArg < 2 ^ 64 := BitVec.isLt _

@[simp] theorem Kernel.allocated_mem (m : Memory) (info : PageInfos) (r : ℤ) :
    (k.allocated m info r).mem = m := rfl

@[simp] theorem Kernel.allocated_pageinfo (m : Memory) (info : PageInfos) (r : ℤ) :
    (k.allocated m info r).pageinfo = info := rfl

@[simp] theorem Kernel.allocated_rax (m : Memory) (info : PageInfos) (r : ℤ) :
    (k.allocated m info r).currentProc.registers.regRax = BitVec.ofInt 64 r := by
  unfold allocated currentProc setRax
  rw [updateProc_current, updateProc_same]

include hreg in
theorem dispatch_allocPage : dispatch k reg cr2 = (do
    let s ← sysPageAllocFindFree k.mem k.pageinfo k.currentProc.pagetable k.currentProc.pid
      k.allocArg
    pure (k.allocated s.1 s.2.1 s.2.2, .break)) := by
  unfold dispatch
  rw [hreg]
  rfl

variable {T : Fin 5 → ℕ} {leaf : ℕ → ℕ} (h : Tree k.mem T leaf)
  (hpt : k.currentProc.pagetable = T 0 * 4096)

include hreg h hpt

/-- The ways out of `INT_SYS_PAGE_ALLOC` while a page is free. -/
theorem dispatch_allocPage_free {pn : ℕ} (hpn : lowestFree k.pageinfo = some pn) :
    dispatch k reg cr2 =
      if k.allocArg < procStartAddr then .ok (k.allocated k.mem
        (Function.update k.pageinfo pn ⟨toInt8 k.currentProc.pid, 1⟩) (-1), .break)
      else if k.allocArg % 4096 ≠ 0 then .error .assertion
      else .ok (k.allocated (if inTree k.allocArg then
            setEntry k.mem (leafTable T (k.allocArg / 4096 % 1024) * 4096)
              (k.allocArg / 4096 % 1024 % 512) (pn * 4096 + 7)
          else k.mem)
        (Function.update k.pageinfo pn ⟨toInt8 k.currentProc.pid, 1⟩) 0, .break) := by
  rw [dispatch_allocPage hreg, hpt, h.sysPageAlloc _ _ k.allocArg_lt, hpn]
  change (if k.allocArg < procStartAddr then _ else _) >>= _ = _
  split_ifs <;> rfl

/-- `sys_page_alloc` meets its contract exactly when no page is free or the address is an aligned
one of the user range. -/
theorem pageAllocHonoured_iff (hpid : k.currentProc.pid < nProc) :
    PageAllocHonoured k reg cr2 ↔ freePages k.pageinfo = ∅ ∨ inUserRange k.allocArg := by
  have hpid' : toInt8 (k.currentProc.pid : ℤ) = k.currentProc.pid := by
    apply toInt8_eq_self <;> simp only [nProc] at hpid <;> omega
  cases hpn : lowestFree k.pageinfo with
  | none =>
      have hempty := freePages_eq_empty.mpr hpn
      have hstep : dispatch k reg cr2 = .ok (k.allocated k.mem k.pageinfo (-1), .break) := by
        rw [dispatch_allocPage hreg, hpt, h.sysPageAlloc _ _ k.allocArg_lt, hpn]
        rfl
      refine iff_of_true ⟨_, hstep, .inr ?_, ?_, ?_, ?_⟩ (.inl hempty)
      · exact k.allocated_rax _ _ _
      · rw [k.allocated_rax, hempty]
        simp
      · rw [k.allocated_rax]
        exact fun hc => absurd hc (by decide)
      · exact fun _ => ⟨rfl, rfl⟩
  | some pn =>
      obtain ⟨h1, h512, hz⟩ := lowestFree_eq_some hpn
      have hmem : pn ∈ freePages k.pageinfo := by simp [freePages, h1, h512, hz]
      have hne : freePages k.pageinfo ≠ ∅ := Finset.ne_empty_of_mem hmem
      have hstep : dispatch k reg cr2 = _ := dispatch_allocPage_free hreg h hpt hpn
      rw [or_iff_right hne]
      constructor
      · rintro ⟨k', hk', -, hzero, -, hfail⟩
        rw [hstep] at hk'
        by_cases hlow : k.allocArg < procStartAddr
        · -- The page stays assigned although the call fails.
          rw [if_pos hlow] at hk'
          obtain ⟨rfl, -⟩ := Prod.mk.inj (Except.ok.inj hk')
          have hinfo := (hfail (k.allocated_rax _ _ _)).1
          have hcount := congrArg (fun i => (i pn).refcount) hinfo
          simp only [Kernel.allocated_pageinfo, Function.update_self, hz] at hcount
          exact absurd hcount one_ne_zero
        · rw [if_neg hlow] at hk'
          by_cases hal : k.allocArg % 4096 = 0
          · rw [if_neg (not_not.mpr hal)] at hk'
            obtain ⟨rfl, -⟩ := Prod.mk.inj (Except.ok.inj hk')
            exact (hzero.mp (k.allocated_rax _ _ _)).1
          · rw [if_pos hal] at hk'
            cases hk'
      · rintro ⟨hal, hlo, hhi⟩
        have hin : inTree k.allocArg := by
          unfold inTree
          simp only [memsizeVirtual] at hhi
          omega
        rw [if_neg (not_lt.mpr hlo), if_neg (not_not.mpr hal), if_pos hin] at hstep
        refine ⟨_, hstep, .inl (k.allocated_rax _ _ _), ?_, fun _ => ?_, fun hc => ?_⟩
        · rw [k.allocated_rax]
          exact iff_of_true rfl ⟨⟨hal, hlo, hhi⟩, pn, hmem⟩
        · refine ⟨pn, hmem, ?_, fun va => ?_⟩
          · rw [Kernel.allocated_pageinfo, Function.update_self, hpid']
          · rw [Kernel.allocated_mem, hpt]
            exact h.walk_setLeaf h512 hin va
        · rw [k.allocated_rax] at hc
          exact absurd hc (by decide)

end dispatch

/-! A caller that has mapped nothing yet. -/

def emptyTables (T : Fin 5 → ℕ) : Memory :=
  setEntry (setEntry (setEntry (setEntry (fun _ => 0) (T 0 * 4096) 0 (T 1 * 4096 + 7))
    (T 1 * 4096) 0 (T 2 * 4096 + 7)) (T 2 * 4096) 0 (T 3 * 4096 + 7)) (T 2 * 4096) 1
    (T 4 * 4096 + 7)

theorem emptyTables_tree {T : Fin 5 → ℕ} (hpos : ∀ j, 0 < T j) (hlt : ∀ j, T j < 512)
    (hinj : Function.Injective T) : Tree (emptyTables T) T fun _ => 0 :=
  Tree.of_empty hpos hlt hinj fun _ _ _ => loadLE_zero fun _ _ _ => rfl

/-- Its tables are the pages 8 to 12. -/
def allocKernel (addr : BitVec 64) : Kernel where
  mem := emptyTables fun j => 8 + j
  pageinfo := fun pn => if 8 ≤ pn ∧ pn < 13 then ⟨1, 1⟩ else ⟨0, 0⟩
  processes := fun _ => ⟨1, { Registers.ofWords [] with regRdi := addr }, .runnable, 0x8000, false⟩
  current := 1
  ticks := 0
  dispGlobal := true
  lastTicks := 0
  showing := 0

theorem allocKernel_tree (addr : BitVec 64) :
    Tree (allocKernel addr).mem (fun j => 8 + j) fun _ => 0 :=
  emptyTables_tree (T := fun j => 8 + j) (fun j => by omega) (fun j => by omega)
    fun i j hij => Fin.ext (Nat.add_left_cancel hij)

/-- The registers of a process that executes `INT_SYS_PAGE_ALLOC`. -/
def allocTrap : Registers := { Registers.ofWords [] with regIntno := 51 }

theorem pageAllocHonoured_sample : PageAllocHonoured (allocKernel 0x100000) allocTrap 0 :=
  (pageAllocHonoured_iff (T := fun j => 8 + j) rfl (allocKernel_tree _) rfl (by decide)).mpr
    (.inr (by decide))

/-- An unaligned address panics the kernel. -/
theorem not_pageAllocHonoured : ¬ ∀ (k : Kernel) (reg : Registers) (cr2 : ℕ) (T : Fin 5 → ℕ)
    (leaf : ℕ → ℕ), Tree k.mem T leaf → (∀ j, (k.pageinfo (T j)).refcount ≠ 0) →
    k.currentProc.pagetable = T 0 * 4096 → k.currentProc.pid < nProc → reg.regIntno.toNat = 51 →
    PageAllocHonoured k reg cr2 := by
  intro hall
  have htree := allocKernel_tree 0x100010
  obtain ⟨k', hk', -⟩ := hall (allocKernel 0x100010) allocTrap 0 _ _ htree (by decide) rfl
    (by decide) rfl
  rw [dispatch_allocPage_free rfl htree rfl
      (show lowestFree (allocKernel 0x100010).pageinfo = some 1 by decide), if_neg (by decide),
    if_pos (by decide)] at hk'
  cases hk'

/-! The two allocators search the array on their own: `alloc_page_process` may run past its end,
`sys_page_alloc_find_free` gives up at the last page. -/

def LowestFreePage (info : PageInfos) (pn : ℕ) : Prop :=
  1 ≤ pn ∧ pn < nPages ∧ (info pn).refcount = 0 ∧ ∀ q, 1 ≤ q → q < pn → (info q).refcount ≠ 0

theorem lowestFree_iff {info : PageInfos} {pn : ℕ} :
    lowestFree info = some pn ↔ LowestFreePage info pn := by
  obtain ⟨h1, h2, h3, h4⟩ := findFree_spec info 511 1
  unfold lowestFree LowestFreePage
  simp only [nPages, Nat.reduceSub]
  constructor
  · intro h
    split_ifs at h with hlt
    obtain rfl := Option.some.inj h
    exact ⟨h1, hlt, h4 (by omega), h3⟩
  · rintro ⟨hp1, hp2, hp3, hp4⟩
    have hpn : findFree info 511 1 = pn := by
      rcases lt_trichotomy (findFree info 511 1) pn with hlt | heq | hgt
      · exact absurd (h4 (by omega)) (hp4 _ h1 hlt)
      · exact heq
      · exact absurd hp3 (h3 pn hp1 hgt)
    rw [hpn, if_pos hp2]

/-- What the two allocators do in one state. A page found by `sys_page_alloc_find_free` is passed on
to `virtual_memory_map`, which may panic. -/
structure AllocatorsAgree (m : Memory) (info : PageInfos) (pagetable : ℕ) (pid : ℤ) (addr : ℕ) :
    Prop where
  found : ∀ pn, LowestFreePage info pn →
    allocPageProcess info pid = (Function.update info pn ⟨toInt8 pid, 1⟩, pageAddress pn) ∧
    sysPageAllocFindFree m info pagetable pid addr =
      virtualMemoryMap m pagetable addr (pageAddress pn) pageSize (pteP ||| pteW ||| pteU) >>=
        fun r => .ok (r.1, (allocPageProcess info pid).1, 0)
  null : (allocPageProcess info pid).2 = 0 ↔ ∀ pn, ¬ LowestFreePage info pn
  full : (∀ pn, ¬ LowestFreePage info pn) → ∀ pn, 1 ≤ pn → pn < nPages → (info pn).refcount ≠ 0
  kept : (allocPageProcess info pid).2 = 0 → (allocPageProcess info pid).1 = info ∧
    sysPageAllocFindFree m info pagetable pid addr = .ok (m, info, -1)
  fails : (∃ m' info', sysPageAllocFindFree m info pagetable pid addr = .ok (m', info', -1)) ↔
    (allocPageProcess info pid).2 = 0
  owner : -128 ≤ pid → pid < 128 → toInt8 pid = pid

theorem allocators_agree (m : Memory) (info : PageInfos) (pagetable : ℕ) (pid : ℤ) {addr : ℕ}
    (haddr : procStartAddr ≤ addr) : AllocatorsAgree m info pagetable pid addr := by
  have hsys := sysPageAllocFindFree_eq m info pagetable pid addr
  simp only [if_neg (not_lt.mpr haddr)] at hsys
  have howner (h1 : -128 ≤ pid) (h2 : pid < 128) : toInt8 pid = pid := by
    unfold toInt8
    omega
  cases hpn : lowestFree info with
  | none =>
      have hnone (pn : ℕ) : ¬ LowestFreePage info pn := by
        rw [← lowestFree_iff, hpn]
        simp
      have halloc : allocPageProcess info pid = (info, 0) := by rw [allocPageProcess_eq, hpn]
      rw [hpn] at hsys
      refine ⟨fun pn h => absurd h (hnone pn), ?_, fun _ => lowestFree_eq_none.mp hpn, ?_,
        ?_, howner⟩
      · rw [halloc]
        exact iff_of_true rfl hnone
      · rw [halloc]
        exact fun _ => ⟨rfl, hsys⟩
      · rw [halloc]
        exact iff_of_true ⟨m, info, hsys⟩ rfl
  | some pn =>
      obtain ⟨hpos, hlt, -⟩ := lowestFree_eq_some hpn
      have hlow := lowestFree_iff.mp hpn
      have halloc : allocPageProcess info pid =
          (Function.update info pn ⟨toInt8 pid, 1⟩, pageAddress pn) := by
        rw [allocPageProcess_eq, hpn, pageAddress_eq]
      have hne : (allocPageProcess info pid).2 ≠ 0 := by
        rw [halloc, pageAddress_eq]
        omega
      rw [hpn] at hsys
      refine ⟨fun pn' h => ?_, iff_of_false hne fun h => h pn hlow, fun h => absurd hlow (h pn),
        fun h => absurd h hne, iff_of_false ?_ hne, howner⟩
      · obtain rfl := Option.some.inj (hpn.symm.trans (lowestFree_iff.mpr h))
        rw [halloc]
        exact ⟨rfl, hsys⟩
      · rintro ⟨m', info', h⟩
        rw [hsys, bind_eq_ok] at h
        obtain ⟨r, -, h⟩ := h
        cases h

/-- Only the last page is free. -/
theorem allocators_agree_last : AllocatorsAgree (fun _ => 0)
    (fun pn => if pn = 511 then ⟨0, 0⟩ else ⟨-1, 1⟩) 0x8000 3 0x100000 :=
  allocators_agree _ _ _ _ (by decide)

end WeensyOS
