import WeensyOS.Ownership

/-!
# Accesses to `pageinfo`

For each function of the kernel that reads or writes `pageinfo[]`, the list of the indices it uses,
in the order in which the code uses them; reading and writing one entry in a row counts once. An
index comes from a loop counter, from a page-table page, or from a lookup, which yields -1 for an
unmapped page. The kernel guards against -1 everywhere but in `INT_SYS_FORK`.
-/

namespace WeensyOS
open ByteMemory World

/-- Indices of an array with `NPAGES` entries. -/
def InBounds (l : List ℤ) : Prop := ∀ i ∈ l, 0 ≤ i ∧ i < nPages

instance (l : List ℤ) : Decidable (InBounds l) := inferInstanceAs (Decidable (∀ i ∈ l, _))

/-! The allocators. -/

def findFreeIndices (info : PageInfos) : ℕ → ℕ → List ℤ
  | 0, _ => []
  | n + 1, p => (p : ℤ) :: if (info p).refcount = 0 then [] else findFreeIndices info n (p + 1)

def assignPhysicalPageIndices (addr : ℕ) : List ℤ :=
  if addr &&& 0xFFF ≠ 0 ∨ addr ≥ memsizePhysical then [] else [pageNumber addr]

def allocPageProcessIndices (info : PageInfos) : List ℤ :=
  findFreeIndices info (nPages - 1) 1 ++
    assignPhysicalPageIndices (pageAddress (findFree info (nPages - 1) 1))

def sysPageAllocFindFreeIndices (info : PageInfos) : List ℤ :=
  findFreeIndices info (nPages - 1) 1 ++
    match findFreeOrFail info (nPages - 1) 1 with
    | none => []
    | some p => assignPhysicalPageIndices (pageAddress p)

/-- The first `n` allocations of `duplicate_pagetable`. -/
def duplicatePagetableIndices (pid : ℤ) : ℕ → PageInfos → List ℤ
  | 0, _ => []
  | n + 1, info =>
    allocPageProcessIndices info ++ duplicatePagetableIndices pid n (allocPageProcess info pid).1

/-! `INT_SYS_FORK`. -/

def forkPageIndices (parent child v : ℕ) (s : Memory × PageInfos) : List ℤ :=
  let map := virtualMemoryLookup s.1 parent v
  if map.pa ≠ consoleAddr ∧ map.perm &&& pteW ≠ 0 then allocPageProcessIndices s.2
  else
    match virtualMemoryMap s.1 child v map.pa pageSize map.perm with
    | .ok _ => [map.pn]
    | .error _ => []

def forkLoopIndices (parent child : ℕ) (pid : ℤ) : ℕ → ℕ → Memory × PageInfos → List ℤ
  | 0, _, _ => []
  | n + 1, v, s =>
    forkPageIndices parent child v s ++
      match forkPage parent child pid v s with
      | .ok s => forkLoopIndices parent child pid n (v + pageSize) s
      | .error _ => []

def sysForkIndices (k : Kernel) : List ℤ :=
  match findFreeSlot k.states (nProc - 1) 1 with
  | none => []
  | some c =>
    let parent := k.currentProc.pagetable
    duplicatePagetableIndices c 5 k.pageinfo ++
      match duplicatePagetable k.mem k.pageinfo parent c with
      | .ok (m, info, pt) =>
        if pt ≠ 0 then forkLoopIndices parent pt c userPages procStartAddr (m, info) else []
      | .error _ => []

/-! `INT_SYS_EXIT`. -/

def exitTableIndices (m : Memory) (pagetable : ℕ) : List ℤ :=
  let l1 := pagetable
  let l2 := pteAddr (entry m l1 0)
  let l3 := pteAddr (entry m l2 0)
  let l4₁ := pteAddr (entry m l3 0)
  let l4₂ := pteAddr (entry m l3 1)
  [l1, l2, l3, l4₁, l4₂].map pageNumber

def exitPageIndices (map : VaMapping) : List ℤ :=
  if map.perm &&& pteW = 0 ∧ map.pn > 0 then [map.pn]
  else if map.pn > 0 ∧ map.perm &&& pteW ≠ 0 then [map.pn]
  else []

def sysExitIndices (k : Kernel) : List ℤ :=
  let pt := k.currentProc.pagetable
  exitTableIndices k.mem pt ++ (List.range userPages).flatMap (fun i =>
    if pt ≠ 0 then
      exitPageIndices (virtualMemoryLookup k.mem pt (procStartAddr + i * pageSize))
    else [])

/-! `check_virtual_memory`. A failed assertion would end the check; the lists go on, so they hold at
least the indices in use. -/

def ownershipLevelIndices (m : Memory) : ℕ → ℕ → List ℤ
  | 0, pt => if pageNumber pt < nPages then [pageNumber pt] else []
  | n + 1, pt =>
    if pageNumber pt < nPages then
      pageNumber pt :: (List.range nPagetableEntries).flatMap (fun index =>
        if entry m pt index ≠ 0 then ownershipLevelIndices m n (pteAddr (entry m pt index)) else [])
    else []

def checkVirtualMemoryIndices (L : KernelLayout) (k : Kernel) : List ℤ :=
  ownershipLevelIndices k.mem 3 L.kernelPagetables ++
  (List.range nProc).flatMap (fun pid =>
    if (k.processes pid).state ≠ .free ∧ (k.processes pid).pagetable ≠ L.kernelPagetables then
      ownershipLevelIndices k.mem 3 (k.processes pid).pagetable
    else []) ++
  (List.range nPages).map (fun pn : ℕ => (pn : ℤ))

/-! The memory viewers. -/

def memshowPhysicalIndices : List ℤ := (List.range nPages).map (fun pn : ℕ => (pn : ℤ))

def memshowVirtualPageIndices (vam : VaMapping) : List ℤ :=
  if vam.pn < 0 then [] else if vam.pa < memsizePhysical then [vam.pn] else []

def memshowVirtualIndices (info : PageInfos) (pagetable : ℕ) : List ℕ → Memory → List ℤ
  | [], _ => []
  | pn :: pns, m =>
    memshowVirtualPageIndices (virtualMemoryLookup m pagetable (pn * pageSize)) ++
      match memshowVirtualPage info pagetable m pn with
      | .ok m => memshowVirtualIndices info pagetable pns m
      | .error _ => []

def memshowVirtualAnimateIndices (k : Kernel) : List ℤ :=
  let advance := k.lastTicks = 0 ∨ (k.ticks + 2 ^ 32 - k.lastTicks) % 2 ^ 32 ≥ 50
  let showing := skipFree k.states (2 * nProc + 1)
    (if advance then k.showing + 1 else k.showing) % nProc
  let pagetable := (k.processes showing).pagetable
  if (k.processes showing).state ≠ .free then
    memshowVirtualIndices k.pageinfo pagetable (List.range (memsizeVirtual / pageSize))
      (consolePrintf k.mem (cpos 10 26) 0x0F00
        (text "VIRTUAL ADDRESS SPACE FOR " ++ (formatD showing ++ text " ").take 3)).1
  else []

/-! `exception`. -/

def showMemoryIndices (L : KernelLayout) (k : Kernel) (reg : Registers) : List ℤ :=
  if showsMemory reg then
    checkVirtualMemoryIndices L k ++
      if checkVirtualMemory L k ∧ k.dispGlobal then
        memshowPhysicalIndices ++
          memshowVirtualAnimateIndices { k with mem := memshowPhysical k.mem k.pageinfo }
      else []
  else []

def dispatchIndices (k : Kernel) (reg : Registers) : List ℤ :=
  match reg.regIntno.toNat with
  | 51 => sysPageAllocFindFreeIndices k.pageinfo
  | 52 => sysForkIndices k
  | 53 => sysExitIndices k
  | _ => []

def exceptionIndices (L : KernelLayout) (k : Kernel) (reg : Registers) : List ℤ :=
  let k := k.updateProc k.current (fun q => { q with registers := reg })
  showMemoryIndices L k reg ++
    match showMemory L k reg with
    | .ok k => dispatchIndices k reg
    | .error _ => []

/-- The indices that the kernel uses while it handles a trap. User code uses none. -/
def Machine.indices (L : KernelLayout) (M : Machine) : Event → List ℤ
  | .store _ _ => []
  | .trap cpu t =>
    if M.outcome.resumed then exceptionIndices L M.kernel (Registers.ofWords (trapFrame cpu t))
    else []

section lists

@[simp] theorem inBounds_nil : InBounds [] := fun i hi => by cases hi

@[simp] theorem inBounds_append {l l' : List ℤ} :
    InBounds (l ++ l') ↔ InBounds l ∧ InBounds l' := List.forall_mem_append

@[simp] theorem inBounds_cons {i : ℤ} {l : List ℤ} :
    InBounds (i :: l) ↔ (0 ≤ i ∧ i < nPages) ∧ InBounds l := by
  simp only [InBounds, List.forall_mem_cons]

theorem inBounds_single {i : ℤ} : InBounds [i] ↔ 0 ≤ i ∧ i < nPages := by
  rw [inBounds_cons, and_iff_left inBounds_nil]

theorem inBounds_flatMap {α : Type*} {l : List α} {f : α → List ℤ} :
    InBounds (l.flatMap f) ↔ ∀ x ∈ l, InBounds (f x) := by
  simp only [InBounds, List.mem_flatMap]
  exact ⟨fun h x hx i hi => h i ⟨x, hx, hi⟩, fun h i ⟨x, hx, hi⟩ => h x hx i hi⟩

theorem inBounds_range {n : ℕ} (hn : n ≤ nPages) :
    InBounds ((List.range n).map (fun pn : ℕ => (pn : ℤ))) := by
  intro i hi
  obtain ⟨pn, hpn, rfl⟩ := List.mem_map.mp hi
  have hlt := List.mem_range.mp hpn
  exact ⟨Int.natCast_nonneg pn, by exact_mod_cast hlt.trans_le hn⟩

end lists

section allocators
variable (info : PageInfos)

theorem findFreeIndices_inBounds {n p : ℕ} (h : p + n ≤ 512) :
    InBounds (findFreeIndices info n p) := by
  induction n generalizing p with
  | zero => exact inBounds_nil
  | succ n ih =>
      rw [findFreeIndices, inBounds_cons]
      refine ⟨⟨by omega, by simp only [nPages]; omega⟩, ?_⟩
      split_ifs
      · exact inBounds_nil
      · exact ih (by omega)

theorem assignPhysicalPageIndices_inBounds (addr : ℕ) :
    InBounds (assignPhysicalPageIndices addr) := by
  unfold assignPhysicalPageIndices
  split_ifs with hc
  · exact inBounds_nil
  · obtain ⟨-, hlt⟩ := not_or.mp hc
    simp only [memsizePhysical] at hlt
    rw [inBounds_single, pageNumber_eq (by omega)]
    simp only [nPages]
    omega

/-- The allocators stay in bounds whatever `pageinfo` holds. -/
theorem allocPageProcessIndices_inBounds : InBounds (allocPageProcessIndices info) :=
  inBounds_append.mpr
    ⟨findFreeIndices_inBounds info (by norm_num), assignPhysicalPageIndices_inBounds _⟩

theorem sysPageAllocFindFreeIndices_inBounds : InBounds (sysPageAllocFindFreeIndices info) := by
  refine inBounds_append.mpr ⟨findFreeIndices_inBounds info (by norm_num), ?_⟩
  split
  · exact inBounds_nil
  · exact assignPhysicalPageIndices_inBounds _

theorem duplicatePagetableIndices_inBounds (pid : ℤ) (n : ℕ) :
    InBounds (duplicatePagetableIndices pid n info) := by
  induction n generalizing info with
  | zero => exact inBounds_nil
  | succ n ih => exact inBounds_append.mpr ⟨allocPageProcessIndices_inBounds info, ih _⟩

end allocators

/-! The functions change `pageinfo` only at the listed indices. -/

/-- Every entry off the list is kept. -/
def KeptOff (l : List ℤ) (info info' : PageInfos) : Prop :=
  ∀ pn : ℕ, (pn : ℤ) ∉ l → info' pn = info pn

section kept
variable {l l' : List ℤ} {info info' info'' : PageInfos} {m m' : Memory}

theorem KeptOff.refl (l : List ℤ) (info : PageInfos) : KeptOff l info info := fun _ _ => rfl

theorem KeptOff.append (h : KeptOff l info info') (h' : KeptOff l' info' info'') :
    KeptOff (l ++ l') info info'' := by
  intro pn hpn
  obtain ⟨hl, hl'⟩ := not_or.mp (mt List.mem_append.mpr hpn)
  exact (h' pn hl').trans (h pn hl)

theorem KeptOff.append_left (h : KeptOff l info info') (l' : List ℤ) :
    KeptOff (l ++ l') info info' := h.append (.refl l' info')

theorem KeptOff.append_right (h : KeptOff l' info info') (l : List ℤ) :
    KeptOff (l ++ l') info info' := (KeptOff.refl l info).append h

theorem keptOff_update {i : ℤ} (hi : 0 ≤ i) (info : PageInfos) (v : PageInfo) :
    KeptOff [i] info (Function.update info i.toNat v) := by
  intro pn hpn
  apply Function.update_of_ne
  rintro rfl
  rw [Int.toNat_of_nonneg hi] at hpn
  exact hpn List.mem_cons_self

theorem keptOff_assignPhysicalPage (info : PageInfos) (addr : ℕ) (owner : ℤ) :
    KeptOff (assignPhysicalPageIndices addr) info (assignPhysicalPage info addr owner).1 := by
  have hb := assignPhysicalPageIndices_inBounds addr
  unfold assignPhysicalPageIndices at hb ⊢
  unfold assignPhysicalPage
  split_ifs at hb ⊢ with h1 h2 h2
  · exact .refl _ _
  · exact absurd (h1.imp_right Or.inl) h2
  · exact .refl _ _
  · dsimp only
    exact keptOff_update (inBounds_single.mp hb).1 info _

theorem keptOff_allocPageProcess (info : PageInfos) (pid : ℤ) :
    KeptOff (allocPageProcessIndices info) info (allocPageProcess info pid).1 := by
  unfold allocPageProcess allocPageProcessIndices
  dsimp only
  generalize findFreeIndices info (nPages - 1) 1 = l
  generalize findFree info (nPages - 1) 1 = p
  have hkept := (keptOff_assignPhysicalPage info (pageAddress p) pid).append_right l
  split_ifs
  · exact hkept
  · exact hkept

theorem keptOff_sysPageAllocFindFree {pagetable addr : ℕ} {pid r : ℤ}
    (h : sysPageAllocFindFree m info pagetable pid addr = .ok (m', info', r)) :
    KeptOff (sysPageAllocFindFreeIndices info) info info' := by
  unfold sysPageAllocFindFree at h
  unfold sysPageAllocFindFreeIndices
  apply KeptOff.append_right
  cases hp : findFreeOrFail info (nPages - 1) 1 with
  | none =>
      rw [hp] at h
      obtain ⟨rfl, rfl, rfl⟩ : m = m' ∧ info = info' ∧ -1 = r := by simpa using h
      exact .refl _ _
  | some p =>
      rw [hp] at h
      have hkept := keptOff_assignPhysicalPage info (pageAddress p) pid
      dsimp only at h ⊢
      generalize assignPhysicalPage info (pageAddress p) pid = a at h hkept
      generalize (if addr < procStartAddr then -1 else a.2) = r₁ at h
      split_ifs at h
      · rw [bind_eq_ok] at h
        obtain ⟨res, -, h⟩ := h
        cases h
        exact hkept
      · cases h
        exact hkept

theorem keptOff_duplicatePagetable {pagetable pt : ℕ} {pid : ℤ}
    (h : duplicatePagetable m info pagetable pid = .ok (m', info', pt)) :
    KeptOff (duplicatePagetableIndices pid 5 info) info info' := by
  have hkept (n : ℕ) (info : PageInfos) : KeptOff (duplicatePagetableIndices pid n info) info
      ((fun info => (allocPageProcess info pid).1)^[n] info) := by
    induction n generalizing info with
    | zero => exact .refl _ _
    | succ n ih => exact (keptOff_allocPageProcess info pid).append (ih _)
  have hinfo : info' = (fun info => (allocPageProcess info pid).1)^[5] info := by
    unfold duplicatePagetable at h
    simp only [Function.iterate_succ, Function.iterate_zero, Function.comp_apply, id_eq] at h ⊢
    revert h
    generalize allocPageProcess info pid = r₁
    generalize allocPageProcess r₁.1 pid = r₂
    generalize allocPageProcess r₂.1 pid = r₃
    generalize allocPageProcess r₃.1 pid = r₄
    generalize allocPageProcess r₄.1 pid = r₅
    intro h
    split_ifs at h
    · rw [bind_eq_ok] at h
      obtain ⟨m₁, -, h⟩ := h
      cases h
      rfl
    · exact (Prod.mk.inj (Prod.mk.inj (Except.ok.inj h)).2).1.symm
  rw [hinfo]
  exact hkept 5 info

theorem keptOff_incRefcount (info : PageInfos) (i : ℤ) : KeptOff [i] info (incRefcount info i) := by
  unfold incRefcount
  split_ifs with hi
  · exact keptOff_update hi.1 info _
  · exact .refl _ _

theorem keptOff_forkPage {parent child v : ℕ} {pid : ℤ} {s s' : Memory × PageInfos}
    (h : forkPage parent child pid v s = .ok s') :
    KeptOff (forkPageIndices parent child v s) s.2 s'.2 := by
  unfold forkPage at h
  unfold forkPageIndices
  dsimp only at h ⊢
  split_ifs at h ⊢
  · rw [bind_eq_ok] at h
    obtain ⟨r, -, h⟩ := h
    cases h
    exact keptOff_allocPageProcess s.2 pid
  · rw [bind_eq_ok] at h
    obtain ⟨r, hr, h⟩ := h
    cases h
    rw [hr]
    exact keptOff_incRefcount s.2 _

theorem keptOff_forkLoop {parent child n v : ℕ} {pid : ℤ} {s s' : Memory × PageInfos}
    (h : forkLoop parent child pid n v s = .ok s') :
    KeptOff (forkLoopIndices parent child pid n v s) s.2 s'.2 := by
  induction n generalizing v s with
  | zero =>
      cases h
      exact .refl _ _
  | succ n ih =>
      rw [forkLoop, bind_eq_ok] at h
      obtain ⟨s₁, h₁, h⟩ := h
      rw [forkLoopIndices, h₁]
      exact (keptOff_forkPage h₁).append (ih h)

theorem keptOff_sysFork {k k' : Kernel} {next : Next} (h : sysFork k = .ok (k', next))
    (hlive : k.currentProc.state ≠ .free) :
    KeptOff (sysForkIndices k) k.pageinfo k'.pageinfo := by
  unfold sysFork at h
  unfold sysForkIndices
  cases hslot : findFreeSlot k.states (nProc - 1) 1 with
  | none =>
      rw [hslot] at h
      cases h
      exact .refl _ _
  | some c =>
      have hne : k.current ≠ c := by
        rintro rfl
        exact hlive (findFreeSlot_some hslot).2.2.1
      have hparent : (k.updateProc c fun q => { q with pid := c, state := .runnable }).currentProc =
          k.currentProc := k.updateProc_of_ne c _ hne
      rw [hslot] at h
      simp only [Kernel.updateProc_mem, Kernel.updateProc_pageinfo, hparent] at h
      rw [bind_eq_ok] at h
      obtain ⟨⟨m₁, info₁, pt⟩, hd, h⟩ := h
      dsimp only at h ⊢
      rw [hd]
      have hkept := keptOff_duplicatePagetable hd
      dsimp only
      split_ifs at h ⊢ with hpt
      · rw [bind_eq_ok] at h
        obtain ⟨s, hl, h⟩ := h
        cases h
        exact hkept.append (keptOff_forkLoop hl)
      · cases h
        exact hkept.append_left _

theorem keptOff_releaseTables {tables : List ℕ} (hb : InBounds (tables.map pageNumber))
    (info : PageInfos) : KeptOff (tables.map pageNumber) info
      (releaseTables info (tables.map (fun t => (pageNumber t).toNat))) := by
  induction tables generalizing info with
  | nil => exact .refl _ _
  | cons t tables ih =>
      obtain ⟨ht, hb⟩ := inBounds_cons.mp hb
      exact (keptOff_update ht.1 info ⟨0, 0⟩).append (ih hb _)

theorem keptOff_exitPage (pid : ℤ) (tables : List ℕ) (map : VaMapping) (info : PageInfos) :
    KeptOff (exitPageIndices map) info (exitPage pid tables map info) := by
  by_cases hpn : map.pn > 0
  · have hlist : exitPageIndices map = [map.pn] := by
      unfold exitPageIndices
      by_cases hw : map.perm &&& pteW = 0
      · rw [if_pos ⟨hw, hpn⟩]
      · rw [if_neg (fun h => hw h.1), if_pos ⟨hpn, hw⟩]
    rw [hlist]
    unfold exitPage
    dsimp only
    split_ifs
    · exact keptOff_update hpn.le info _
    · exact keptOff_update hpn.le info _
    · exact keptOff_update hpn.le info _
    · exact .refl _ _
  · unfold exitPage
    rw [if_neg fun h => hpn h.2.1, if_neg fun h => hpn h.1]
    exact .refl _ _

theorem keptOff_exitLoop (m : Memory) (pagetable : ℕ) (pid : ℤ) (tables : List ℕ) (n v : ℕ)
    (info : PageInfos) :
    KeptOff ((List.range n).flatMap fun i =>
      if pagetable ≠ 0 then exitPageIndices (virtualMemoryLookup m pagetable (v + i * pageSize))
      else []) info (exitLoop m pagetable pid tables n v info) := by
  induction n generalizing v info with
  | zero => exact .refl _ _
  | succ n ih =>
      have hpage : KeptOff
          (if pagetable ≠ 0 then exitPageIndices (virtualMemoryLookup m pagetable v) else []) info
          (if pagetable ≠ 0 then exitPage pid tables (virtualMemoryLookup m pagetable v) info
            else info) := by
        split_ifs
        · exact keptOff_exitPage _ _ _ _
        · exact .refl _ _
      have hv (i : ℕ) : v + (i + 1) * pageSize = v + pageSize + i * pageSize := by
        rw [Nat.add_mul, Nat.one_mul, Nat.add_assoc, Nat.add_comm pageSize]
      rw [List.range_succ_eq_map, List.flatMap_cons, exitLoop, List.flatMap_map, Nat.zero_mul,
        Nat.add_zero]
      simp only [Nat.succ_eq_add_one, hv]
      exact hpage.append (ih _ _)

theorem keptOff_sysExit {k : Kernel} (hb : InBounds (sysExitIndices k)) :
    KeptOff (sysExitIndices k) k.pageinfo (sysExit k).pageinfo := by
  unfold sysExitIndices at hb ⊢
  unfold sysExit
  dsimp only at hb ⊢
  have htables : KeptOff (exitTableIndices k.mem k.currentProc.pagetable) k.pageinfo
      (releaseTables k.pageinfo (exitTables k.mem k.currentProc.pagetable)) :=
    keptOff_releaseTables (inBounds_append.mp hb).1 k.pageinfo
  generalize exitTables k.mem k.currentProc.pagetable = tables at htables ⊢
  exact htables.append (keptOff_exitLoop k.mem k.currentProc.pagetable k.currentProc.pid tables
    userPages procStartAddr _)

theorem syscallMapping_pageinfo {k k' : Kernel} (h : syscallMapping k = .ok k') :
    k'.pageinfo = k.pageinfo := by
  unfold syscallMapping at h
  dsimp only at h
  split_ifs at h
  all_goals
    cases h
    rfl

theorem syscallMemTog_pageinfo (k : Kernel) : (syscallMemTog k).pageinfo = k.pageinfo := by
  unfold syscallMemTog memTog
  split_ifs
  all_goals rfl

/-- A call of the kernel, made by a process that runs. -/
theorem keptOff_dispatch {k k' : Kernel} {reg : Registers} {cr2 : ℕ} {next : Next}
    (h : dispatch k reg cr2 = .ok (k', next)) (hlive : k.currentProc.state ≠ .free)
    (hb : InBounds (sysExitIndices k)) :
    KeptOff (dispatchIndices k reg) k.pageinfo k'.pageinfo := by
  unfold dispatch at h
  unfold dispatchIndices
  split at h
  · cases h
  · cases h
    exact .refl _ _
  · cases h
    exact .refl _ _
  · rename_i hno
    rw [bind_eq_ok] at h
    obtain ⟨⟨m, info, r⟩, ha, h⟩ := h
    cases h
    rw [hno]
    exact keptOff_sysPageAllocFindFree ha
  · rename_i hno
    rw [hno]
    exact keptOff_sysFork h hlive
  · rename_i hno
    cases h
    rw [hno]
    exact keptOff_sysExit hb
  · rw [bind_eq_ok] at h
    obtain ⟨k₁, hmap, h⟩ := h
    cases h
    rw [syscallMapping_pageinfo hmap]
    exact .refl _ _
  · obtain ⟨rfl, -⟩ := Prod.mk.inj (Except.ok.inj h)
    rw [syscallMemTog_pageinfo]
    exact .refl _ _
  · cases h
    exact .refl _ _
  · split_ifs at h
    obtain ⟨rfl, -⟩ := Prod.mk.inj (Except.ok.inj h)
    rw [Kernel.updateProc_pageinfo]
    exact .refl _ _
  · cases h

end kept

section tree
variable {m : Memory} {T : Fin 5 → ℕ} {leaf : ℕ → ℕ}

theorem VaMapping.ofEntry_pn {pe : ℕ} (va : ℕ) (h : pe &&& pteP ≠ 0 → pe < 0x200000) :
    (VaMapping.ofEntry pe va).pn < nPages := by
  unfold VaMapping.ofEntry
  split_ifs with hp
  · have := h hp
    rw [pageNumber_eq (by omega)]
    simp only [nPages]
    omega
  · exact (by decide : (-1 : ℤ) < nPages)

theorem pageNumber_page {t : ℕ} (ht : t < 512) : pageNumber (t * 4096) = t := by
  rw [pageNumber_eq (by omega), Nat.mul_div_cancel t (by norm_num)]

theorem pageNumber_inBounds {t : ℕ} (ht : t < 512) :
    0 ≤ pageNumber (t * 4096) ∧ pageNumber (t * 4096) < nPages := by
  rw [pageNumber_page ht]
  simp only [nPages]
  omega

theorem Tree.exitTableIndices_inBounds (h : Tree m T leaf) :
    InBounds (exitTableIndices m (T 0 * 4096)) := by
  have haddr (j : Fin 5) : pteAddr (T j * 4096 + 7) = T j * 4096 :=
    pteAddr_frame (by have := h.lt j; omega) (by norm_num)
  have h1 := h.l1 0 (by norm_num)
  have h2 := h.l2 0 (by norm_num)
  have h3 := h.l3 0 (by norm_num)
  have h4 := h.l3 1 (by norm_num)
  simp only [if_true, one_ne_zero, if_false] at h1 h2 h3 h4
  simp only [exitTableIndices, h1, h2, h3, h4, haddr, List.map_cons, List.map_nil, inBounds_cons]
  exact ⟨pageNumber_inBounds (h.lt 0), pageNumber_inBounds (h.lt 1), pageNumber_inBounds (h.lt 2),
    pageNumber_inBounds (h.lt 3), pageNumber_inBounds (h.lt 4), inBounds_nil⟩

/-- The tests of `INT_SYS_EXIT` leave out -1. -/
theorem exitPageIndices_inBounds {map : VaMapping} (h : map.pn < nPages) :
    InBounds (exitPageIndices map) := by
  unfold exitPageIndices
  split_ifs with hc hc'
  · exact inBounds_single.mpr ⟨hc.2.le, h⟩
  · exact inBounds_single.mpr ⟨hc'.1.le, h⟩
  · exact inBounds_nil

/-- So does the test of `memshow_virtual`. -/
theorem memshowVirtualPageIndices_inBounds {map : VaMapping} (h : map.pn < nPages) :
    InBounds (memshowVirtualPageIndices map) := by
  unfold memshowVirtualPageIndices
  split_ifs with hneg
  · exact inBounds_nil
  · exact inBounds_single.mpr ⟨not_lt.mp hneg, h⟩
  · exact inBounds_nil

theorem ownershipLevelIndices_zero {t : ℕ} (ht : t < 512) :
    InBounds (ownershipLevelIndices m 0 (t * 4096)) := by
  rw [ownershipLevelIndices, if_pos (pageNumber_inBounds ht).2, inBounds_single]
  exact pageNumber_inBounds ht

theorem ownershipLevelIndices_succ {n t : ℕ} (ht : t < 512)
    (h : ∀ index < 512, entry m (t * 4096) index ≠ 0 →
      InBounds (ownershipLevelIndices m n (pteAddr (entry m (t * 4096) index)))) :
    InBounds (ownershipLevelIndices m (n + 1) (t * 4096)) := by
  rw [ownershipLevelIndices, if_pos (pageNumber_inBounds ht).2, inBounds_cons, inBounds_flatMap]
  refine ⟨pageNumber_inBounds ht, fun index hindex => ?_⟩
  split_ifs with hnz
  · exact h index (List.mem_range.mp hindex) hnz
  · exact inBounds_nil

/-- The ownership check visits the five pages of a table. -/
theorem Tree.ownershipLevelIndices_inBounds (h : Tree m T leaf) :
    InBounds (ownershipLevelIndices m 3 (T 0 * 4096)) := by
  have haddr (j : Fin 5) : pteAddr (T j * 4096 + 7) = T j * 4096 :=
    pteAddr_frame (by have := h.lt j; omega) (by norm_num)
  apply ownershipLevelIndices_succ (h.lt 0)
  intro i hi hnz
  rw [h.l1 i hi] at hnz ⊢
  split_ifs at hnz ⊢ with h0
  · rw [haddr]
    apply ownershipLevelIndices_succ (h.lt 1)
    intro i hi hnz
    rw [h.l2 i hi] at hnz ⊢
    split_ifs at hnz ⊢ with h0
    · rw [haddr]
      apply ownershipLevelIndices_succ (h.lt 2)
      intro i hi hnz
      rw [h.l3 i hi] at hnz ⊢
      split_ifs at hnz ⊢ with h0 h1
      · rw [haddr]
        exact ownershipLevelIndices_zero (h.lt 3)
      · rw [haddr]
        exact ownershipLevelIndices_zero (h.lt 4)
      · exact absurd rfl hnz
    · exact absurd rfl hnz
  · exact absurd rfl hnz

theorem Tree.memshowVirtualIndices_inBounds (h : Tree m T leaf) (hne : ∀ j, T j ≠ consolePage)
    (hleaf : ∀ i < 768, leaf i &&& pteP ≠ 0 → leaf i < 0x200000) (info : PageInfos)
    {pns : List ℕ} (hpns : ∀ pn ∈ pns, pn < 768) :
    InBounds (memshowVirtualIndices info (T 0 * 4096) pns m) := by
  induction pns generalizing m with
  | nil => exact inBounds_nil
  | cons pn pns ih =>
      have hlt := hpns pn List.mem_cons_self
      have hlook := h.lookup_page (i := pn) (by omega)
      refine inBounds_append.mpr ⟨?_, ?_⟩
      · rw [pageSize, hlook]
        exact memshowVirtualPageIndices_inBounds (VaMapping.ofEntry_pn _ (hleaf pn hlt))
      · split
        · rename_i m' hm'
          unfold memshowVirtualPage at hm'
          dsimp only at hm'
          split_ifs at hm'
          obtain rfl := Except.ok.inj hm'
          exact ih (h.frame (agreeOff_drawVirtualPage info m _ hlt) hne)
            fun x hx => hpns x (List.mem_cons_of_mem pn hx)
        · exact inBounds_nil

end tree

section sim
variable {L : KernelLayout} {k : Kernel} {w : World} (h : Sim L k w) (hw : w.Wf L)

include h

theorem Sim.checkVirtualMemoryIndices_inBounds : InBounds (checkVirtualMemoryIndices L k) := by
  refine inBounds_append.mpr ⟨inBounds_append.mpr ⟨?_, ?_⟩, inBounds_range le_rfl⟩
  · rw [← L.tables_zero]
    exact h.mem.kernel.ownershipLevelIndices_inBounds
  · rw [inBounds_flatMap]
    intro p _
    split_ifs with hc
    · have hp := (h.live p).mp hc.1
      rw [h.mem.root p hp]
      exact (h.mem.tree p hp).ownershipLevelIndices_inBounds
    · exact inBounds_nil

include hw

theorem Sim.sysExitIndices_inBounds (hrun : w.Live w.current) : InBounds (sysExitIndices k) := by
  have hroot : k.currentProc.pagetable = w.frames w.current 0 * 4096 := by
    rw [Kernel.currentProc, h.current]
    exact h.mem.root _ hrun
  have htree := h.mem.tree _ hrun
  unfold sysExitIndices
  rw [hroot]
  refine inBounds_append.mpr ⟨htree.exitTableIndices_inBounds, inBounds_flatMap.mpr fun i hi => ?_⟩
  have hlt : i < 512 := List.mem_range.mp hi
  split_ifs
  · apply exitPageIndices_inBounds
    simp only [procStartAddr, pageSize]
    rw [show 0x100000 + i * 4096 = (256 + i) * 4096 by omega, htree.lookup_page (by omega)]
    exact VaMapping.ofEntry_pn _ (leaf_present_lt hw _ _ (by omega))
  · exact inBounds_nil

theorem Sim.memshowVirtualAnimateIndices_inBounds : InBounds (memshowVirtualAnimateIndices k) := by
  unfold memshowVirtualAnimateIndices
  dsimp only
  generalize skipFree k.states (2 * nProc + 1) _ % nProc = p
  split_ifs with hlive
  · have hp := (h.live p).mp hlive
    have hne (j : Fin 5) : w.frames p j ≠ consolePage :=
      fun hj => not_usable_console (hj ▸ hw.frames_usable hp j)
    rw [h.mem.root p hp]
    apply Tree.memshowVirtualIndices_inBounds _ hne (leaf_present_lt hw p)
    · exact fun pn hpn => List.mem_range.mp hpn
    · exact (h.mem.tree p hp).frame (agreeOff_consolePrintf _ _ _ _) hne
  · exact inBounds_nil

theorem Sim.showMemoryIndices_inBounds (reg : Registers) :
    InBounds (showMemoryIndices L k reg) := by
  unfold showMemoryIndices
  split_ifs with hreg hcheck
  · have ha := agreeOff_memshowPhysical k.mem k.pageinfo
    refine inBounds_append.mpr ⟨h.checkVirtualMemoryIndices_inBounds,
      inBounds_append.mpr ⟨inBounds_range le_rfl, ?_⟩⟩
    generalize memshowPhysical k.mem k.pageinfo = m at ha ⊢
    exact Sim.memshowVirtualAnimateIndices_inBounds (k := { k with mem := m })
      ⟨h.info, h.state, h.pid, h.current, h.mem.console_frame hw ha⟩ hw
  · exact inBounds_append.mpr ⟨h.checkVirtualMemoryIndices_inBounds, inBounds_nil⟩
  · exact inBounds_nil

end sim

section fork
variable {L : KernelLayout} {m : Memory} {w : World} {pt : ℕ → ℕ} {p c i : ℕ}

/-- A round of the page loop uses -1 if the parent maps nothing at the page. -/
theorem forkPageIndices_inBounds (hm : MemSim L m w pt) (hf : Forking L p c i w)
    (hi : 256 ≤ i) (hi' : i < 1024) :
    InBounds (forkPageIndices (pt p) (pt c) (i * 4096) (m, w.info)) ↔
      w.held (p, .page i) ≠ none := by
  have hlook := hm.lookup_user hf.wf hf.parent hi hi'
  have hcond := Ref.mapping_writable hf.wf (p := p) (i := i)
  unfold forkPageIndices
  simp only [hlook, pageSize]
  cases hr : w.held (p, .page i) with
  | none =>
      obtain ⟨m', hmap, -⟩ := forkPage_map hm hf hi hi' (2 ^ 64 - 1) 0 none
        (AgreeOff.refl _ _ _) zero_ne_tables hf.wf.zero_ne_frames (fun r' h => by cases h)
      have hmap' : virtualMemoryMap m (pt c) (i * 4096) (Ref.mapping none).pa 4096
        (Ref.mapping none).perm = .ok (m', 0) := hmap
      rw [hr] at hcond
      rw [if_neg (by rw [hcond]; simp), hmap']
      constructor
      · intro hb
        have hneg := (hb (-1) List.mem_cons_self).1
        norm_num at hneg
      · exact fun h => absurd rfl h
  | some r =>
      have hlt := hf.wf.frame_lt hr
      rw [hr] at hcond
      obtain ⟨fr, b⟩ := r
      cases b with
      | true =>
          rw [if_pos (hcond.mpr ⟨fr, rfl⟩)]
          exact iff_of_true (allocPageProcessIndices_inBounds _) (by simp)
      | false =>
          rw [if_neg (by rw [hcond]; simp)]
          apply iff_of_true _ (by simp)
          have hfr : InBounds [(fr : ℤ)] :=
            inBounds_single.mpr ⟨Int.natCast_nonneg fr, by simp only [nPages]; exact_mod_cast hlt⟩
          split
          · exact hfr
          · exact inBounds_nil

theorem forkLoopIndices_inBounds {n : ℕ} (hm : MemSim L m w pt) (hf : Forking L p c i w)
    (hc : c < 16) (hi : 256 ≤ i) (hn : i + n ≤ 1024) :
    InBounds (forkLoopIndices (pt p) (pt c) c n (i * 4096) (m, w.info)) ↔
      ∀ x, i ≤ x → x < i + n → w.held (p, .page x) ≠ none := by
  induction n generalizing i w m with
  | zero => exact iff_of_true inBounds_nil fun x h1 h2 => by omega
  | succ n ih =>
      obtain ⟨m', hpage, hm', -⟩ := forkPage_ok hm hf hc hi (by omega)
      have hnext : i * 4096 + pageSize = (i + 1) * 4096 := by
        simp only [pageSize]
        omega
      rw [forkLoopIndices, inBounds_append, forkPageIndices_inBounds hm hf hi (by omega), hpage]
      dsimp only
      rw [hnext, ih hm' (hf.next hi (by omega)) (by omega) (by omega)]
      have hsame (x : ℕ) : (forkSlot p c i w).held (p, .page x) = w.held (p, .page x) :=
        forkSlot_held_of_ne fun heq => hf.ne (Prod.mk.inj heq).1
      simp only [hsame]
      constructor
      · rintro ⟨h0, h⟩ x hx hx'
        obtain rfl | hne := eq_or_ne x i
        · exact h0
        · exact h x (by omega) (by omega)
      · exact fun h => ⟨h i le_rfl (by omega), fun x hx hx' => h x (by omega) (by omega)⟩

/-- A fork stays in bounds if it fails for want of a slot or of tables, or if its caller maps all of
its pages. -/
theorem Sim.sysForkIndices_inBounds {k : Kernel} (h : Sim L k w) (hw : w.Wf L)
    (hchk : w.Checked L) (hrun : w.Live w.current) :
    InBounds (sysForkIndices k) ↔ ((findFreeSlot w.state (nProc - 1) 1).isSome →
      5 ≤ (freePages w.info).card →
        ∀ x, 256 ≤ x → x < 768 → w.held (w.current, .page x) ≠ none) := by
  unfold sysForkIndices
  rw [h.state]
  cases hslot : findFreeSlot w.state (nProc - 1) 1 with
  | none => exact iff_of_true inBounds_nil fun hs => by cases hs
  | some c =>
      obtain ⟨hc1, hc2, hfree, -⟩ := findFreeSlot_some hslot
      simp only [nProc] at hc2
      have hc16 : c < 16 := by omega
      have hne : w.current ≠ c := by
        rintro rfl
        exact hrun hfree
      have hpt : k.currentProc.pagetable = w.frames w.current 0 * 4096 := by
        rw [Kernel.currentProc, h.current]
        exact h.mem.root _ hrun
      dsimp only
      rw [inBounds_append, and_iff_right (duplicatePagetableIndices_inBounds _ _ _)]
      cases hdup : World.duplicate c (w.setState c .runnable) with
      | none =>
          obtain ⟨f, -, hfail⟩ := duplicatePagetable_fail hc16 hdup
          have hd := (hfail k.mem k.currentProc.pagetable).1
          rw [setState_info, ← h.info] at hd
          rw [hd]
          dsimp only
          rw [if_neg (not_not.mpr rfl)]
          apply iff_of_true inBounds_nil
          intro _ hfive
          obtain ⟨w', hw', -⟩ := duplicate_some (w := w.setState c .runnable) c hfive
          rw [hdup] at hw'
          cases hw'
      | some w' =>
          have hfive : 5 ≤ (freePages w.info).card := by
            by_contra hlt
            have hnone : World.duplicate c (w.setState c .runnable) = none :=
              duplicate_none c (not_le.mp hlt)
            rw [hdup] at hnone
            cases hnone
          obtain ⟨m₁, hd, htree, ha⟩ := duplicatePagetable_ok (w := w.setState c .runnable) hc16
            (h.mem.tree _ hrun) (w.leaf_kernel _) (hchk.tablesCounted _ hrun) hdup
          rw [setState_info, ← h.info, ← hpt] at hd
          have hf := Forking.of_duplicate hw hchk hrun hfree hc1 hc16 hdup
          have hm₁ := h.mem.duplicate hf.wf hfree hdup hw htree ha
          have hpt0 : w'.frames c 0 * 4096 ≠ 0 := by
            have := (duplicate_fresh hdup 0).1
            omega
          have hloop := forkLoopIndices_inBounds hm₁ hf hc16 le_rfl
            (show 256 + userPages ≤ 1024 by norm_num)
          rw [Function.update_self, Function.update_of_ne hne] at hloop
          have hroot : (k.processes w.current).pagetable = k.currentProc.pagetable := by
            rw [Kernel.currentProc, h.current]
          rw [hroot] at hloop
          rw [hd]
          dsimp only
          rw [if_pos hpt0]
          apply hloop.trans
          have hheld (x : ℕ) : w'.held (w.current, .page x) = w.held (w.current, .page x) := by
            rw [duplicate_held_page hdup]
          simp only [hheld, Option.isSome_some, hfive, true_implies]
          rfl

end fork

/-! One trap. -/

section trap
variable {L : KernelLayout} {M : Machine} {k k' : Kernel} {w : World}

theorem Sim.of_showMemory (h : Sim L k w) (hw : w.Wf L) {reg : Registers}
    (hshow : showMemory L k reg = .ok k') : Sim L k' w := by
  by_cases hreg : showsMemory reg
  · have hchk := (h.check_iff hw).mp (showMemory_checks hreg hshow)
    obtain ⟨m, lt, sh, heq, ha⟩ := h.showMemory_ok hw hchk hreg
    obtain rfl := Except.ok.inj (heq.symm.trans hshow)
    exact ⟨h.info, h.state, h.pid, h.current, h.mem.console_frame hw ha⟩
  · unfold showMemory at hshow
    rw [if_neg hreg] at hshow
    obtain rfl := Except.ok.inj hshow
    exact h

/-- Only a fork may leave the bounds. -/
theorem Sim.dispatchIndices_inBounds (h : Sim L k w) (hw : w.Wf L) (hrun : w.Live w.current)
    {reg : Registers} (hreg : reg.regIntno.toNat ≠ 52) : InBounds (dispatchIndices k reg) := by
  unfold dispatchIndices
  split
  · exact sysPageAllocFindFreeIndices_inBounds _
  · rename_i hfork
    exact absurd hfork hreg
  · exact h.sysExitIndices_inBounds hw hrun
  · exact inBounds_nil

/-- The kernel is about to copy the pages of a process that leaves a page of its range unmapped: its
own check passes, and it finds a free slot and memory for the tables. -/
def UnmappedFork (L : KernelLayout) (M : Machine) : Event → Prop
  | .store _ _ => False
  | .trap _ t =>
    t = .fork ∧ M.outcome.resumed = true ∧ checkVirtualMemory L M.kernel ∧
      (findFreeSlot M.kernel.states (nProc - 1) 1).isSome ∧
      5 ≤ (freePages M.kernel.pageinfo).card ∧ ∃ addr, inUserRange addr ∧ M.kernel.Unmapped addr

theorem Represents.unmappedFork_iff (h : Represents L M w) (hres : M.outcome.resumed = true)
    (cpu : Cpu) : UnmappedFork L M (.trap cpu .fork) ↔ w.Checked L ∧
      (findFreeSlot w.state (nProc - 1) 1).isSome ∧ 5 ≤ (freePages w.info).card ∧
      ∃ x, 256 ≤ x ∧ x < 768 ∧ w.held (w.current, .page x) = none := by
  have hrun := h.live hres
  have hpages : (∃ addr, inUserRange addr ∧ M.kernel.Unmapped addr) ↔
      ∃ x, 256 ≤ x ∧ x < 768 ∧ w.held (w.current, .page x) = none := by
    constructor
    · rintro ⟨addr, haddr, hun⟩
      have hheld := (h.unmapped_iff hrun haddr).mp hun
      obtain ⟨-, hlo, hhi⟩ := haddr
      simp only [procStartAddr, memsizeVirtual] at hlo hhi
      exact ⟨addr / 4096, by omega, by omega, hheld⟩
    · rintro ⟨x, hx, hx', hheld⟩
      have haddr : inUserRange (x * 4096) := by
        unfold inUserRange
        simp only [pageSize, procStartAddr, memsizeVirtual]
        omega
      refine ⟨x * 4096, haddr, (h.unmapped_iff hrun haddr).mpr ?_⟩
      rwa [Nat.mul_div_cancel x (by norm_num)]
  unfold UnmappedFork
  rw [hpages, h.sim.check_iff h.wf, h.sim.info, h.sim.state]
  simp [hres]

theorem Represents.indices_inBounds (h : Represents L M w) (e : Event) :
    InBounds (M.indices L e) ↔ ¬ UnmappedFork L M e := by
  cases e with
  | store va b => exact iff_of_true inBounds_nil fun hu => hu
  | trap cpu t =>
      by_cases hres : M.outcome.resumed = true
      · have hrun := h.live hres
        have hsim : Sim L (M.kernel.updateProc M.kernel.current
            (fun q => { q with registers := Registers.ofWords (trapFrame cpu t) })) w :=
          h.sim.updateProc _ fun _ => ⟨rfl, rfl, rfl⟩
        unfold Machine.indices exceptionIndices
        dsimp only
        rw [if_pos hres]
        rw [inBounds_append, and_iff_right (hsim.showMemoryIndices_inBounds h.wf _)]
        by_cases hfork : t = .fork
        · subst t
          have hshows := showsMemory_of_ordinary cpu (t := .fork) rfl trivial
          rw [h.unmappedFork_iff hres]
          by_cases hchk : w.Checked L
          · obtain ⟨m, lt, sh, heq, -⟩ := hsim.showMemory_ok h.wf hchk hshows
            have h' := hsim.of_showMemory h.wf heq
            rw [heq]
            dsimp only
            unfold dispatchIndices
            rw [intno_ofWords]
            apply (h'.sysForkIndices_inBounds h.wf hchk hrun).trans
            simp only [hchk, true_and, not_and, not_exists]
          · apply iff_of_true _ fun hu => hchk hu.1
            split
            · rename_i k' hk'
              exact absurd ((hsim.check_iff h.wf).mp (showMemory_checks hshows hk')) hchk
            · exact inBounds_nil
        · apply iff_of_true _ fun hu => hfork hu.1
          split
          · rename_i k' hk'
            apply (hsim.of_showMemory h.wf hk').dispatchIndices_inBounds h.wf hrun
            rw [intno_ofWords]
            cases t with
            | syscall n =>
                intro h4
                apply hfork
                have hn : n = 4 := Fin.ext (by simp only [Trap.intno] at h4; omega)
                rw [hn]
            | _ => norm_num [Trap.intno]
          · exact inBounds_nil
      · unfold Machine.indices
        dsimp only
        rw [if_neg hres]
        exact iff_of_true inBounds_nil fun hu => hres hu.2.1

/-- A trap changes `pageinfo` only at the indices listed for it. -/
theorem Represents.step_pageinfo (h : Represents L M w) {e : Event} {M' : Machine}
    (hs : M.step L e = some M') :
    KeptOff (M.indices L e) M.kernel.pageinfo M'.kernel.pageinfo := by
  have hres := Machine.step_resumed hs
  cases e with
  | store va b =>
      obtain ⟨t, -, -, -, -, rfl⟩ := Machine.step_store hs
      exact .refl _ _
  | trap cpu t =>
      obtain ⟨-, k', o, he, rfl⟩ := Machine.step_trap hs
      have hsim : Sim L (M.kernel.updateProc M.kernel.current
          (fun q => { q with registers := Registers.ofWords (trapFrame cpu t) })) w :=
        h.sim.updateProc _ fun _ => ⟨rfl, rfl, rfl⟩
      unfold exception at he
      rw [bind_eq_ok] at he
      obtain ⟨_, -, he⟩ := he
      rw [bind_eq_ok] at he
      obtain ⟨k₁, hshow, he⟩ := he
      rw [bind_eq_ok] at he
      obtain ⟨⟨k₂, next⟩, hd, hleave⟩ := he
      obtain ⟨⟨p, rfl⟩, -⟩ := leave_inv hleave
      have h₁ := hsim.of_showMemory h.wf hshow
      have hlive : k₁.currentProc.state ≠ .free := by
        rw [Kernel.currentProc, h₁.current]
        exact (h₁.live _).mpr (h.live hres)
      have hkept := keptOff_dispatch hd hlive (h₁.sysExitIndices_inBounds h.wf (h.live hres))
      rw [h₁.info, ← h.sim.info] at hkept
      unfold Machine.indices exceptionIndices
      dsimp only
      rw [if_pos hres, hshow]
      exact hkept.append_right _

end trap

/-! Runs. -/

section run
variable {L : KernelLayout} {images : ℕ → ElfImage} {command : Option String}

/-- The traps of user processes, with `page_alloc` in the process's range. -/
def UserTrap : Event → Prop
  | .store _ _ => False
  | .trap cpu t => t.ordinary = true ∧ (t = .pageAlloc → inUserRange cpu.rdi.toNat)

theorem reach_userTrap (hfit : ImagesFit L images command) {M : Machine}
    (h : Machine.Reach L images command (fun _ e => UserTrap e) M) : ∃ w, Represents L M w := by
  have htracks : Tracks L (fun _ => True) M := by
    apply reach_represents hfit (fun _ _ _ => trivial) _ (fun _ _ _ _ _ _ _ _ _ => trivial) h
    intro M w e _ _ he
    cases e with
    | store va b => exact he.elim
    | trap cpu t => exact ⟨he.1, fun ht => (he.2 ht).high⟩
  obtain ⟨w, hw, -⟩ := htracks
  exact ⟨w, hw⟩

/-- The kernel stays within `pageinfo` for a whole run exactly if no process forks with an unmapped
page in its range. The loop of `INT_SYS_FORK` lacks the test for -1 that `INT_SYS_EXIT` and
`memshow_virtual` make. -/
theorem run_indices_inBounds (hfit : ImagesFit L images command) {s : ℕ → Machine} {e : ℕ → Event}
    {n : ℕ} (h0 : Machine.Boots L images command (s 0)) (hrun : Runs.IsRun (Machine.step L) s e n)
    (hok : ∀ i ≤ n, UserTrap (e i)) :
    (∀ i ≤ n, InBounds ((s i).indices L (e i))) ↔ ∀ i ≤ n, ¬ UnmappedFork L (s i) (e i) := by
  have hreach : ∀ i ≤ n, Machine.Reach L images command (fun _ e => UserTrap e) (s i) :=
    hrun.reachable (.start h0) fun i hi => hok i hi.le
  apply forall₂_congr
  intro i hi
  obtain ⟨w, hw⟩ := reach_userTrap hfit (hreach i hi)
  exact hw.indices_inBounds (e i)

/-- A timer interrupt on a freshly booted machine. -/
theorem run_indices_inBounds_sample : ∃ M,
    Machine.Boots sampleLayout (sampleImages 3) none M ∧
    InBounds (M.indices sampleLayout (.trap (sampleCpu 0) .timer)) := by
  obtain ⟨M, hM⟩ := sample_boots sampleLayout 3 none (by decide)
  refine ⟨M, hM, ?_⟩
  apply (run_indices_inBounds (sample_fits _ _ _ (by decide)) (s := fun _ => M)
    (e := fun _ => .trap (sampleCpu 0) .timer) (n := 0) hM (fun i hi => by omega)
    fun _ _ => ⟨rfl, fun ht => by cases ht⟩).mpr _ 0 le_rfl
  rintro _ _ ⟨hfork, -⟩
  cases hfork

/-- The first fork of a process with a few pages reads and writes `pageinfo[-1]`. -/
theorem not_run_indices_inBounds : ¬ ∀ M, Machine.Reach sampleLayout (sampleImages 3) (some "fork")
    (fun _ e => UserTrap e) M → ∀ e, UserTrap e → InBounds (M.indices sampleLayout e) := by
  intro hall
  obtain ⟨M, hM⟩ := sample_boots sampleLayout 3 (some "fork") (by decide)
  obtain ⟨w, hw, hrep, hres⟩ := sample_world sampleLayout (by norm_num) hM
  obtain ⟨hslot, hfive, -⟩ := sample_fork hw (by norm_num)
  have hbounds := hall M (.start hM) (.trap (sampleCpu 0) .fork) ⟨rfl, fun ht => by cases ht⟩
  apply (hrep.indices_inBounds _).mp hbounds
  rw [hrep.unmappedFork_iff hres, hw.current, hslot]
  exact ⟨hw.booting.checked hw.complete, rfl, hfive, 300, by norm_num, by norm_num,
    hw.rest 300 (by norm_num) (by norm_num)⟩

end run

end WeensyOS
