import WeensyOS.Simulation
import Mathlib.Tactic.FinCases

/-!
# The kernel's consistency check

On memory that represents a well-formed ledger, `set_pagetable` and the memory viewer never fail,
and `check_virtual_memory` passes exactly when the ledger is `Checked`: every assertion about
page-table contents holds by itself, and only those about owners and reference counts remain.
-/

namespace WeensyOS
open ByteMemory

theorem VaMapping.ofEntry_identity {va f : ℕ} (hva : va < 0x200000) (hf : f < 4096)
    (hp : f &&& 1 ≠ 0) :
    VaMapping.ofEntry (va / 4096 * 4096 + f) va = ⟨(va / 4096 : ℕ), va, f⟩ := by
  have hpres : (va / 4096 * 4096 + f) &&& pteP ≠ 0 := by
    rw [frame_and_flag hf (by norm_num)]
    exact hp
  rw [VaMapping.ofEntry, if_pos hpres, pageNumber_eq (by omega), pteAddr_frame (by omega) hf,
    pageOffset_eq, pteFlags_eq, frame_div hf, frame_mod hf]
  congr 1
  omega

/-- Where a page table has the kernel's leaf entry it maps addresses to themselves. -/
theorem Tree.lookup_identity {m : Memory} {T : Fin 5 → ℕ} {leaf : ℕ → ℕ} (h : Tree m T leaf)
    {va : ℕ} (hva : va < 0x100000) (hleaf : leaf (va / 4096) = kernelLeaf (va / 4096)) :
    virtualMemoryLookup m (T 0 * 4096) va = ⟨(va / 4096 : ℕ), va, kernelPerm (va / 4096)⟩ := by
  rw [h.lookup_eq, if_pos (by unfold inTree; omega), show va / 4096 % 1024 = va / 4096 by omega,
    hleaf, kernelLeaf]
  exact VaMapping.ofEntry_identity (by omega) (by have := kernelPerm_lt (va / 4096); omega)
    (kernelPerm_present _)

theorem World.leaf_kernel (w : World) (p : ℕ) : ∀ i < 256, w.leaf p i = kernelLeaf i :=
  fun _ hi => if_pos hi

theorem kernelOwnLeaf_kernel : ∀ i < 256, kernelOwnLeaf i = kernelLeaf i := fun _ hi => if_pos hi

theorem Tree.lookup_own {m : Memory} {T : Fin 5 → ℕ} (h : Tree m T kernelOwnLeaf) {va : ℕ}
    (hva : va < 0x200000) : (virtualMemoryLookup m (T 0 * 4096) va).pa = va := by
  by_cases hlow : va < 0x100000
  · rw [h.lookup_identity hlow (kernelOwnLeaf_kernel _ (by omega))]
  · rw [h.lookup_eq, if_pos (by unfold inTree; omega), show va / 4096 % 1024 = va / 4096 by omega,
      kernelOwnLeaf, if_neg (by omega), if_pos (by omega),
      VaMapping.ofEntry_identity hva (by norm_num) (by norm_num)]

/-- The assertions of `set_pagetable` hold of a page table that maps the kernel to itself, when the
kernel's page table maps all of physical memory to itself. -/
theorem setPagetable_identity {L : KernelLayout} {m : Memory} {pagetable : ℕ}
    (halign : pagetable % 4096 = 0) (hlt : pagetable < 0x200000)
    (hk : ∀ va < 0x200000, (virtualMemoryLookup m L.kernelPagetables va).pa = va)
    (hlow : ∀ va, 0x40000 ≤ va → va < 0x100000 → (virtualMemoryLookup m pagetable va).pa = va) :
    setPagetable L m pagetable = .ok () := by
  have hend := L.end_le
  unfold setPagetable
  rw [assert_true (by rw [pageOffset_eq]; omega),
    assert_true (hlow _ L.handler_mem.1 (by have := L.handler_mem; omega)), assert_true (hk _ hlt),
    assert_true (hlow _ L.pagetables_lo (by have := L.pagetables_hi; omega)),
    assert_true (hlow _ L.map_mem.1 (by have := L.map_mem; omega))]
  rfl

theorem setPagetable_ok {L : KernelLayout} {m : Memory} {T : Fin 5 → ℕ} {leaf : ℕ → ℕ}
    (hk : Tree m L.tables kernelOwnLeaf) (h : Tree m T leaf)
    (hleaf : ∀ i, 64 ≤ i → i < 256 → leaf i = kernelLeaf i) :
    setPagetable L m (T 0 * 4096) = .ok () := by
  have hT := h.lt 0
  refine setPagetable_identity (by omega) (by omega) (fun va hva => ?_) fun va hva hva' => ?_
  · rw [← L.tables_zero]
    exact hk.lookup_own hva
  · rw [h.lookup_identity hva' (hleaf _ (by omega) (by omega))]

theorem setPagetable_kernel {L : KernelLayout} {m : Memory} (hk : Tree m L.tables kernelOwnLeaf) :
    setPagetable L m L.kernelPagetables = .ok () := by
  rw [← L.tables_zero]
  exact setPagetable_ok hk hk fun i _ hi => kernelOwnLeaf_kernel i hi

theorem MemSim.setPagetable_live {L : KernelLayout} {m : Memory} {w : World} {pt : ℕ → ℕ}
    (h : MemSim L m w pt) {p : ℕ} (hp : w.Live p) : setPagetable L m (pt p) = .ok () := by
  rw [h.root p hp]
  exact setPagetable_ok h.kernel (h.tree p hp) fun i _ hi => w.leaf_kernel p i hi

theorem checkPageTableMappings_tree {L : KernelLayout} {m : Memory} {T : Fin 5 → ℕ} {leaf : ℕ → ℕ}
    (h : Tree m T leaf) (hleaf : ∀ i < 256, leaf i = kernelLeaf i) :
    checkPageTableMappings L m (T 0 * 4096) := by
  have hend := L.end_le
  have hwrite (va : ℕ) (hva : va < 0x100000) :
      (virtualMemoryLookup m (T 0 * 4096) va).pa = va ∧
        (virtualMemoryLookup m (T 0 * 4096) va).perm &&& pteW ≠ 0 := by
    rw [h.lookup_identity hva (hleaf _ (by omega))]
    refine ⟨rfl, ?_⟩
    change kernelPerm (va / 4096) &&& pteW ≠ 0
    unfold kernelPerm
    split_ifs <;> decide
  refine ⟨?_, fun i hi => ?_, hwrite _ (by norm_num)⟩
  · have := h.lt 0
    rw [pteAddr_eq (by omega)]
    omega
  · have hva : kernelStartAddr + i * pageSize < 0x100000 := by
      simp only [kernelStartAddr, pageSize] at hi ⊢
      omega
    exact ⟨(hwrite _ hva).1, fun _ => (hwrite _ hva).2⟩

/-- One level of the ownership check, for a table that is the page `t`. -/
theorem ownershipLevel_succ {m : Memory} {info : PageInfos} {owner : ℤ} {n t : ℕ} {refcount : ℤ}
    (ht : t < 512) :
    checkPageTableOwnershipLevel m info owner (n + 1) (t * 4096) refcount ↔
      info t = ⟨owner, refcount⟩ ∧ ∀ index < 512, entry m (t * 4096) index ≠ 0 →
        checkPageTableOwnershipLevel m info owner n (pteAddr (entry m (t * 4096) index)) 1 := by
  have hpn : pageNumber (t * 4096) = t := by rw [pageNumber_eq (by omega)]; simp
  rw [checkPageTableOwnershipLevel, hpn]
  simp only [nPages, nPagetableEntries, Int.toNat_natCast]
  constructor
  · rintro ⟨⟨-, ho, hr⟩, hrest⟩
    exact ⟨by rw [← ho, ← hr], hrest⟩
  · rintro ⟨hinfo, hrest⟩
    rw [hinfo]
    exact ⟨⟨by omega, rfl, rfl⟩, hrest⟩

theorem ownershipLevel_zero {m : Memory} {info : PageInfos} {owner : ℤ} {t : ℕ} {refcount : ℤ}
    (ht : t < 512) :
    checkPageTableOwnershipLevel m info owner 0 (t * 4096) refcount ↔
      info t = ⟨owner, refcount⟩ := by
  have hpn : pageNumber (t * 4096) = t := by rw [pageNumber_eq (by omega)]; simp
  rw [checkPageTableOwnershipLevel, hpn]
  simp only [nPages, Int.toNat_natCast]
  constructor
  · rintro ⟨-, ho, hr⟩
    rw [← ho, ← hr]
  · intro hinfo
    rw [hinfo]
    exact ⟨by omega, rfl, rfl⟩

/-- The entries of a table with one subtable. -/
theorem ownershipEntries_one {m : Memory} {info : PageInfos} {owner : ℤ} {n pt t : ℕ} (ht : t < 512)
    (he : ∀ i < 512, entry m pt i = if i = 0 then t * 4096 + 7 else 0) :
    (∀ index < 512, entry m pt index ≠ 0 →
      checkPageTableOwnershipLevel m info owner n (pteAddr (entry m pt index)) 1) ↔
      checkPageTableOwnershipLevel m info owner n (t * 4096) 1 := by
  have haddr : pteAddr (t * 4096 + 7) = t * 4096 := pteAddr_frame (by omega) (by norm_num)
  constructor
  · intro hall
    have h0 := hall 0 (by norm_num)
    rw [he 0 (by norm_num), if_pos rfl, haddr] at h0
    exact h0 (by omega)
  · intro hc index hidx hnz
    rw [he index hidx] at hnz ⊢
    split_ifs at hnz ⊢
    · rwa [haddr]
    · exact absurd rfl hnz

/-- The entries of the table above the two leaf tables. -/
theorem ownershipEntries_two {m : Memory} {info : PageInfos} {owner : ℤ} {n pt t t' : ℕ}
    (ht : t < 512) (ht' : t' < 512)
    (he : ∀ i < 512, entry m pt i =
      if i = 0 then t * 4096 + 7 else if i = 1 then t' * 4096 + 7 else 0) :
    (∀ index < 512, entry m pt index ≠ 0 →
      checkPageTableOwnershipLevel m info owner n (pteAddr (entry m pt index)) 1) ↔
      checkPageTableOwnershipLevel m info owner n (t * 4096) 1 ∧
        checkPageTableOwnershipLevel m info owner n (t' * 4096) 1 := by
  have haddr : pteAddr (t * 4096 + 7) = t * 4096 := pteAddr_frame (by omega) (by norm_num)
  have haddr' : pteAddr (t' * 4096 + 7) = t' * 4096 := pteAddr_frame (by omega) (by norm_num)
  constructor
  · intro hall
    have h0 := hall 0 (by norm_num)
    have h1 := hall 1 (by norm_num)
    rw [he 0 (by norm_num), if_pos rfl, haddr] at h0
    rw [he 1 (by norm_num), if_neg (by norm_num), if_pos rfl, haddr'] at h1
    exact ⟨h0 (by omega), h1 (by omega)⟩
  · rintro ⟨hc, hc'⟩ index hidx hnz
    rw [he index hidx] at hnz ⊢
    split_ifs at hnz ⊢
    · rw [haddr]
      exact hc
    · rw [haddr']
      exact hc'
    · exact absurd rfl hnz

/-- The recursive ownership check of a five-page tree is a check of its five pages. -/
theorem Tree.ownership_iff {m : Memory} {T : Fin 5 → ℕ} {leaf : ℕ → ℕ} (h : Tree m T leaf)
    (info : PageInfos) (owner : ℤ) :
    checkPageTableOwnershipLevel m info owner 3 (T 0 * 4096) 1 ↔ ∀ j, info (T j) = ⟨owner, 1⟩ := by
  have h0 : checkPageTableOwnershipLevel m info owner 3 (T 0 * 4096) 1 ↔
      info (T 0) = ⟨owner, 1⟩ ∧ checkPageTableOwnershipLevel m info owner 2 (T 1 * 4096) 1 :=
    (ownershipLevel_succ (h.lt 0)).trans
      (and_congr_right fun _ => ownershipEntries_one (h.lt 1) h.l1)
  have h1 : checkPageTableOwnershipLevel m info owner 2 (T 1 * 4096) 1 ↔
      info (T 1) = ⟨owner, 1⟩ ∧ checkPageTableOwnershipLevel m info owner 1 (T 2 * 4096) 1 :=
    (ownershipLevel_succ (h.lt 1)).trans
      (and_congr_right fun _ => ownershipEntries_one (h.lt 2) h.l2)
  have h2 : checkPageTableOwnershipLevel m info owner 1 (T 2 * 4096) 1 ↔
      info (T 2) = ⟨owner, 1⟩ ∧ info (T 3) = ⟨owner, 1⟩ ∧ info (T 4) = ⟨owner, 1⟩ := by
    refine (ownershipLevel_succ (h.lt 2)).trans (and_congr_right fun _ => ?_)
    exact (ownershipEntries_two (h.lt 3) (h.lt 4) h.l3).trans
      (and_congr (ownershipLevel_zero (h.lt 3)) (ownershipLevel_zero (h.lt 4)))
  rw [h0, h1, h2]
  constructor
  · rintro ⟨i0, i1, i2, i3, i4⟩ j
    fin_cases j <;> assumption
  · intro hall
    exact ⟨hall 0, hall 1, hall 2, hall 3, hall 4⟩

theorem World.Wf.live_lt {L : KernelLayout} {w : World} (hw : w.Wf L) {p : ℕ} (hp : w.Live p) :
    p < 16 := by
  by_contra! hge
  exact hp (hw.above p hge)

theorem Sim.pagetable_ne_kernel {L : KernelLayout} {k : Kernel} {w : World} (h : Sim L k w)
    (hw : w.Wf L) {p : ℕ} (hp : w.Live p) : (k.processes p).pagetable ≠ L.kernelPagetables := by
  rw [h.mem.root p hp, ← L.tables_zero]
  have := hw.frames_ne_kernel hp 0 0
  omega

/-- No process uses the kernel's page table, which passes the check wherever it is a tree. -/
theorem Sim.kernel_ownership {L : KernelLayout} {k : Kernel} {w : World} (h : Sim L k w)
    (hw : w.Wf L) {m : Memory} (ht : Tree m L.tables kernelOwnLeaf) :
    checkPageTableOwnership L { k with mem := m } L.kernelPagetables (-1) := by
  have hnone : (Finset.range nProc).filter (fun x => (k.processes x).state ≠ .free ∧
      (k.processes x).pagetable = L.kernelPagetables) = ∅ := by
    rw [Finset.filter_eq_empty_iff]
    rintro p - ⟨hp, heq⟩
    exact h.pagetable_ne_kernel hw ((h.live p).mp hp) heq
  rw [checkPageTableOwnership, if_pos rfl, hnone, ← L.tables_zero]
  refine (ht.ownership_iff k.pageinfo poKernel).mpr fun j => ?_
  rw [h.info, hw.kernel _ (not_usable_tables j), pageinfoInit_tables]

/-- `check_virtual_memory` on a state that represents a well-formed ledger. -/
theorem Sim.check_iff {L : KernelLayout} {k : Kernel} {w : World} (h : Sim L k w) (hw : w.Wf L) :
    checkVirtualMemory L k ↔ w.Checked L := by
  have hne (p : ℕ) (hp : w.Live p) : (k.processes p).pagetable ≠ L.kernelPagetables :=
    h.pagetable_ne_kernel hw hp
  have hlive (p : ℕ) : (k.processes p).state ≠ .free ↔ w.Live p := h.live p
  have hkernel : checkPageTableOwnership L k L.kernelPagetables (-1) :=
    h.kernel_ownership hw h.mem.kernel
  have hproc (p : ℕ) (hp : w.Live p) :
      checkPageTableOwnership L k (k.processes p).pagetable p ↔
        ∀ j, w.info (w.frames p j) = ⟨p, 1⟩ := by
    rw [checkPageTableOwnership, if_neg (hne p hp), h.mem.root p hp,
      (h.mem.tree p hp).ownership_iff, h.info]
  unfold checkVirtualMemory
  constructor
  · rintro ⟨-, -, -, htables, howners⟩
    refine ⟨fun p hp => ?_, fun pn hpn hr ho => ?_⟩
    · exact (hproc p hp).mp (htables p (hw.live_lt hp) ((hlive p).mpr hp) (hne p hp)).2
    · rw [← h.info] at hr ho ⊢
      exact (hlive _).mp (howners pn hpn hr ho)
  · intro hc
    refine ⟨?_, ?_, hkernel, fun p _ hp _ => ?_, fun pn hpn hr ho => ?_⟩
    · have := hw.zero
      rwa [← h.state] at this
    · rw [← L.tables_zero]
      exact checkPageTableMappings_tree h.mem.kernel kernelOwnLeaf_kernel
    · have hp' := (hlive p).mp hp
      refine ⟨?_, (hproc p hp').mpr (hc.tables p hp')⟩
      rw [h.mem.root p hp']
      exact checkPageTableMappings_tree (h.mem.tree p hp') (w.leaf_kernel p)
    · rw [h.info] at hr ho ⊢
      exact (hlive _).mpr (hc.owners pn hpn hr ho)

theorem World.leaf_present_lt {L : KernelLayout} {w : World} (hw : w.Wf L) (p : ℕ) :
    ∀ i < 768, w.leaf p i &&& pteP ≠ 0 → w.leaf p i < 0x200000 := by
  intro i hi hp
  unfold World.leaf at hp ⊢
  split_ifs at hp ⊢ with hlow
  · have := kernelPerm_lt i
    unfold kernelLeaf
    omega
  · cases hr : w.held (p, .page i) with
    | none => norm_num [Ref.entry]
    | some r =>
        have h1 := hw.frame_lt hr
        have h2 := Ref.perm_lt (some r)
        rw [Ref.entry_some]
        omega

theorem MemSim.console_frame {L : KernelLayout} {m m' : Memory} {w : World} {pt : ℕ → ℕ}
    (h : MemSim L m w pt) (hw : w.Wf L) (ha : AgreeOff 4096 (· = consolePage) m m') :
    MemSim L m' w pt :=
  h.frame ha (fun j hj => not_usable_console (L := L) (by
      have := L.tables_range j
      simp only [consolePage] at hj
      omega))
    (fun p hp j hj => not_usable_console (hj ▸ hw.frames_usable hp j))

/-- The viewer draws any live process. -/
theorem MemSim.memshowVirtual_ok {L : KernelLayout} {m : Memory} {w : World} {pt : ℕ → ℕ}
    (h : MemSim L m w pt) (hw : w.Wf L) {p : ℕ} (hp : w.Live p) (info : PageInfos)
    (name : List ℕ) :
    ∃ m', memshowVirtual m info (pt p) name = .ok m' ∧ AgreeOff 4096 (· = consolePage) m m' := by
  rw [h.root p hp]
  exact WeensyOS.memshowVirtual_ok (h.tree p hp)
    (fun j hj => not_usable_console (hj ▸ hw.frames_usable hp j)) (World.leaf_present_lt hw p)
    info name

theorem memshowVirtualAnimate_ok {L : KernelLayout} {k : Kernel} {w : World}
    (hm : MemSim L k.mem w (fun p => (k.processes p).pagetable)) (hs : k.states = w.state)
    (hw : w.Wf L) :
    ∃ m lastTicks showing, memshowVirtualAnimate k =
        .ok { k with mem := m, lastTicks := lastTicks, showing := showing } ∧
      AgreeOff 4096 (· = consolePage) k.mem m := by
  unfold memshowVirtualAnimate
  dsimp only
  split_ifs with hadv hlive hlive
  · obtain ⟨m', hm', ha⟩ := hm.memshowVirtual_ok hw (p := skipFree k.states (2 * nProc + 1)
      (k.showing + 1) % nProc) (by rw [World.Live, ← hs]; exact hlive) k.pageinfo _
    exact ⟨m', _, _, by rw [hm']; rfl, ha⟩
  · exact ⟨k.mem, _, _, rfl, AgreeOff.refl _ _ _⟩
  · obtain ⟨m', hm', ha⟩ := hm.memshowVirtual_ok hw (p := skipFree k.states (2 * nProc + 1)
      k.showing % nProc) (by rw [World.Live, ← hs]; exact hlive) k.pageinfo _
    exact ⟨m', _, _, by rw [hm']; rfl, ha⟩
  · exact ⟨k.mem, _, _, rfl, AgreeOff.refl _ _ _⟩

theorem Sim.showMemory_ok {L : KernelLayout} {k : Kernel} {w : World} (h : Sim L k w)
    (hw : w.Wf L) (hc : w.Checked L) {reg : Registers} (hreg : showsMemory reg) :
    ∃ m lastTicks showing, showMemory L k reg =
        .ok { k with mem := m, lastTicks := lastTicks, showing := showing } ∧
      AgreeOff 4096 (· = consolePage) k.mem m := by
  unfold showMemory
  rw [if_pos hreg, assert_true ((h.check_iff hw).mpr hc), ok_bind]
  split_ifs
  · have ha := agreeOff_memshowPhysical k.mem k.pageinfo
    generalize memshowPhysical k.mem k.pageinfo = m₁ at ha ⊢
    have hm : MemSim L ({ k with mem := m₁ } : Kernel).mem w
        (fun p => (({ k with mem := m₁ } : Kernel).processes p).pagetable) :=
      h.mem.console_frame hw ha
    obtain ⟨m, lt, sh, heq, ha'⟩ := memshowVirtualAnimate_ok hm h.state hw
    exact ⟨m, lt, sh, heq, ha.trans ha'⟩
  · exact ⟨k.mem, k.lastTicks, k.showing, rfl, AgreeOff.refl _ _ _⟩

theorem showMemory_checks {L : KernelLayout} {k k' : Kernel} {reg : Registers}
    (hreg : showsMemory reg)
    (h : showMemory L k reg = .ok k') : checkVirtualMemory L k := by
  unfold showMemory at h
  rw [if_pos hreg, bind_eq_ok] at h
  obtain ⟨_, hcheck, -⟩ := h
  exact assert_eq_ok.mp hcheck

end WeensyOS
