import WeensyOS.Cloning
import WeensyOS.PageAlloc

/-!
# A successful fork

With a free slot and enough memory, a fork gives the lowest free slot an address space with the same
mappings and the same contents. Its writable pages are fresh, the others are the parent's.
-/

namespace WeensyOS
open ByteMemory

/-- A fork of the caller can succeed: it has the page table `S` with the leaf entries `leaf`. -/
structure Forkable (k : Kernel) (S : Fin 5 → ℕ) (leaf : ℕ → ℕ) : Prop where
  live : k.Live k.current
  tree : Tree k.mem S leaf
  pagetable : k.currentProc.pagetable = S 0 * 4096
  tables : ∀ j, (k.pageinfo (S j)).refcount ≠ 0
  clonable : Clonable leaf k.pageinfo
  console : ∀ i ∈ Finset.Ico 256 768, leaf i &&& pteP ≠ 0 → leaf i / 4096 ≠ consolePage
  slot : ∃ q, 1 ≤ q ∧ q < nProc ∧ k.states q = .free
  room : 5 + k.writablePages ≤ (freePages k.pageinfo).card

section contract
variable (k k' : Kernel) (c : ℕ)

/-- The frame of user page `i` in process `p`. -/
def frameIn (k : Kernel) (p i : ℕ) : ℤ :=
  (virtualMemoryLookup k.mem (k.processes p).pagetable (i * 4096)).pn

/-- Page `pn`, free in `k`, backs page `i` of `c` in `k'` and has no other use. -/
structure PrivateTo (i pn : ℕ) : Prop where
  frame : frameIn k' c i = pn
  free : pn ∈ freePages k.pageinfo
  info : k'.pageinfo pn = ⟨c, 1⟩
  alone : ∀ i' ∈ Finset.Ico 256 768, frameIn k' c i' = pn → i' = i
  no_table : ∀ va l, l ≤ 3 → Reached k'.mem (k'.processes c).pagetable va l →
    pathTable k'.mem (k'.processes c).pagetable va l ≠ pn * 4096

/-- The fork has made `c` a copy of the caller. -/
structure ForkCopied : Prop where
  lowest : 1 ≤ c ∧ c < nProc ∧ k.states c = .free ∧ ∀ q, 1 ≤ q → q < c → k.states q ≠ .free
  result : k'.currentProc.registers.regRax = BitVec.ofNat 64 c
  child : k'.states c = .runnable ∧
    (k'.processes c).registers = { k.currentProc.registers with regRax := 0 }
  perm : ∀ va < memsizeVirtual,
    (virtualMemoryLookup k'.mem (k'.processes c).pagetable va).perm =
      (virtualMemoryLookup k.mem k.currentProc.pagetable va).perm
  bytes : ∀ va, procStartAddr ≤ va → va < memsizeVirtual →
    virtualByte k'.mem (k'.processes c).pagetable va =
      virtualByte k.mem k.currentProc.pagetable va
  parent : ∀ va, procStartAddr ≤ va → va < memsizeVirtual →
    virtualByte k'.mem k.currentProc.pagetable va = virtualByte k.mem k.currentProc.pagetable va
  writable : ∀ i ∈ Finset.Ico 256 768,
    (virtualMemoryLookup k.mem k.currentProc.pagetable (i * 4096)).perm &&& pteW ≠ 0 →
      ∃ pn, PrivateTo k k' c i pn
  shared : ∀ i ∈ Finset.Ico 256 768,
    (virtualMemoryLookup k.mem k.currentProc.pagetable (i * 4096)).perm &&& pteP ≠ 0 →
    (virtualMemoryLookup k.mem k.currentProc.pagetable (i * 4096)).perm &&& pteW = 0 →
      ∃ pn : ℕ, frameIn k k.current i = pn ∧ frameIn k' c i = pn ∧ k'.pageinfo pn =
        { k.pageinfo pn with refcount := (k.pageinfo pn).refcount + 1 }

end contract

/-! The child's entries against the parent's. -/

section entries
variable {leaf f : ℕ → ℕ} {i : ℕ}

theorem childEntry_kept (hc : ¬ (256 ≤ i ∧ Copies leaf i)) :
    childEntry leaf f i = presentEntry (leaf i) := if_neg hc

/-- The entry of a copied page. -/
theorem childEntry_copied (hi : 256 ≤ i) (hc : Copies leaf i) (hf : f i < 512) (va : ℕ) :
    VaMapping.ofEntry (childEntry leaf f i) va = ⟨f i, f i * 4096 + va % 4096, leaf i % 4096⟩ ∧
      (Translation.ofEntry (childEntry leaf f i) va).map Translation.pa =
        some (f i * 4096 + va % 4096) := by
  have hmod : leaf i % 4096 < 4096 := Nat.mod_lt _ (by norm_num)
  have hp : (f i * 4096 + leaf i % 4096) &&& pteP ≠ 0 := by
    rw [frame_and_flag hmod (by norm_num), ← and_flag_split (by norm_num)]
    exact hc.1
  rw [childEntry, if_pos ⟨hi, hc⟩, VaMapping.ofEntry, if_pos hp, Translation.ofEntry, if_pos hp,
    pageNumber_eq (by omega), pteAddr_frame (by omega) hmod, pageOffset_eq, pteFlags_eq,
    frame_div hmod, frame_mod hmod]
  exact ⟨rfl, rfl⟩

theorem translation_pa {va pe : ℕ} (hp : pe &&& pteP ≠ 0) (hpe : pe < 0x200000) :
    (Translation.ofEntry pe va).map Translation.pa = some (pe / 4096 * 4096 + va % 4096) := by
  rw [Translation.ofEntry, if_pos hp, pteAddr_eq (by omega), pageOffset_eq]
  rfl

end entries

/-- The two stages of a successful fork. -/
structure ForkDone (k k' : Kernel) (c : ℕ) (S T : Fin 5 → ℕ) (leaf f : ℕ → ℕ) (m₁ : Memory)
    (info₁ : PageInfos) : Prop where
  slot : findFreeSlot k.states 15 1 = some c
  fresh : FreshTable k.mem k.pageinfo leaf c T m₁ info₁
  cloned : Cloned (fun pn => (∃ j, pn = S j) ∨ ∃ j, pn = T j) S T leaf 768 k'.mem k'.pageinfo f
  copied : CopiedTo m₁ info₁ T leaf c 768 k'.mem k'.pageinfo f
  written : SlotWritten k k' c .runnable (T 0 * 4096)
  processes : k'.processes = ((k.updateProc c (childProc c (T 0 * 4096)
    k.currentProc.registers)).setRax k.current (BitVec.ofNat 64 c)).processes

namespace Forkable

variable {k : Kernel} {S : Fin 5 → ℕ} {leaf : ℕ → ℕ} (h : Forkable k S leaf)

include h

theorem exists_slot : ∃ c, findFreeSlot k.states 15 1 = some c := by
  obtain ⟨q, hq, hq', hfree⟩ := h.slot
  cases hs : findFreeSlot k.states 15 1 with
  | some c => exact ⟨c, rfl⟩
  | none =>
      simp only [nProc] at hq'
      exact absurd hfree (findFreeSlot_none hs q hq (by omega))

theorem fork : ∃ k' c T f m₁ info₁, sysFork k = .ok (k', .break) ∧
    ForkDone k k' c S T leaf f m₁ info₁ := by
  obtain ⟨c, hslot⟩ := h.exists_slot
  obtain ⟨-, hc16, hfree, -⟩ := findFreeSlot_some hslot
  have hroom := h.room
  have hcard := copies_le_writable h.tree h.pagetable h.clonable.phys
  obtain ⟨T, m₁, info₁, hdup, hfresh⟩ := duplicatePagetable_fresh (c := c) (by omega) h.tree
    (fun i hi => h.clonable.phys i (by omega)) h.tables (by omega)
  have hT (j : Fin 5) : (info₁ (T j)).refcount ≠ 0 := by
    rw [hfresh.counted j]
    exact one_ne_zero
  have hstart : Cloned (fun pn => (∃ j, pn = S j) ∨ ∃ j, pn = T j) S T leaf 256 m₁ info₁
      (fun _ => 0) := by
    apply hfresh.cloned h.tree (fun j => .inl ⟨j, rfl⟩) (fun j => .inr ⟨j, rfl⟩) h.tables
    rintro pn (⟨j, rfl⟩ | ⟨j, rfl⟩)
    · rw [(hfresh.kept (h.tables j)).2]
      exact h.tables j
    · exact hT j
  obtain ⟨m', info', f, hloop, hcl, hcp⟩ := clone_loop (c := c) (by omega)
    (hfresh.clonable h.clonable) hT (fun x hx hp j => by
      have := (h.clonable.counted x hx hp).1
      exact (hfresh.kept (by omega)).1 j) (n := 512) le_rfl rfl hstart
    (CopiedTo.start m₁ info₁ T leaf c _) (by have := hfresh.room; omega)
  rw [← h.pagetable] at hdup hloop
  have hne : k.current ≠ c := by
    rintro rfl
    exact h.live hfree
  have hpos : T 0 * 4096 ≠ 0 := by
    have := hfresh.tree.pos 0
    omega
  obtain ⟨k', hk', hmem, hinfo, hwritten, hproc⟩ := sysFork_success hslot hne hpos hdup hloop
  exact ⟨k', c, T, f, m₁, info₁, hk', hslot, hfresh, by rwa [hmem, hinfo],
    by rwa [hmem, hinfo], hwritten, hproc⟩

end Forkable

/-- The tables that a walk through a tree reads are the tree's own. -/
theorem Tree.pathTable_mem {m : Memory} {T : Fin 5 → ℕ} {leaf : ℕ → ℕ} (h : Tree m T leaf)
    {va l : ℕ} (hl : l ≤ 3) (hr : Reached m (T 0 * 4096) va l) :
    ∃ j, pathTable m (T 0 * 4096) va l = T j * 4096 := by
  have haddr (j : Fin 5) : pteAddr (T j * 4096 + 7) = T j * 4096 :=
    pteAddr_frame (by have := h.lt j; omega) (by norm_num)
  have h0 : pathTable m (T 0 * 4096) va 0 = T 0 * 4096 := rfl
  have h1 (hr : Reached m (T 0 * 4096) va 1) : pathTable m (T 0 * 4096) va 1 = T 1 * 4096 := by
    have hp := (reached_succ.mp hr).2
    rw [pathEntry, h0, h.l1 _ (pageindex_lt va 0)] at hp
    rw [pathTable, h0, h.l1 _ (pageindex_lt va 0)]
    split_ifs at hp ⊢
    · exact haddr 1
    · exact absurd rfl hp
  have h2 (hr : Reached m (T 0 * 4096) va 2) : pathTable m (T 0 * 4096) va 2 = T 2 * 4096 := by
    obtain ⟨hr', hp⟩ := reached_succ.mp hr
    rw [pathEntry, h1 hr', h.l2 _ (pageindex_lt va 1)] at hp
    rw [pathTable, h1 hr', h.l2 _ (pageindex_lt va 1)]
    split_ifs at hp ⊢
    · exact haddr 2
    · exact absurd rfl hp
  have h3 (hr : Reached m (T 0 * 4096) va 3) : pathTable m (T 0 * 4096) va 3 = T 3 * 4096 ∨
      pathTable m (T 0 * 4096) va 3 = T 4 * 4096 := by
    obtain ⟨hr', hp⟩ := reached_succ.mp hr
    rw [pathEntry, h2 hr', h.l3 _ (pageindex_lt va 2)] at hp
    rw [pathTable, h2 hr', h.l3 _ (pageindex_lt va 2)]
    split_ifs at hp ⊢
    · exact .inl (haddr 3)
    · exact .inr (haddr 4)
    · exact absurd rfl hp
  obtain rfl | rfl | rfl | rfl : l = 0 ∨ l = 1 ∨ l = 2 ∨ l = 3 := by omega
  · exact ⟨0, h0⟩
  · exact ⟨1, h1 hr⟩
  · exact ⟨2, h2 hr⟩
  · exact (h3 hr).elim (fun h => ⟨3, h⟩) fun h => ⟨4, h⟩

theorem mem_user_page {va : ℕ} (hlo : procStartAddr ≤ va) (hhi : va < memsizeVirtual) :
    va / 4096 ∈ Finset.Ico 256 768 := by
  simp only [procStartAddr] at hlo
  simp only [memsizeVirtual] at hhi
  exact Finset.mem_Ico.mpr ⟨by omega, by omega⟩

theorem Forkable.caller_lookup {k : Kernel} {S : Fin 5 → ℕ} {leaf : ℕ → ℕ}
    (hk : Forkable k S leaf) {va : ℕ} (hva : va < memsizeVirtual) :
    virtualMemoryLookup k.mem k.currentProc.pagetable va =
      VaMapping.ofEntry (leaf (va / 4096)) va := by
  simp only [memsizeVirtual] at hva
  rw [hk.pagetable, hk.tree.lookup_low (by omega)]

/-- Without the console, the writable pages are the copied ones. -/
theorem Forkable.copies_of_writable {k : Kernel} {S : Fin 5 → ℕ} {leaf : ℕ → ℕ}
    (hk : Forkable k S leaf) {i : ℕ} (hi : i ∈ Finset.Ico 256 768)
    (hw : (virtualMemoryLookup k.mem k.currentProc.pagetable (i * 4096)).perm &&& pteW ≠ 0) :
    Copies leaf i := by
  have hphys := hk.clonable.phys i (Finset.mem_Ico.mp hi).2
  rw [hk.caller_lookup (page_lt hi), Nat.mul_div_cancel i (by norm_num)] at hw
  refine (copies_iff hphys).mp ⟨?_, hw⟩
  by_cases hp : leaf i &&& pteP = 0
  · rw [VaMapping.ofEntry, if_neg (not_not.mpr hp)] at hw
    exact absurd rfl hw
  · have hne := hk.console i hi hp
    rw [VaMapping.ofEntry_present hp (hphys hp)]
    simp only [consolePage] at hne
    simp only [consoleAddr]
    omega

namespace ForkDone

variable {k k' : Kernel} {c : ℕ} {S T : Fin 5 → ℕ} {leaf f : ℕ → ℕ} {m₁ : Memory}
  {info₁ : PageInfos} (h : ForkDone k k' c S T leaf f m₁ info₁)

include h

theorem child_pagetable : (k'.processes c).pagetable = T 0 * 4096 := by
  rw [h.written.pagetable, if_pos rfl]

theorem copy_free {i : ℕ} (hi : i ∈ Finset.Ico 256 768) (hc : Copies leaf i) :
    f i ∈ freePages info₁ ∧ f i ∈ freePages k.pageinfo := by
  have hmem := h.copied.fresh i hi hc
  refine ⟨hmem, ?_⟩
  obtain ⟨hrange, hz⟩ := Finset.mem_filter.mp hmem
  exact Finset.mem_filter.mpr ⟨hrange, h.fresh.free_before hz⟩

theorem copy_lt {i : ℕ} (hi : i ∈ Finset.Ico 256 768) (hc : Copies leaf i) : f i < 512 :=
  (Finset.mem_Ico.mp (Finset.mem_filter.mp (h.copy_free hi hc).1).1).2

/-- Pages in use keep their contents. -/
theorem kept_byte {pn o : ℕ} (ho : o < 4096) (hpn : (k.pageinfo pn).refcount ≠ 0) :
    k'.mem (pn * 4096 + o) = k.mem (pn * 4096 + o) := by
  obtain ⟨hne, hsame⟩ := h.fresh.kept hpn
  have hdiv : (pn * 4096 + o) / 4096 = pn := by omega
  rw [h.copied.frame, h.fresh.frame]
  · rw [hdiv]
    exact fun ⟨j, hj⟩ => hne j hj
  · rw [hdiv]
    rintro (⟨j, hj⟩ | ⟨x, hx, hc, heq⟩)
    · exact hne j hj
    · rw [heq] at hpn
      exact hpn (Finset.mem_filter.mp (h.copy_free hx hc).2).2

section lookups
variable {va : ℕ} (hva : va < memsizeVirtual)

include hva

theorem child_lookup : virtualMemoryLookup k'.mem (k'.processes c).pagetable va =
    VaMapping.ofEntry (childEntry leaf f (va / 4096)) va := by
  simp only [memsizeVirtual] at hva
  rw [h.child_pagetable, h.cloned.child.lookup_low (by omega), if_pos (by omega)]

theorem child_physical : physical k'.mem (k'.processes c).pagetable va =
    (Translation.ofEntry (childEntry leaf f (va / 4096)) va).map Translation.pa := by
  simp only [memsizeVirtual] at hva
  rw [h.child_pagetable, h.cloned.child.physical_low (by omega), if_pos (by omega)]

end lookups

section copied
variable (hk : Forkable k S leaf)

include hk

theorem perm_eq {va : ℕ} (hva : va < memsizeVirtual) :
    (virtualMemoryLookup k'.mem (k'.processes c).pagetable va).perm =
      (virtualMemoryLookup k.mem k.currentProc.pagetable va).perm := by
  rw [h.child_lookup hva, hk.caller_lookup hva, childEntry_perm]

/-- What the caller's table `S` says, then and now. -/
theorem caller_physical {va : ℕ} (hva : va < memsizeVirtual) :
    physical k.mem k.currentProc.pagetable va =
        (Translation.ofEntry (leaf (va / 4096)) va).map Translation.pa ∧
      physical k'.mem k.currentProc.pagetable va =
        (Translation.ofEntry (leaf (va / 4096)) va).map Translation.pa := by
  simp only [memsizeVirtual] at hva
  rw [hk.pagetable]
  exact ⟨hk.tree.physical_low (by omega), h.cloned.parent.physical_low (by omega)⟩

/-- A byte of a page that is present in the caller has not changed. -/
theorem source_byte {va : ℕ} (hlo : procStartAddr ≤ va) (hhi : va < memsizeVirtual) :
    ((Translation.ofEntry (leaf (va / 4096)) va).map Translation.pa).map k'.mem =
      ((Translation.ofEntry (leaf (va / 4096)) va).map Translation.pa).map k.mem := by
  have hmem := mem_user_page hlo hhi
  by_cases hp : leaf (va / 4096) &&& pteP = 0
  · rw [Translation.ofEntry, if_neg (not_not.mpr hp)]
    rfl
  · have hcount := (hk.clonable.counted _ hmem hp).1
    rw [translation_pa hp (hk.clonable.phys _ (Finset.mem_Ico.mp hmem).2 hp)]
    exact congrArg some (h.kept_byte (Nat.mod_lt _ (by norm_num)) (by omega))

theorem bytes_eq {va : ℕ} (hlo : procStartAddr ≤ va) (hhi : va < memsizeVirtual) :
    virtualByte k'.mem (k'.processes c).pagetable va =
      virtualByte k.mem k.currentProc.pagetable va := by
  have hmem := mem_user_page hlo hhi
  rw [virtualByte, virtualByte, h.child_physical hhi, (h.caller_physical hk hhi).1]
  by_cases hc : Copies leaf (va / 4096)
  · have h256 := (Finset.mem_Ico.mp hmem).1
    have hcount := (hk.clonable.counted _ hmem hc.1).1
    have hoff : va % 4096 < 4096 := Nat.mod_lt _ (by norm_num)
    rw [(childEntry_copied h256 hc (h.copy_lt hmem hc) va).2,
      translation_pa hc.1 (hk.clonable.phys _ (Finset.mem_Ico.mp hmem).2 hc.1)]
    apply congrArg some
    rw [h.copied.bytes _ hmem hc _ hoff, h.fresh.frame]
    rw [show (leaf (va / 4096) / 4096 * 4096 + va % 4096) / 4096 = leaf (va / 4096) / 4096 by omega]
    rintro ⟨j, hj⟩
    exact (h.fresh.kept (by omega)).1 j hj
  · rw [childEntry_kept fun hc' => hc hc'.2, (ofEntry_presentEntry _ va).2]
    exact h.source_byte hk hlo hhi

theorem parent_byte {va : ℕ} (hlo : procStartAddr ≤ va) (hhi : va < memsizeVirtual) :
    virtualByte k'.mem k.currentProc.pagetable va =
      virtualByte k.mem k.currentProc.pagetable va := by
  rw [virtualByte, virtualByte, (h.caller_physical hk hhi).1, (h.caller_physical hk hhi).2]
  exact h.source_byte hk hlo hhi

/-- The frames of the child's pages. -/
theorem frameIn_child {i : ℕ} (hi : i ∈ Finset.Ico 256 768) : frameIn k' c i =
    if Copies leaf i then (f i : ℤ) else if leaf i &&& pteP ≠ 0 then (leaf i / 4096 : ℕ)
    else -1 := by
  have hdiv : i * 4096 / 4096 = i := Nat.mul_div_cancel i (by norm_num)
  rw [frameIn, h.child_lookup (page_lt hi), hdiv]
  by_cases hc : Copies leaf i
  · rw [(childEntry_copied (Finset.mem_Ico.mp hi).1 hc (h.copy_lt hi hc) _).1, if_pos hc]
  · rw [childEntry_kept fun hc' => hc hc'.2, (ofEntry_presentEntry _ _).1, if_neg hc]
    split_ifs with hp
    · rw [VaMapping.ofEntry_present hp (hk.clonable.phys i (Finset.mem_Ico.mp hi).2 hp)]
    · rw [VaMapping.ofEntry, if_neg hp]
      rfl

theorem privateTo {i : ℕ} (hi : i ∈ Finset.Ico 256 768) (hc : Copies leaf i) :
    PrivateTo k k' c i (f i) := by
  obtain ⟨hfree₁, hfree⟩ := h.copy_free hi hc
  have hz := (Finset.mem_filter.mp hfree).2
  have hz₁ := (Finset.mem_filter.mp hfree₁).2
  refine ⟨?_, hfree, h.copied.copied i hi hc, fun i' hi' heq => ?_, fun va l hl hr heq => ?_⟩
  · rw [h.frameIn_child hk hi, if_pos hc]
  · rw [h.frameIn_child hk hi'] at heq
    split_ifs at heq with hc' hp'
    · exact h.copied.inj i' hi' i hi hc' hc (by exact_mod_cast heq)
    · have hcount := (hk.clonable.counted i' hi' hp').1
      have hsame : leaf i' / 4096 = f i := by exact_mod_cast heq
      rw [hsame] at hcount
      omega
  · rw [h.child_pagetable] at hr heq
    obtain ⟨j, hj⟩ := h.cloned.child.pathTable_mem hl hr
    obtain hfT : f i = T j := by omega
    rw [hfT, h.fresh.counted j] at hz₁
    exact one_ne_zero hz₁

theorem shared_frame {i : ℕ} (hi : i ∈ Finset.Ico 256 768)
    (hp : (virtualMemoryLookup k.mem k.currentProc.pagetable (i * 4096)).perm &&& pteP ≠ 0)
    (hw : (virtualMemoryLookup k.mem k.currentProc.pagetable (i * 4096)).perm &&& pteW = 0) :
    ∃ pn : ℕ, frameIn k k.current i = pn ∧ frameIn k' c i = pn ∧ k'.pageinfo pn =
      { k.pageinfo pn with refcount := (k.pageinfo pn).refcount + 1 } := by
  have hphys := hk.clonable.phys i (Finset.mem_Ico.mp hi).2
  have hlook := hk.caller_lookup (page_lt hi)
  rw [Nat.mul_div_cancel i (by norm_num)] at hlook
  rw [hlook] at hp hw
  have hp' : leaf i &&& pteP ≠ 0 := by
    intro hz
    rw [VaMapping.ofEntry, if_neg (not_not.mpr hz)] at hp
    exact hp rfl
  have hs : Shares leaf i := ⟨hp', fun hc => ((copies_iff hphys).mpr hc).2 hw⟩
  have hcount := (hk.clonable.counted i hi hp').1
  refine ⟨leaf i / 4096, ?_, ?_, ?_⟩
  · rw [frameIn]
    refine (congrArg VaMapping.pn hlook).trans ?_
    rw [VaMapping.ofEntry_present hp' (hphys hp')]
  · rw [h.frameIn_child hk hi, if_neg hs.2, if_pos hp']
  · rw [h.copied.shared i hi hs, (h.fresh.kept (by omega)).2]

end copied

end ForkDone

/-- A fork that finds a free slot and enough memory copies the caller. -/
theorem sysFork_copies {k : Kernel} {S : Fin 5 → ℕ} {leaf : ℕ → ℕ} (hk : Forkable k S leaf) :
    ∃ k' c, sysFork k = .ok (k', .break) ∧ ForkCopied k k' c := by
  obtain ⟨k', c, T, f, m₁, info₁, hstep, h⟩ := hk.fork
  obtain ⟨hlo, hhi, hfree, hlowest⟩ := findFreeSlot_some h.slot
  have hne : k.current ≠ c := by
    rintro rfl
    exact hk.live hfree
  have hproc := h.processes
  refine ⟨k', c, hstep, ⟨⟨hlo, hhi, hfree, hlowest⟩, ?_, ⟨?_, ?_⟩, fun va => h.perm_eq hk,
    fun va => h.bytes_eq hk, fun va => h.parent_byte hk, fun i hi hw => ?_,
    fun i hi => h.shared_frame hk hi⟩⟩
  · rw [Kernel.currentProc, h.written.current, hproc, Kernel.setRax, Kernel.updateProc_same]
  · rw [h.written.state, Function.update_self]
  · rw [hproc, Kernel.setRax, Kernel.updateProc_of_ne _ _ _ hne.symm, Kernel.updateProc_same]
    rfl
  · exact ⟨f i, h.privateTo hk hi (hk.copies_of_writable hi hw)⟩

/-- A caller with a writable page and a read-only one. -/
def forkKernel : Kernel where
  mem := setEntry (setEntry (emptyTables fun j => 8 + j) 0xB000 256 0x14007) 0xB000 257 0x15005
  pageinfo := fun pn => if 8 ≤ pn ∧ pn < 13 ∨ pn = 20 ∨ pn = 21 then ⟨1, 1⟩ else ⟨0, 0⟩
  processes := fun p => ⟨p, Registers.ofWords [], if p = 1 then .runnable else .free, 0x8000, false⟩
  current := 1
  ticks := 0
  dispGlobal := true
  lastTicks := 0
  showing := 0

def forkLeaf : ℕ → ℕ := Function.update (Function.update (fun _ => 0) 256 0x14007) 257 0x15005

theorem forkKernel_tree : Tree forkKernel.mem (fun j => 8 + j) forkLeaf := by
  have h := emptyTables_tree (T := fun j => 8 + j) (fun j => by omega) (fun j => by omega)
    fun i j hij => Fin.ext (Nat.add_left_cancel hij)
  exact (h.setLeaf (show 256 < 1024 by norm_num) (show 0x14007 < 2 ^ 64 by norm_num)).setLeaf
    (show 257 < 1024 by norm_num) (show 0x15005 < 2 ^ 64 by norm_num)

theorem forkLeaf_present {i : ℕ} (h : forkLeaf i &&& pteP ≠ 0) :
    (i = 256 ∧ forkLeaf i = 0x14007) ∨ (i = 257 ∧ forkLeaf i = 0x15005) := by
  unfold forkLeaf at h ⊢
  by_cases h1 : i = 257
  · rw [h1, Function.update_self]
    exact .inr ⟨rfl, rfl⟩
  · rw [Function.update_of_ne h1] at h ⊢
    by_cases h0 : i = 256
    · rw [h0, Function.update_self]
      exact .inl ⟨rfl, rfl⟩
    · rw [Function.update_of_ne h0] at h
      exact absurd rfl h

theorem forkKernel_room : 5 + forkKernel.writablePages ≤ (freePages forkKernel.pageinfo).card := by
  have hsub : forkKernel.writablePages ≤ ({256} : Finset ℕ).card := by
    refine Finset.card_le_card fun i hi => ?_
    obtain ⟨hmem, hw⟩ := Finset.mem_filter.mp hi
    have hi768 := (Finset.mem_Ico.mp hmem).2
    rw [show forkKernel.currentProc.pagetable = (8 + ((0 : Fin 5) : ℕ)) * 4096 from rfl,
      forkKernel_tree.lookup_page (by omega)] at hw
    by_cases hp : forkLeaf i &&& pteP = 0
    · rw [VaMapping.ofEntry, if_neg (not_not.mpr hp)] at hw
      exact absurd rfl hw
    · rcases forkLeaf_present hp with ⟨hi, -⟩ | ⟨-, he⟩
      · exact Finset.mem_singleton.mpr hi
      · rw [he, VaMapping.ofEntry_present (by decide) (by norm_num)] at hw
        exact absurd rfl hw
  have hfree : 6 ≤ (freePages forkKernel.pageinfo).card := by decide +kernel
  rw [Finset.card_singleton] at hsub
  omega

theorem forkKernel_forkable : Forkable forkKernel (fun j => 8 + j) forkLeaf := by
  refine ⟨by decide, forkKernel_tree, rfl, by decide, ⟨fun i _ hp => ?_, fun i _ hp => ?_,
    fun i _ i' _ hs hs' _ => ?_⟩, fun i _ hp => ?_, ⟨2, by decide⟩, forkKernel_room⟩
  · rcases forkLeaf_present hp with ⟨-, h⟩ | ⟨-, h⟩ <;> rw [h] <;> norm_num
  · rcases forkLeaf_present hp with ⟨-, h⟩ | ⟨-, h⟩ <;> rw [h] <;> decide
  · rcases forkLeaf_present hs.1 with ⟨hi, h⟩ | ⟨hi, h⟩ <;>
      rcases forkLeaf_present hs'.1 with ⟨hi', h'⟩ | ⟨hi', h'⟩
    · exact hi.trans hi'.symm
    · exact absurd (by decide : Copies forkLeaf 256) (hi ▸ hs.2)
    · exact absurd (by decide : Copies forkLeaf 256) (hi' ▸ hs'.2)
    · exact hi.trans hi'.symm
  · rcases forkLeaf_present hp with ⟨-, h⟩ | ⟨-, h⟩ <;> rw [h] <;> decide

theorem sysFork_copies_sample :
    ∃ k' c, sysFork forkKernel = .ok (k', .break) ∧ ForkCopied forkKernel k' c :=
  sysFork_copies forkKernel_forkable

end WeensyOS
