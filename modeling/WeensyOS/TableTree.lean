import WeensyOS.VirtualMemory

/-!
# Page-table trees

Every page table the kernel builds, its own included, consists of five pages: one table for each
of the first three levels and two leaf tables, which cover the first `0x400000` bytes of virtual
memory. `Tree m T leaf` says that memory `m` holds such a tree on the pages `T` whose 1024 leaf
entries are `leaf`. The kernel's lookup, the processor's walk and a one-page mapping are computed
here once, in terms of `leaf`; later modules never unfold a page walk again.
-/

namespace WeensyOS
open ByteMemory

/-- The tables of a tree are numbered by literals of `Fin 5`. -/
instance neZeroTables : NeZero 5 := ⟨by norm_num⟩

/-- The leaf table that holds leaf entry `i`. -/
def leafTable (T : Fin 5 → ℕ) (i : ℕ) : ℕ := if i < 512 then T 3 else T 4

theorem leafTable_mem (T : Fin 5 → ℕ) (i : ℕ) : ∃ j, leafTable T i = T j := by
  unfold leafTable
  split_ifs
  · exact ⟨3, rfl⟩
  · exact ⟨4, rfl⟩

structure Tree (m : Memory) (T : Fin 5 → ℕ) (leaf : ℕ → ℕ) : Prop where
  pos : ∀ j, 0 < T j
  lt : ∀ j, T j < 512
  inj : Function.Injective T
  l1 : ∀ i < 512, entry m (T 0 * 4096) i = if i = 0 then T 1 * 4096 + 7 else 0
  l2 : ∀ i < 512, entry m (T 1 * 4096) i = if i = 0 then T 2 * 4096 + 7 else 0
  l3 : ∀ i < 512, entry m (T 2 * 4096) i =
    if i = 0 then T 3 * 4096 + 7 else if i = 1 then T 4 * 4096 + 7 else 0
  l4 : ∀ i < 1024, entry m (leafTable T i * 4096) (i % 512) = leaf i

/-- The mapping that a leaf entry gives to an address of its page. -/
def VaMapping.ofEntry (pe va : ℕ) : VaMapping :=
  if pe &&& pteP ≠ 0 then ⟨pageNumber pe, pteAddr pe + pageOffset va, pteFlags pe⟩
  else VaMapping.unmapped

def Translation.ofEntry (pe va : ℕ) : Option Translation :=
  if pe &&& pteP ≠ 0 then
    some ⟨pteAddr pe + pageOffset va, pe &&& pteW ≠ 0, pe &&& pteU ≠ 0⟩
  else none

/-- Only addresses whose bits 22 to 47 vanish reach a leaf table of a five-page tree. -/
def inTree (va : ℕ) : Prop := va / 2 ^ 22 % 2 ^ 26 = 0

instance (va : ℕ) : Decidable (inTree va) := inferInstanceAs (Decidable (_ = _))

theorem lookupLevels_absent (m : Memory) (va n i pt pe : ℕ) (h : pe &&& 1 = 0) :
    lookupLevels m va n i pt pe = pe := by
  cases n with
  | zero => rfl
  | succ n => simp [lookupLevels, h]

theorem lookupLevels_present (m : Memory) (va n i pt pe : ℕ) (h : pe &&& 1 ≠ 0) :
    lookupLevels m va (n + 1) i pt pe =
      lookupLevels m va n (i + 1)
        (pteAddr (entry m pt (pageindex va i) &&& lnot64 (pe &&& 6)))
        (entry m pt (pageindex va i) &&& lnot64 (pe &&& 6)) := by
  rw [lookupLevels]
  exact if_pos h

/-- Going down through a present table entry, from a level whose write and user bits are set. -/
theorem lookupLevels_from_seven {m : Memory} {va n i pt t t' : ℕ} (ht' : t' < 512)
    (he : entry m pt (pageindex va i) = t' * 4096 + 7) :
    lookupLevels m va (n + 1) i pt (t * 4096 + 7) =
      lookupLevels m va n (i + 1) (t' * 4096) (t' * 4096 + 1) := by
  have hmask : (t * 4096 + 7) &&& 6 = 6 := frame_and_flag (by norm_num) (by norm_num)
  have hnext : (t' * 4096 + 7) &&& lnot64 6 = t' * 4096 + 1 :=
    frame_and_lnot64 (by omega) (by norm_num) (by norm_num)
  rw [lookupLevels_present _ _ _ _ _ _ (by rw [frame_and_flag] <;> norm_num), he, hmask, hnext,
    pteAddr_frame (by omega) (by norm_num)]

/-- Going down from a level whose write and user bits the previous step has cleared. -/
theorem lookupLevels_from_one {m : Memory} {va n i pt t : ℕ} :
    lookupLevels m va (n + 1) i pt (t * 4096 + 1) =
      lookupLevels m va n (i + 1) (pteAddr (entry m pt (pageindex va i)))
        (entry m pt (pageindex va i)) := by
  have hmask : (t * 4096 + 1) &&& 6 = 0 := frame_and_flag (by norm_num) (by norm_num)
  rw [lookupLevels_present _ _ _ _ _ _ (by rw [frame_and_flag] <;> norm_num), hmask,
    and_lnot64_zero (entry_lt _ _ _)]

theorem lookupLevels_from_seven_zero {m : Memory} {va n i pt t : ℕ}
    (he : entry m pt (pageindex va i) = 0) :
    lookupLevels m va (n + 1) i pt (t * 4096 + 7) = 0 := by
  rw [lookupLevels_present _ _ _ _ _ _ (by rw [frame_and_flag] <;> norm_num), he]
  simp [lookupLevels_absent]

theorem pageindex_three (va : ℕ) : pageindex va 3 = va / 4096 % 512 := pageindex_eq va 3

theorem pageindex_two (va : ℕ) : pageindex va 2 = va / 2 ^ 21 % 512 := pageindex_eq va 2

theorem pageindex_one (va : ℕ) : pageindex va 1 = va / 2 ^ 30 % 512 := pageindex_eq va 1

theorem pageindex_zero (va : ℕ) : pageindex va 0 = va / 2 ^ 39 % 512 := pageindex_eq va 0

theorem entry_setEntry (m : Memory) (t t' : ℕ) {i i' pe : ℕ} (hi : i < 512)
    (hi' : i' < 512) (hpe : pe < 2 ^ 64) :
    entry (setEntry m (t * 4096) i pe) (t' * 4096) i' =
      if t' = t ∧ i' = i then pe else entry m (t' * 4096) i' := by
  unfold entry setEntry
  split_ifs with hc
  · obtain ⟨rfl, rfl⟩ := hc
    rw [loadLE_storeLE_same]
    exact Nat.mod_eq_of_lt hpe
  · exact loadLE_storeLE_disjoint _ _ _ _ _ _ (by omega)

/-- The entry that `virtual_memory_map` stores for one page. -/
def newEntry (pa perm : ℕ) : ℕ := if perm &&& pteP ≠ 0 then pa + perm else perm

theorem next_page_addr {i : ℕ} (h : i < 1024) :
    (i * 4096 + pageSize) % 2 ^ 64 = (i + 1) * 4096 := by
  simp only [pageSize]
  omega

/-- Past its assertions, `virtual_memory_map` is its loop. -/
theorem virtualMemoryMap_eq {m : Memory} {pagetable va pa sz perm : ℕ} (hva : va % 4096 = 0)
    (hsz : sz % 4096 = 0) (hwrap : va + sz ≤ 2 ^ 64) (hva' : va < 2 ^ 64) (hperm : perm < 4096)
    (hpa : perm &&& pteP ≠ 0 → pa % 4096 = 0 ∧ pa + sz ≤ 0x200000) (hpt : pagetable % 4096 = 0) :
    virtualMemoryMap m pagetable va pa sz perm =
      mapPages pagetable perm (sz / 4096) m va pa (-1) 0 := by
  unfold virtualMemoryMap
  rw [assert_true (show va % pageSize = 0 from hva), assert_true (show sz % pageSize = 0 from hsz),
    assert_true (by omega), assert_true (show perm < 0x1000 from hperm),
    assert_true (show pagetable % pageSize = 0 from hpt)]
  by_cases hp : perm &&& pteP ≠ 0
  · obtain ⟨hal, hle⟩ := hpa hp
    rw [if_pos hp, assert_true (show pa % pageSize = 0 from hal), assert_true (by omega),
      assert_true (show (pa + sz) % 2 ^ 64 ≤ memsizePhysical by rw [memsizePhysical]; omega)]
    rfl
  · rw [if_neg hp]
    rfl

namespace Tree

variable {m : Memory} {T : Fin 5 → ℕ} {leaf : ℕ → ℕ}

theorem leafTable_lt (h : Tree m T leaf) (i : ℕ) : leafTable T i < 512 := by
  unfold leafTable
  split_ifs <;> exact h.lt _

theorem leafTable_pos (h : Tree m T leaf) (i : ℕ) : 0 < leafTable T i := by
  unfold leafTable
  split_ifs <;> exact h.pos _

theorem leaf_lt (h : Tree m T leaf) {i : ℕ} (hi : i < 1024) : leaf i < 2 ^ 64 := by
  rw [← h.l4 i hi]
  exact entry_lt _ _ _

/-- The table reached by the first three levels: a leaf table inside the tree, null outside. -/
theorem upper_entries (h : Tree m T leaf) (va : ℕ) :
    (pageindex va 0 ≠ 0 ∧ entry m (T 0 * 4096) (pageindex va 0) = 0 ∧ ¬ inTree va) ∨
    (entry m (T 0 * 4096) (pageindex va 0) = T 1 * 4096 + 7 ∧
      ((entry m (T 1 * 4096) (pageindex va 1) = 0 ∧ ¬ inTree va) ∨
       (entry m (T 1 * 4096) (pageindex va 1) = T 2 * 4096 + 7 ∧
        ((entry m (T 2 * 4096) (pageindex va 2) = 0 ∧ ¬ inTree va) ∨
         (entry m (T 2 * 4096) (pageindex va 2) = leafTable T (va / 4096 % 1024) * 4096 + 7 ∧
          inTree va))))) := by
  have h0 := h.l1 _ (pageindex_lt va 0)
  have h1 := h.l2 _ (pageindex_lt va 1)
  have h2 := h.l3 _ (pageindex_lt va 2)
  by_cases c0 : pageindex va 0 = 0
  · refine Or.inr ⟨by rw [h0, if_pos c0], ?_⟩
    by_cases c1 : pageindex va 1 = 0
    · refine Or.inr ⟨by rw [h1, if_pos c1], ?_⟩
      rw [pageindex_zero] at c0
      rw [pageindex_one] at c1
      rw [pageindex_two] at h2 ⊢
      unfold inTree leafTable
      by_cases c2 : va / 2 ^ 21 % 512 = 0
      · refine Or.inr ⟨?_, by omega⟩
        rw [h2, if_pos c2, if_pos (by omega)]
      · by_cases c3 : va / 2 ^ 21 % 512 = 1
        · refine Or.inr ⟨?_, by omega⟩
          rw [h2, if_neg c2, if_pos c3, if_neg (by omega)]
        · exact Or.inl ⟨by rw [h2, if_neg c2, if_neg c3], by omega⟩
    · refine Or.inl ⟨by rw [h1, if_neg c1], ?_⟩
      rw [pageindex_one] at c1
      unfold inTree
      omega
  · refine Or.inl ⟨c0, by rw [h0, if_neg c0], ?_⟩
    rw [pageindex_zero] at c0
    unfold inTree
    omega

theorem leaf_entry (h : Tree m T leaf) (va : ℕ) :
    entry m (leafTable T (va / 4096 % 1024) * 4096) (pageindex va 3) =
      leaf (va / 4096 % 1024) := by
  rw [← h.l4 _ (Nat.mod_lt _ (by norm_num)), pageindex_three,
    show va / 4096 % 1024 % 512 = va / 4096 % 512 by omega]

theorem lookup_eq (h : Tree m T leaf) (va : ℕ) :
    virtualMemoryLookup m (T 0 * 4096) va =
      if inTree va then VaMapping.ofEntry (leaf (va / 4096 % 1024)) va
      else VaMapping.unmapped := by
  have hroot : pteW ||| pteU ||| pteP = 0 * 4096 + 7 := rfl
  have habsent (hn : ¬ inTree va) (he : lookupLevels m va 4 0 (T 0 * 4096) (0 * 4096 + 7) = 0) :
      virtualMemoryLookup m (T 0 * 4096) va =
        if inTree va then VaMapping.ofEntry (leaf (va / 4096 % 1024)) va
        else VaMapping.unmapped := by
    rw [if_neg hn]
    unfold virtualMemoryLookup
    rw [hroot]
    simp only [he]
    rfl
  rcases h.upper_entries va with ⟨-, e0, hn⟩ | ⟨e0, ⟨e1, hn⟩ | ⟨e1, ⟨e2, hn⟩ | ⟨e2, hin⟩⟩⟩
  · exact habsent hn (lookupLevels_from_seven_zero e0)
  · apply habsent hn
    rw [lookupLevels_from_seven (h.lt 1) e0, lookupLevels_from_one, e1]
    exact lookupLevels_absent _ _ _ _ _ _ rfl
  · apply habsent hn
    rw [lookupLevels_from_seven (h.lt 1) e0, lookupLevels_from_one, e1,
      pteAddr_frame (by have := h.lt 2; omega) (by norm_num)]
    exact lookupLevels_from_seven_zero e2
  · rw [if_pos hin]
    unfold virtualMemoryLookup VaMapping.ofEntry
    rw [hroot, lookupLevels_from_seven (h.lt 1) e0, lookupLevels_from_one,
      e1, pteAddr_frame (by have := h.lt 2; omega) (by norm_num),
      lookupLevels_from_seven (h.leafTable_lt _) e2,
      lookupLevels_from_one, h.leaf_entry]
    rfl

theorem walkLevels_present {m : Memory} {va n i pt t : ℕ} {w u : Bool} (ht : t < 512)
    (he : entry m pt (pageindex va i) = t * 4096 + 7) :
    walkLevels m va (n + 1) i pt w u = walkLevels m va n (i + 1) (t * 4096) w u := by
  have hp : (t * 4096 + 7) &&& 1 = 1 := frame_and_flag (by norm_num) (by norm_num)
  have hw : (t * 4096 + 7) &&& 2 = 2 := frame_and_flag (by norm_num) (by norm_num)
  have hu : (t * 4096 + 7) &&& 4 = 4 := frame_and_flag (by norm_num) (by norm_num)
  rw [walkLevels]
  simp [he, hp, hw, hu, pteAddr_frame (show t < 2 ^ 52 by omega) (show 7 < 4096 by norm_num)]

theorem walkLevels_zero {m : Memory} {va n i pt : ℕ} {w u : Bool}
    (he : entry m pt (pageindex va i) = 0) : walkLevels m va (n + 1) i pt w u = none := by
  simp [walkLevels, he]

theorem walk_eq (h : Tree m T leaf) (va : ℕ) :
    walk m (T 0 * 4096) va =
      if inTree va then Translation.ofEntry (leaf (va / 4096 % 1024)) va else none := by
  unfold walk
  rcases h.upper_entries va with ⟨-, e0, hn⟩ | ⟨e0, ⟨e1, hn⟩ | ⟨e1, ⟨e2, hn⟩ | ⟨e2, hin⟩⟩⟩
  · rw [if_neg hn, walkLevels_zero e0]
  · rw [if_neg hn, walkLevels_present (h.lt 1) e0, walkLevels_zero e1]
  · rw [if_neg hn, walkLevels_present (h.lt 1) e0, walkLevels_present (h.lt 2) e1,
      walkLevels_zero e2]
  · rw [if_pos hin, walkLevels_present (h.lt 1) e0, walkLevels_present (h.lt 2) e1,
      walkLevels_present (h.leafTable_lt _) e2, walkLevels, h.leaf_entry]
    unfold Translation.ofEntry
    by_cases hp : leaf (va / 4096 % 1024) &&& pteP = 0
    · rw [if_pos hp, if_neg (not_not.mpr hp)]
    · rw [if_neg hp, if_pos hp]
      rfl

theorem lookupL4Levels_present {m : Memory} {va perm n i pt t : ℕ} (ht : t < 512)
    (he : entry m pt (pageindex va i) = t * 4096 + 7) :
    lookupL4Levels m va perm (n + 1) i pt = lookupL4Levels m va perm n (i + 1) (t * 4096) := by
  have hp : (t * 4096 + 7) &&& 1 = 1 := frame_and_flag (by norm_num) (by norm_num)
  have hw : (t * 4096 + 7) &&& 2 = 2 := frame_and_flag (by norm_num) (by norm_num)
  have hu : (t * 4096 + 7) &&& 4 = 4 := frame_and_flag (by norm_num) (by norm_num)
  have ha : pteAddr (t * 4096 + 7) = t * 4096 := pteAddr_frame (by omega) (by norm_num)
  have hlt : t * 4096 < 0x200000 := by omega
  rw [lookupL4Levels]
  simp only [he, pteP, pteW, pteU, hp, hw, hu, ha, memsizePhysical]
  rw [if_neg (by norm_num), assert_true hlt, assert_true (Or.inr (by norm_num)),
    assert_true (Or.inr (by norm_num))]
  rfl

theorem lookupL4Levels_zero {m : Memory} {va perm n i pt : ℕ}
    (he : entry m pt (pageindex va i) = 0) : lookupL4Levels m va perm (n + 1) i pt = .ok 0 := by
  simp [lookupL4Levels, he]

theorem lookupL4_eq (h : Tree m T leaf) (va perm : ℕ) :
    lookupL4Pagetable m (T 0 * 4096) va perm =
      .ok (if inTree va then leafTable T (va / 4096 % 1024) * 4096 else 0) := by
  unfold lookupL4Pagetable
  rcases h.upper_entries va with ⟨-, e0, hn⟩ | ⟨e0, ⟨e1, hn⟩ | ⟨e1, ⟨e2, hn⟩ | ⟨e2, hin⟩⟩⟩
  · rw [if_neg hn, lookupL4Levels_zero e0]
  · rw [if_neg hn, lookupL4Levels_present (h.lt 1) e0, lookupL4Levels_zero e1]
  · rw [if_neg hn, lookupL4Levels_present (h.lt 1) e0, lookupL4Levels_present (h.lt 2) e1,
      lookupL4Levels_zero e2]
  · rw [if_pos hin, lookupL4Levels_present (h.lt 1) e0, lookupL4Levels_present (h.lt 2) e1,
      lookupL4Levels_present (h.leafTable_lt _) e2, lookupL4Levels]

/-- A tree is untouched by writes to other pages. -/
theorem frame {m' : Memory} (h : Tree m T leaf) {P : ℕ → Prop} (ha : AgreeOff 4096 P m m')
    (hP : ∀ j, ¬ P (T j)) : Tree m' T leaf := by
  have hent (j : Fin 5) {i : ℕ} (hi : i < 512) :
      entry m' (T j * 4096) i = entry m (T j * 4096) i := ha.loadLE_eq (hP j) (by omega)
  refine ⟨h.pos, h.lt, h.inj, fun i hi => ?_, fun i hi => ?_, fun i hi => ?_, fun i hi => ?_⟩
  · rw [hent 0 hi, h.l1 i hi]
  · rw [hent 1 hi, h.l2 i hi]
  · rw [hent 2 hi, h.l3 i hi]
  · rw [← h.l4 i hi]
    unfold leafTable
    split_ifs <;> exact hent _ (Nat.mod_lt _ (by norm_num))

theorem setLeaf (h : Tree m T leaf) {i pe : ℕ} (hi : i < 1024) (hpe : pe < 2 ^ 64) :
    Tree (setEntry m (leafTable T i * 4096) (i % 512) pe) T (Function.update leaf i pe) := by
  have hmod : i % 512 < 512 := Nat.mod_lt _ (by norm_num)
  have hupper (j : Fin 5) (hj : j = 0 ∨ j = 1 ∨ j = 2) {n : ℕ} (hn : n < 512) :
      entry (setEntry m (leafTable T i * 4096) (i % 512) pe) (T j * 4096) n =
        entry m (T j * 4096) n := by
    rw [entry_setEntry m _ _ hmod hn hpe, if_neg]
    rintro ⟨he, -⟩
    unfold leafTable at he
    split_ifs at he <;> have := h.inj he <;> omega
  refine ⟨h.pos, h.lt, h.inj, fun n hn => ?_, fun n hn => ?_, fun n hn => ?_, fun n hn => ?_⟩
  · rw [hupper 0 (by simp) hn, h.l1 n hn]
  · rw [hupper 1 (by simp) hn, h.l2 n hn]
  · rw [hupper 2 (by simp) hn, h.l3 n hn]
  · rw [entry_setEntry m _ _ hmod (Nat.mod_lt _ (by norm_num)) hpe]
    by_cases hni : n = i
    · subst n
      simp
    · rw [Function.update_of_ne hni, if_neg, h.l4 n hn]
      rintro ⟨ht, hm⟩
      unfold leafTable at ht
      split_ifs at ht
      · omega
      · exact absurd (h.inj ht) (by decide)
      · exact absurd (h.inj ht) (by decide)
      · omega

theorem agreeOff_setLeaf (m : Memory) (T : Fin 5 → ℕ) (i pe : ℕ) :
    AgreeOff 4096 (· = leafTable T i) m (setEntry m (leafTable T i * 4096) (i % 512) pe) :=
  agreeOff_storeLE 4096 m _ _ _ 8 (by omega)

/-- Entering a leaf changes nothing but tables of the tree. -/
theorem agreeOff_tables (m : Memory) (T : Fin 5 → ℕ) (i pe : ℕ) :
    AgreeOff 4096 (fun x => ∃ j, x = T j) m (setEntry m (leafTable T i * 4096) (i % 512) pe) := by
  obtain ⟨j, hj⟩ := leafTable_mem T i
  exact (agreeOff_setLeaf m T i pe).mono fun x hx => ⟨j, hx.trans hj⟩

theorem map_page (h : Tree m T leaf) (va pa perm : ℕ) (hva : va % 4096 = 0) (hva' : va < 2 ^ 64)
    (hperm : perm < 4096) (hpa : perm &&& pteP ≠ 0 → pa % 4096 = 0 ∧ pa < 0x200000) :
    virtualMemoryMap m (T 0 * 4096) va pa 4096 perm =
      if inTree va then
        .ok (setEntry m (leafTable T (va / 4096 % 1024) * 4096) (va / 4096 % 1024 % 512)
          (newEntry pa perm), 0)
      else .ok (m, if perm &&& pteP ≠ 0 then -1 else 0) := by
  have hl4 : cachedL4Pagetable m (T 0 * 4096) va perm (toInt32 (va >>> (12 + 9))) (-1) 0 =
      .ok (if inTree va then leafTable T (va / 4096 % 1024) * 4096 else 0) := by
    unfold cachedL4Pagetable
    by_cases hs : toInt32 (va >>> (12 + 9)) = -1
    · -- The initial sentinel equals this table index, so no table is looked up at all.
      rw [if_neg (not_not.mpr hs), if_neg]
      unfold inTree
      rw [Nat.shiftRight_eq_div_pow, toInt32] at hs
      omega
    · rw [if_pos hs, h.lookupL4_eq]
  rw [virtualMemoryMap_eq hva (by norm_num) (by omega) hva' hperm
    (fun hp => ⟨(hpa hp).1, by have := hpa hp; omega⟩) (by omega), mapPages]
  simp only [hl4, ok_bind, mapPages]
  by_cases hin : inTree va
  · have hpos : leafTable T (va / 4096 % 1024) * 4096 ≠ 0 := by
      have := h.leafTable_pos (va / 4096 % 1024)
      omega
    have hidx : pageindex va 3 = va / 4096 % 1024 % 512 := by
      rw [pageindex_three]
      omega
    simp only [if_pos hin, hidx, newEntry, hpos, ne_eq, not_false_eq_true, and_true, if_true]
    split_ifs <;> rfl
  · simp only [if_neg hin, ne_eq, not_true_eq_false, and_false, if_false]
    split_ifs <;> rfl

/-- Consecutive pages of the first leaf table, mapped to consecutive frames. The leaf table is
looked up at the first page and cached for the others. -/
theorem mapPages_first_table (h : Tree m T leaf) (l4 : ℕ) {perm : ℕ} (hperm : perm < 4096)
    (hp : perm &&& pteP ≠ 0) {n i j : ℕ} {last : ℤ} (hi : i + n ≤ 512) (hj : j + n ≤ 512)
    (hlast : last = -1 ∨ last = 0 ∧ l4 = T 3 * 4096) :
    ∃ m', mapPages (T 0 * 4096) perm n m (i * 4096) (j * 4096) last l4 = .ok (m', 0) ∧
      Tree m' T (fun x => if i ≤ x ∧ x < i + n then (j + (x - i)) * 4096 + perm else leaf x) ∧
      AgreeOff 4096 (· = T 3) m m' := by
  induction n generalizing m leaf i j l4 last with
  | zero =>
      have hleaf : (fun x => if i ≤ x ∧ x < i + 0 then (j + (x - i)) * 4096 + perm else leaf x) =
          leaf := by
        funext x
        exact if_neg (by omega)
      exact ⟨m, rfl, by rwa [hleaf], AgreeOff.refl _ _ _⟩
  | succ n ih =>
      have hcur : toInt32 ((i * 4096) >>> (12 + 9)) = 0 := by
        rw [Nat.shiftRight_eq_div_pow, toInt32]
        omega
      have htab : leafTable T i = T 3 := if_pos (by omega)
      have hdiv : i * 4096 / 4096 % 1024 = i := by omega
      have hl4 : cachedL4Pagetable m (T 0 * 4096) (i * 4096) perm 0 last l4 =
          .ok (T 3 * 4096) := by
        unfold cachedL4Pagetable
        rcases hlast with rfl | ⟨rfl, rfl⟩
        · rw [if_pos (by norm_num), h.lookupL4_eq, if_pos (by unfold inTree; omega), hdiv, htab]
        · rw [if_neg (by norm_num)]
      have hpos : T 3 * 4096 ≠ 0 := by have := h.pos 3; omega
      have hidx : pageindex (i * 4096) 3 = i % 512 := by rw [pageindex_three]; omega
      have hset := h.setLeaf (show i < 1024 by omega) (show j * 4096 + perm < 2 ^ 64 by omega)
      rw [htab] at hset
      obtain ⟨m', hm', htree, hagree⟩ :=
        ih hset (T 3 * 4096) (i := i + 1) (j := j + 1) (by omega) (by omega)
        (Or.inr ⟨rfl, rfl⟩ : (0 : ℤ) = -1 ∨ (0 : ℤ) = 0 ∧ T 3 * 4096 = T 3 * 4096)
      refine ⟨m', ?_, ?_, ?_⟩
      · rw [mapPages]
        simp only [hcur, hl4, ok_bind, hidx, next_page_addr (show i < 1024 by omega),
          next_page_addr (show j < 1024 by omega)]
        rw [if_pos ⟨hp, hpos⟩]
        exact hm'
      · convert htree using 1
        funext x
        by_cases hx : x = i
        · subst x
          rw [if_pos (by omega), if_neg (by omega), Function.update_self, Nat.sub_self,
            Nat.add_zero]
        · rw [Function.update_of_ne hx]
          by_cases hin : i + 1 ≤ x ∧ x < i + 1 + n
          · rw [if_pos (by omega), if_pos hin, show j + (x - i) = j + 1 + (x - (i + 1)) by omega]
          · rw [if_neg (by omega), if_neg hin]
      · have hstep := agreeOff_setLeaf m T i (j * 4096 + perm)
        rw [htab] at hstep
        exact hstep.trans hagree

end Tree

end WeensyOS
