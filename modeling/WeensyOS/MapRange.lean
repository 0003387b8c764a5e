import WeensyOS.PageWalk

/-!
# Mapping ranges in arbitrary page tables

`virtual_memory_map` on page tables of any size. A table is looked up once for each stretch of 2 MiB
and cached under its index truncated to an `int`, with -1 for none. The loop is described for tables
that form a tree: what it stores, where it stores it and when it gives up.
-/

namespace WeensyOS
open ByteMemory

/-- The 36 bits of an address that select a page. -/
def pageIndex36 (va : ℕ) : ℕ := va / 4096 % 2 ^ 36

/-- Present entries above the leaf tables are `P|W|U`. -/
def UpperGranting (m : Memory) (pt : ℕ) : Prop := ∀ va i, i < 3 → Reached m pt va (i + 1) →
  pathEntry m pt va i &&& 7 = 7

/-- Moreover they point into physical memory. -/
def UpperOpen (m : Memory) (pt : ℕ) : Prop := ∀ va i, i < 3 → Reached m pt va (i + 1) →
  pathEntry m pt va i &&& 7 = 7 ∧ pteAddr (pathEntry m pt va i) < memsizePhysical

/-- Tables reached by different index paths are different pages, also across levels. -/
def TablesDistinct (m : Memory) (pt : ℕ) : Prop := ∀ va va' i j, i ≤ 3 → j ≤ 3 →
  Reached m pt va i → Reached m pt va' j → pathTable m pt va i = pathTable m pt va' j →
    i = j ∧ ∀ l < i, pageindex va l = pageindex va' l

/-- The leaf table for `va`; 0 if there is none. -/
def leafPage (m : Memory) (pt va : ℕ) : ℕ :=
  if Reached m pt va 3 then pathTable m pt va 3 else 0

section paths
variable {m : Memory} {pt va va' : ℕ}

theorem Reached.mono {i n : ℕ} (h : Reached m pt va n) (hi : i ≤ n) : Reached m pt va i :=
  fun l hl => h l (by omega)

theorem reached_succ {n : ℕ} :
    Reached m pt va (n + 1) ↔ Reached m pt va n ∧ pathEntry m pt va n &&& pteP ≠ 0 := by
  refine ⟨fun h => ⟨h.mono (by omega), h n (by omega)⟩, fun ⟨h, hn⟩ l hl => ?_⟩
  by_cases hln : l = n
  · rwa [hln]
  · exact h l (by omega)

/-- The path depends on the page indices alone. -/
theorem pathTable_congr {i : ℕ} (h : ∀ l < i, pageindex va l = pageindex va' l) :
    pathTable m pt va i = pathTable m pt va' i := by
  induction i with
  | zero => rfl
  | succ i ih => rw [pathTable, pathTable, ih fun l hl => h l (by omega), h i (by omega)]

theorem pathEntry_congr {i : ℕ} (h : ∀ l ≤ i, pageindex va l = pageindex va' l) :
    pathEntry m pt va i = pathEntry m pt va' i := by
  rw [pathEntry, pathEntry, pathTable_congr fun l hl => h l (by omega), h i le_rfl]

theorem reached_congr {n : ℕ} (h : ∀ l < n, pageindex va l = pageindex va' l) :
    Reached m pt va n ↔ Reached m pt va' n := by
  refine forall₂_congr fun i hi => ?_
  rw [pathEntry_congr fun l hl => h l (by omega)]

theorem leafPage_congr (h : ∀ l < 3, pageindex va l = pageindex va' l) :
    leafPage m pt va = leafPage m pt va' := by
  unfold leafPage
  rw [if_congr (reached_congr h) (pathTable_congr h) rfl]

theorem pageIndex36_eq_iff :
    pageIndex36 va = pageIndex36 va' ↔ ∀ l < 4, pageindex va l = pageindex va' l := by
  have hdiv (a n : ℕ) : a / 2 ^ (12 + n) = a / 4096 / 2 ^ n := by
    rw [show (4096 : ℕ) = 2 ^ 12 from rfl, Nat.div_div_eq_div_mul, pow_add]
  have h3 (a : ℕ) : pageindex a 3 = a / 4096 % 512 := pageindex_three a
  have h2 (a : ℕ) : pageindex a 2 = a / 4096 / 2 ^ 9 % 512 := by rw [pageindex_eq, hdiv]
  have h1 (a : ℕ) : pageindex a 1 = a / 4096 / 2 ^ 18 % 512 := by rw [pageindex_eq, hdiv]
  have h0 (a : ℕ) : pageindex a 0 = a / 4096 / 2 ^ 27 % 512 := by rw [pageindex_eq, hdiv]
  unfold pageIndex36
  constructor
  · intro h l hl
    obtain rfl | rfl | rfl | rfl : l = 0 ∨ l = 1 ∨ l = 2 ∨ l = 3 := by omega
    · rw [h0, h0]
      omega
    · rw [h1, h1]
      omega
    · rw [h2, h2]
      omega
    · rw [h3, h3]
      omega
  · intro h
    have e0 := h 0 (by norm_num)
    have e1 := h 1 (by norm_num)
    have e2 := h 2 (by norm_num)
    have e3 := h 3 (by norm_num)
    rw [h0, h0] at e0
    rw [h1, h1] at e1
    rw [h2, h2] at e2
    rw [h3, h3] at e3
    omega

/-- Addresses with the same bits above the leaf index have the same leaf table. -/
theorem leafPage_of_index (h : va / 2 ^ 21 = va' / 2 ^ 21) :
    leafPage m pt va = leafPage m pt va' := by
  apply leafPage_congr
  intro l hl
  rw [pageindex_eq, pageindex_eq]
  obtain rfl | rfl | rfl : l = 0 ∨ l = 1 ∨ l = 2 := by omega
  · simp only [Nat.reduceSub, Nat.reduceMul, Nat.reduceAdd]
    omega
  · simp only [Nat.reduceSub, Nat.reduceMul, Nat.reduceAdd]
    omega
  · simp only [Nat.reduceSub, Nat.reduceMul, Nat.reduceAdd]
    omega

theorem pathTable_aligned (hpt : pt % 4096 = 0) (i : ℕ) : pathTable m pt va i % 4096 = 0 := by
  cases i with
  | zero => exact hpt
  | succ i =>
      rw [pathTable, pteAddr_eq (entry_lt _ _ _)]
      omega

theorem entry_setEntry_aligned (m : Memory) {a b i i' pe : ℕ} (ha : a % 4096 = 0)
    (hb : b % 4096 = 0) (hi : i < 512) (hi' : i' < 512) (hpe : pe < 2 ^ 64) :
    entry (setEntry m a i pe) b i' = if b = a ∧ i' = i then pe else entry m b i' := by
  have hset := entry_setEntry m (a / 4096) (b / 4096) hi hi' hpe
  rw [show a / 4096 * 4096 = a by omega, show b / 4096 * 4096 = b by omega] at hset
  rw [hset]
  exact if_congr (by omega) rfl rfl

end paths

namespace UpperGranting

variable {m : Memory} {pt va : ℕ}

/-- Under open upper entries the kernel's masks cancel out. -/
theorem carried_four (h : UpperGranting m pt) (hr : Reached m pt va 3) :
    carried m pt va 4 = pathEntry m pt va 3 := by
  have hsix (i : ℕ) (hi : i < 3) : pathEntry m pt va i &&& 6 = 6 := by
    have hseven := h va i hi (hr.mono (by omega))
    calc pathEntry m pt va i &&& 6 = pathEntry m pt va i &&& (7 &&& 6) := rfl
      _ = 7 &&& 6 := by rw [← Nat.and_assoc, hseven]
  have hclear (x : ℕ) (hx : x < 2 ^ 64) (y : ℕ) (hy : y &&& 6 = 6) :
      (x &&& lnot64 (y &&& 6)) &&& 6 = 0 := by
    rw [hy, and_lnot64_flags hx (by norm_num), frame_and_flag _ (by norm_num), Nat.and_assoc]
    · exact Nat.and_zero _
    · exact lt_of_le_of_lt Nat.and_le_left (Nat.mod_lt _ (by norm_num))
  have h1 : carried m pt va 1 &&& 6 = 0 := hclear _ (pathEntry_lt _ _ _ _) 7 rfl
  have h2 : carried m pt va 2 = pathEntry m pt va 1 := by
    change pathEntry m pt va 1 &&& lnot64 (carried m pt va 1 &&& 6) = _
    rw [h1, and_lnot64_zero (pathEntry_lt _ _ _ _)]
  have h3 : carried m pt va 3 &&& 6 = 0 :=
    hclear _ (pathEntry_lt _ _ _ _) _ (by rw [h2, hsix 1 (by norm_num)])
  change pathEntry m pt va 3 &&& lnot64 (carried m pt va 3 &&& 6) = _
  rw [h3, and_lnot64_zero (pathEntry_lt _ _ _ _)]

theorem lookup_eq (h : UpperGranting m pt) (va : ℕ) : virtualMemoryLookup m pt va =
    if Reached m pt va 3 then VaMapping.ofEntry (pathEntry m pt va 3) va
    else VaMapping.unmapped := by
  rw [lookup_path]
  by_cases hr : Reached m pt va 3
  · rw [if_pos hr, VaMapping.ofEntry, h.carried_four hr]
    exact if_congr (by rw [reached_succ]; exact and_iff_right hr) rfl rfl
  · rw [if_neg hr, if_neg fun h4 => hr (h4.mono (by norm_num))]

end UpperGranting

namespace UpperOpen

variable {m : Memory} {pt : ℕ}

theorem granting (h : UpperOpen m pt) : UpperGranting m pt := fun va i hi hr => (h va i hi hr).1

/-- The assertions of `lookup_l4pagetable` pass. -/
theorem lookupL4_eq (h : UpperOpen m pt) (va perm : ℕ) :
    lookupL4Pagetable m pt va perm = .ok (leafPage m pt va) := by
  have hlevels (n i : ℕ) (hn : i + n = 3) (hr : Reached m pt va i) :
      lookupL4Levels m va perm n i (pathTable m pt va i) = .ok (leafPage m pt va) := by
    induction n generalizing i with
    | zero =>
        obtain rfl : i = 3 := by omega
        rw [lookupL4Levels, leafPage, if_pos hr]
    | succ n ih =>
        have hpath : entry m (pathTable m pt va i) (pageindex va i) = pathEntry m pt va i := rfl
        rw [lookupL4Levels, hpath]
        by_cases hp : pathEntry m pt va i &&& pteP = 0
        · rw [if_pos hp, leafPage, if_neg fun h3 => h3 i (by omega) hp]
        · have hr' : Reached m pt va (i + 1) := reached_succ.mpr ⟨hr, hp⟩
          obtain ⟨hseven, haddr⟩ := h va i (by omega) hr'
          have hflag (f : ℕ) (hf : 7 &&& f ≠ 0) : pathEntry m pt va i &&& f ≠ 0 := by
            intro hz
            apply hf
            rw [← hseven, Nat.and_right_comm, hz, Nat.zero_and]
          rw [if_neg hp, assert_true haddr, assert_true (Or.inr (hflag pteW (by decide))),
            assert_true (Or.inr (hflag pteU (by decide)))]
          exact ih (i + 1) (by omega) hr'
  exact hlevels 3 0 rfl fun i hi => by omega

end UpperOpen

/-- Both memories have the same entries above the leaf tables. -/
def SameUpper (m m' : Memory) (pt : ℕ) : Prop := ∀ va i, i < 3 → Reached m pt va i →
  pathEntry m' pt va i = pathEntry m pt va i

namespace SameUpper

variable {m m' m'' : Memory} {pt va : ℕ}

theorem refl (m : Memory) (pt : ℕ) : SameUpper m m pt := fun _ _ _ _ => rfl

theorem reached (h : SameUpper m m' pt) {n : ℕ} (hn : n ≤ 3) :
    Reached m' pt va n ↔ Reached m pt va n := by
  induction n with
  | zero => exact ⟨fun _ i hi => by omega, fun _ i hi => by omega⟩
  | succ n ih =>
      rw [reached_succ, reached_succ, ih (by omega)]
      exact and_congr_right fun hr => by rw [h va n (by omega) hr]

theorem table (h : SameUpper m m' pt) {i : ℕ} (hi : i ≤ 3) (hr : Reached m pt va i) :
    pathTable m' pt va i = pathTable m pt va i := by
  cases i with
  | zero => rfl
  | succ i => exact congrArg pteAddr (h va i (by omega) (hr.mono (by omega)))

theorem trans (h : SameUpper m m' pt) (h' : SameUpper m' m'' pt) : SameUpper m m'' pt :=
  fun va i hi hr => (h' va i hi ((h.reached (by omega)).mpr hr)).trans (h va i hi hr)

theorem leafPage_eq (h : SameUpper m m' pt) (va : ℕ) : leafPage m' pt va = leafPage m pt va := by
  unfold leafPage
  by_cases hr : Reached m pt va 3
  · rw [if_pos hr, if_pos ((h.reached le_rfl).mpr hr), h.table le_rfl hr]
  · rw [if_neg hr, if_neg fun h' => hr ((h.reached le_rfl).mp h')]

theorem upperOpen (h : SameUpper m m' pt) (hu : UpperOpen m pt) : UpperOpen m' pt := by
  intro va i hi hr
  rw [h.reached (by omega)] at hr
  rw [h va i hi (hr.mono (by omega))]
  exact hu va i hi hr

theorem tablesDistinct (h : SameUpper m m' pt) (hd : TablesDistinct m pt) :
    TablesDistinct m' pt := by
  intro va va' i j hi hj hr hr' heq
  rw [h.reached hi] at hr
  rw [h.reached hj] at hr'
  rw [h.table hi hr, h.table hj hr'] at heq
  exact hd va va' i j hi hj hr hr' heq

end SameUpper

section setLeaf
variable {m : Memory} {pt va : ℕ} (hd : TablesDistinct m pt) (hpt : pt % 4096 = 0)
  (hr : Reached m pt va 3) {pe : ℕ} (hpe : pe < 2 ^ 64)

include hd hpt hr hpe

/-- A new leaf entry changes no entry above the leaf tables. -/
theorem sameUpper_setLeaf :
    SameUpper m (setEntry m (pathTable m pt va 3) (pageindex va 3) pe) pt := by
  have hentry (x i : ℕ) (hi : i < 3) (hx : Reached m pt x i) :
      entry (setEntry m (pathTable m pt va 3) (pageindex va 3) pe) (pathTable m pt x i)
        (pageindex x i) = pathEntry m pt x i := by
    rw [entry_setEntry_aligned m (pathTable_aligned hpt 3) (pathTable_aligned hpt i)
      (pageindex_lt _ _) (pageindex_lt _ _) hpe, if_neg]
    · rfl
    · rintro ⟨heq, -⟩
      have := (hd x va i 3 (by omega) le_rfl hx hr heq).1
      omega
  have htable (x i : ℕ) (hi : i ≤ 3) (hx : Reached m pt x i) :
      pathTable (setEntry m (pathTable m pt va 3) (pageindex va 3) pe) pt x i =
        pathTable m pt x i := by
    induction i with
    | zero => rfl
    | succ i ih =>
        have hx' := hx.mono (show i ≤ i + 1 by omega)
        rw [pathTable, ih (by omega) hx', hentry x i (by omega) hx']
        rfl
  intro x i hi hx
  rw [pathEntry, htable x i (by omega) hx]
  exact hentry x i hi hx

theorem pathEntry_setLeaf {x : ℕ} (hx : Reached m pt x 3) :
    pathEntry (setEntry m (pathTable m pt va 3) (pageindex va 3) pe) pt x 3 =
      if pageIndex36 x = pageIndex36 va then pe else pathEntry m pt x 3 := by
  rw [pathEntry, (sameUpper_setLeaf hd hpt hr hpe).table le_rfl hx,
    entry_setEntry_aligned m (pathTable_aligned hpt 3) (pathTable_aligned hpt 3)
      (pageindex_lt _ _) (pageindex_lt _ _) hpe]
  refine if_congr ?_ rfl rfl
  rw [pageIndex36_eq_iff]
  constructor
  · rintro ⟨htab, hidx⟩ l hl
    by_cases hl3 : l = 3
    · rw [hl3, hidx]
    · exact (hd x va 3 3 le_rfl le_rfl hx hr htab).2 l (by omega)
  · exact fun h => ⟨pathTable_congr fun l hl => h l (by omega), h 3 (by norm_num)⟩

end setLeaf

/-- The address of the leaf entry for `va`. -/
def leafSlot (m : Memory) (pt va : ℕ) : ℕ := pathTable m pt va 3 + 8 * pageindex va 3

/-- What mapping the `n` pages from `va` on to frames from `pa` on does to memory. A page without a
leaf table is left out. -/
structure Filled (m : Memory) (pt va pa n perm : ℕ) (m' : Memory) : Prop where
  upper : SameUpper m m' pt
  leaf : ∀ x, leafPage m pt x ≠ 0 → (∃ k < n, pageIndex36 x = pageIndex36 (va + k * 4096)) →
    ∃ k < n, pageIndex36 x = pageIndex36 (va + k * 4096) ∧
      pathEntry m' pt x 3 = newEntry (pa + k * 4096) perm
  other : ∀ x, Reached m pt x 3 →
    (leafPage m pt x ≠ 0 → ∀ k < n, pageIndex36 x ≠ pageIndex36 (va + k * 4096)) →
    pathEntry m' pt x 3 = pathEntry m pt x 3
  frame : ∀ a, (∀ k < n, leafPage m pt (va + k * 4096) ≠ 0 →
    a < leafSlot m pt (va + k * 4096) ∨ leafSlot m pt (va + k * 4096) + 8 ≤ a) → m' a = m a

theorem leafPage_ne_zero {m : Memory} {pt va : ℕ} :
    leafPage m pt va ≠ 0 ↔ Reached m pt va 3 ∧ pathTable m pt va 3 ≠ 0 := by
  unfold leafPage
  split_ifs with hr
  · exact (and_iff_right hr).symm
  · exact ⟨fun h => absurd rfl h, fun h => absurd h.1 hr⟩

theorem newEntry_congr {pa pa' perm : ℕ} (h : perm &&& pteP ≠ 0 → pa = pa') :
    newEntry pa perm = newEntry pa' perm := by
  unfold newEntry
  split_ifs with hp
  · rw [h hp]
  · rfl

namespace Filled

variable {m m' : Memory} {pt va pa perm : ℕ}

theorem none (m : Memory) (pt va pa perm : ℕ) : Filled m pt va pa 0 perm m := by
  refine ⟨.refl m pt, ?_, fun _ _ _ => rfl, fun _ _ => rfl⟩
  rintro x - ⟨k, hk, -⟩
  omega

/-- The frames do not matter for pages that are not to be present. -/
theorem congr_pa {n pa' : ℕ} (h : Filled m pt va pa n perm m')
    (hpa : perm &&& pteP ≠ 0 → pa = pa') :
    Filled m pt va pa' n perm m' := by
  refine ⟨h.upper, fun x hx hk => ?_, h.other, h.frame⟩
  obtain ⟨k, hk, heq, he⟩ := h.leaf x hx hk
  refine ⟨k, hk, heq, ?_⟩
  rw [he]
  exact newEntry_congr fun hp => by rw [hpa hp]

/-- The first page has no leaf table. -/
theorem skip {n : ℕ} (hleaf : leafPage m pt va = 0)
    (h : Filled m pt (va + 4096) (pa + 4096) n perm m') :
    Filled m pt va pa (n + 1) perm m' := by
  have hshift (b k : ℕ) : b + (k + 1) * 4096 = b + 4096 + k * 4096 := by omega
  have hfirst {x : ℕ} (hx : pageIndex36 x = pageIndex36 (va + 0 * 4096)) : leafPage m pt x = 0 := by
    rw [zero_mul, Nat.add_zero] at hx
    rw [← hleaf]
    exact leafPage_congr fun l hl => pageIndex36_eq_iff.mp hx l (by omega)
  refine ⟨h.upper, fun x hx hk => ?_, fun x hx hk => ?_, fun a ha => ?_⟩
  · obtain ⟨k, hk, heq⟩ := hk
    cases k with
    | zero => exact absurd (hfirst heq) hx
    | succ k =>
        rw [hshift] at heq
        obtain ⟨k', hk', heq', he⟩ := h.leaf x hx ⟨k, by omega, heq⟩
        exact ⟨k' + 1, by omega, by rw [hshift]; exact heq', by rw [hshift]; exact he⟩
  · refine h.other x hx fun hleaf k hk' => ?_
    rw [← hshift]
    exact hk hleaf (k + 1) (by omega)
  · refine h.frame a fun k hk => ?_
    rw [← hshift]
    exact ha (k + 1) (by omega)

/-- The first page gets its leaf entry. -/
theorem store {n : ℕ} (hd : TablesDistinct m pt) (hpt : pt % 4096 = 0)
    (hleaf : leafPage m pt va ≠ 0) (hpe : newEntry pa perm < 2 ^ 64)
    (h : Filled (setEntry m (pathTable m pt va 3) (pageindex va 3) (newEntry pa perm)) pt
    (va + 4096)
      (pa + 4096) n perm m') : Filled m pt va pa (n + 1) perm m' := by
  obtain ⟨hr, -⟩ := leafPage_ne_zero.mp hleaf
  have hup := sameUpper_setLeaf hd hpt hr hpe
  have hset {x : ℕ} (hx : Reached m pt x 3) := pathEntry_setLeaf hd hpt hr hpe hx
  set m₁ := setEntry m (pathTable m pt va 3) (pageindex va 3) (newEntry pa perm)
  have hshift (b k : ℕ) : b + (k + 1) * 4096 = b + 4096 + k * 4096 := by omega
  refine ⟨hup.trans h.upper, fun x hx hk => ?_, fun x hx hk => ?_, fun a ha => ?_⟩
  · obtain ⟨hrx, -⟩ := leafPage_ne_zero.mp hx
    by_cases hlater : ∃ k < n, pageIndex36 x = pageIndex36 (va + 4096 + k * 4096)
    · obtain ⟨k', hk', heq', he⟩ := h.leaf x (by rwa [hup.leafPage_eq]) hlater
      exact ⟨k' + 1, by omega, by rw [hshift]; exact heq', by rw [hshift]; exact he⟩
    · push Not at hlater
      obtain ⟨k, hk, heq⟩ := hk
      cases k with
      | zero =>
          refine ⟨0, by omega, heq, ?_⟩
          rw [zero_mul, Nat.add_zero] at heq ⊢
          rw [h.other x ((hup.reached le_rfl).mpr hrx) fun _ => hlater, hset hrx, if_pos heq]
      | succ k =>
          rw [hshift] at heq
          exact absurd heq (hlater k (by omega))
  · have hne : pageIndex36 x ≠ pageIndex36 va := by
      intro heq
      have hlx : leafPage m pt x ≠ 0 := by
        rw [leafPage_congr fun l hl => pageIndex36_eq_iff.mp heq l (by omega)]
        exact hleaf
      exact hk hlx 0 (by omega) (by rw [zero_mul, Nat.add_zero, heq])
    rw [h.other x ((hup.reached le_rfl).mpr hx) fun hlx k hk' => ?_, hset hx, if_neg hne]
    rw [hup.leafPage_eq] at hlx
    rw [← hshift]
    exact hk hlx (k + 1) (by omega)
  · have hfirst := ha 0 (by omega)
    rw [zero_mul, Nat.add_zero] at hfirst
    rw [h.frame a fun k hk hlk => ?_]
    · exact storeLE_of_outside _ _ _ _ _ (hfirst hleaf)
    · rw [hup.leafPage_eq] at hlk
      rw [leafSlot, hup.table le_rfl (leafPage_ne_zero.mp hlk).1]
      have := ha (k + 1) (by omega)
      rw [hshift] at this
      exact this hlk

end Filled

/-- The cached leaf table is right if it is going to be used for `va`. -/
def Cached (m : Memory) (pt va : ℕ) (last : ℤ) (l4 : ℕ) : Prop :=
  toInt32 (va >>> (12 + 9)) = last → l4 = leafPage m pt va

theorem Cached.next {m m' : Memory} {pt va : ℕ} (h : SameUpper m m' pt) :
    Cached m' pt (va + 4096) (toInt32 (va >>> (12 + 9))) (leafPage m pt va) := by
  intro heq
  rw [h.leafPage_eq]
  apply leafPage_of_index
  rw [Nat.shiftRight_eq_div_pow, Nat.shiftRight_eq_div_pow] at heq
  unfold toInt32 at heq
  omega

section loop
variable {m : Memory} {pt perm n v a l4 : ℕ} {last : ℤ}

/-- One round of the loop of `virtual_memory_map`. -/
theorem mapPages_succ (hu : UpperOpen m pt) (hwrap : v + (n + 1) * 4096 ≤ 2 ^ 64)
    (hc : Cached m pt v last l4) : mapPages pt perm (n + 1) m v a last l4 =
      if leafPage m pt v ≠ 0 then
        mapPages pt perm n (setEntry m (pathTable m pt v 3) (pageindex v 3) (newEntry a perm))
          (v + 4096) ((a + 4096) % 2 ^ 64) (toInt32 (v >>> (12 + 9))) (leafPage m pt v)
      else if perm &&& pteP ≠ 0 then .ok (m, -1)
      else mapPages pt perm n m (v + 4096) ((a + 4096) % 2 ^ 64) (toInt32 (v >>> (12 + 9)))
        (leafPage m pt v) := by
  have hl4 : cachedL4Pagetable m pt v perm (toInt32 (v >>> (12 + 9))) last l4 =
      .ok (leafPage m pt v) := by
    unfold cachedL4Pagetable
    split_ifs with hcur
    · exact hu.lookupL4_eq v perm
    · rw [hc (not_not.mp hcur)]
  have hnext (m₁ : Memory) (c : ℤ) (l : ℕ) :
      mapPages pt perm n m₁ ((v + pageSize) % 2 ^ 64) ((a + pageSize) % 2 ^ 64) c l =
        mapPages pt perm n m₁ (v + 4096) ((a + 4096) % 2 ^ 64) c l := by
    cases n with
    | zero => simp only [mapPages]
    | succ n => rw [Nat.mod_eq_of_lt (show v + pageSize < 2 ^ 64 by rw [pageSize]; omega)]
  rw [mapPages]
  simp only [hl4, ok_bind, hnext, newEntry]
  by_cases hleaf : leafPage m pt v = 0
  · simp only [hleaf, ne_eq, not_true_eq_false, and_false, if_false]
  · have htable : leafPage m pt v = pathTable m pt v 3 :=
      if_pos (leafPage_ne_zero.mp hleaf).1
    by_cases hp : perm &&& pteP = 0
    · simp only [hleaf, hp, ne_eq, not_true_eq_false, false_and, if_false, not_false_eq_true,
        if_true, ← htable]
    · simp only [hleaf, hp, ne_eq, not_false_eq_true, and_true, if_true, ← htable]

theorem newEntry_lt (hperm : perm < 4096) (hpa : perm &&& pteP ≠ 0 → a ≤ 0x200000) :
    newEntry a perm < 2 ^ 64 := by
  unfold newEntry
  split_ifs with hp
  · have := hpa hp
    omega
  · omega

/-- A page that is to be present and has no leaf table ends the loop. -/
theorem mapPages_missing (hu : UpperOpen m pt) (hd : TablesDistinct m pt) (hpt : pt % 4096 = 0)
    (hperm : perm < 4096) (hwrap : v + n * 4096 ≤ 2 ^ 64) (hp : perm &&& pteP ≠ 0)
    (hpa : a + n * 4096 ≤ 0x200000) (hc : Cached m pt v last l4)
    (hmiss : ∃ k < n, leafPage m pt (v + k * 4096) = 0) :
    ∃ m', mapPages pt perm n m v a last l4 = .ok (m', -1) := by
  induction n generalizing m v a last l4 with
  | zero =>
      obtain ⟨k, hk, -⟩ := hmiss
      omega
  | succ n ih =>
      rw [mapPages_succ hu hwrap hc, if_pos hp]
      by_cases hleaf : leafPage m pt v = 0
      · rw [if_neg (not_not.mpr hleaf)]
        exact ⟨m, rfl⟩
      · have hup := sameUpper_setLeaf hd hpt (leafPage_ne_zero.mp hleaf).1
          (newEntry_lt hperm (a := a) fun _ => by omega)
        rw [if_pos hleaf, Nat.mod_eq_of_lt (show a + 4096 < 2 ^ 64 by omega)]
        refine ih (hup.upperOpen hu) (hup.tablesDistinct hd) (by omega) (by omega)
          (Cached.next hup) ?_
        obtain ⟨k, hk, hzero⟩ := hmiss
        cases k with
        | zero =>
            rw [zero_mul, Nat.add_zero] at hzero
            exact absurd hzero hleaf
        | succ k =>
            refine ⟨k, by omega, ?_⟩
            rwa [hup.leafPage_eq, show v + 4096 + k * 4096 = v + (k + 1) * 4096 by omega]

/-- Otherwise the loop fills the range. -/
theorem mapPages_filled (hu : UpperOpen m pt) (hd : TablesDistinct m pt) (hpt : pt % 4096 = 0)
    (hperm : perm < 4096) (hwrap : v + n * 4096 ≤ 2 ^ 64)
    (hpa : perm &&& pteP ≠ 0 → a + n * 4096 ≤ 0x200000) (hc : Cached m pt v last l4)
    (hall : perm &&& pteP ≠ 0 → ∀ k < n, leafPage m pt (v + k * 4096) ≠ 0) :
    ∃ m', mapPages pt perm n m v a last l4 = .ok (m', 0) ∧ Filled m pt v a n perm m' := by
  induction n generalizing m v a last l4 with
  | zero => exact ⟨m, rfl, .none m pt v a perm⟩
  | succ n ih =>
      have hpa' (hp : perm &&& pteP ≠ 0) : (a + 4096) % 2 ^ 64 = a + 4096 := by
        have := hpa hp
        omega
      rw [mapPages_succ hu hwrap hc]
      by_cases hleaf : leafPage m pt v = 0
      · have hp : perm &&& pteP = 0 := by
          by_contra hp
          have := hall hp 0 (by omega)
          rw [zero_mul, Nat.add_zero] at this
          exact this hleaf
        rw [if_neg (not_not.mpr hleaf), if_neg (not_not.mpr hp)]
        obtain ⟨m', hm', hfill⟩ := ih (v := v + 4096)
          (a := (a + 4096) % 2 ^ 64) hu hd (by omega) (fun h => absurd hp h)
          (Cached.next (SameUpper.refl m pt)) (fun h => absurd hp h)
        exact ⟨m', hm', .skip hleaf (hfill.congr_pa hpa')⟩
      · have hpe := newEntry_lt (a := a) hperm fun hp => by have := hpa hp; omega
        have hup := sameUpper_setLeaf hd hpt (leafPage_ne_zero.mp hleaf).1 hpe
        rw [if_pos hleaf]
        obtain ⟨m', hm', hfill⟩ := ih (v := v + 4096)
          (a := (a + 4096) % 2 ^ 64) (hup.upperOpen hu) (hup.tablesDistinct hd) (by omega)
          (fun hp => by have := hpa hp; rw [hpa' hp]; omega)
          (Cached.next hup) fun hp k hk => by
            rw [hup.leafPage_eq, show v + 4096 + k * 4096 = v + (k + 1) * 4096 by omega]
            exact hall hp (k + 1) (by omega)
        exact ⟨m', hm', .store hd hpt hleaf hpe (hfill.congr_pa hpa')⟩

end loop

/-- Arguments with which `virtual_memory_map` passes its assertions. -/
structure MapArgs (pt va pa sz perm : ℕ) : Prop where
  va_lt : va < 2 ^ 64
  pa_lt : pa < 2 ^ 64
  sz_lt : sz < 2 ^ 64
  va_aligned : va % pageSize = 0
  sz_aligned : sz % pageSize = 0
  va_wrap : (va + sz) % 2 ^ 64 ≥ va ∨ (va + sz) % 2 ^ 64 = 0
  frames : perm &&& pteP ≠ 0 → pa % pageSize = 0 ∧ (pa + sz) % 2 ^ 64 ≥ pa ∧
    (pa + sz) % 2 ^ 64 ≤ memsizePhysical
  perm_lt : perm < 0x1000
  pt_aligned : pt % pageSize = 0

namespace MapArgs

variable {m : Memory} {pt va pa sz perm : ℕ}

theorem range (h : MapArgs pt va pa sz perm) : va + sz / 4096 * 4096 ≤ 2 ^ 64 := by
  have h1 := h.va_lt
  have h2 := h.sz_lt
  have h3 := h.va_wrap
  omega

theorem physical (h : MapArgs pt va pa sz perm) (hp : perm &&& pteP ≠ 0) :
    pa % 4096 = 0 ∧ pa + sz ≤ 0x200000 := by
  obtain ⟨h1, h2, h3⟩ := h.frames hp
  have h4 := h.pa_lt
  have h5 := h.sz_lt
  simp only [pageSize, memsizePhysical] at h1 h3
  omega

theorem pages (h : MapArgs pt va pa sz perm) : sz / 4096 * 4096 = sz := by
  have := h.sz_aligned
  simp only [pageSize] at this
  omega

theorem map_eq (h : MapArgs pt va pa sz perm) (m : Memory) :
    virtualMemoryMap m pt va pa sz perm = mapPages pt perm (sz / 4096) m va pa (-1) 0 := by
  have hrange := h.range
  have hpages := h.pages
  exact virtualMemoryMap_eq h.va_aligned h.sz_aligned (by omega) h.va_lt h.perm_lt h.physical
    h.pt_aligned

end MapArgs

/-- When the table index of the first page is the sentinel, no table is looked up for it. -/
theorem mapPages_sentinel {m : Memory} {pt perm n va pa : ℕ} (hp : perm &&& pteP ≠ 0)
    (hs : toInt32 (va >>> (12 + 9)) = -1) :
    mapPages pt perm (n + 1) m va pa (-1) 0 = .ok (m, -1) := by
  have hl4 : cachedL4Pagetable m pt va perm (-1) (-1) 0 = .ok 0 := if_neg (not_not.mpr rfl)
  rw [mapPages, hs]
  simp only [hl4, ok_bind, ne_eq, not_true_eq_false, and_false, if_false]
  rw [if_pos hp]

theorem frame_offset {va pa x : ℕ} (hpa : pa % 4096 = 0) (hva : va % 4096 = 0) :
    (pa / 4096 + x / 4096) * 4096 + (va + x) % 4096 = pa + x := by omega

/-- After mapping a range its addresses lead to the given frames with the given flags; other
addresses keep their translation, and only leaf entries of the range are written. -/
theorem map_then_lookup {m m' : Memory} {pt va pa sz perm : ℕ} (hd : TablesDistinct m pt)
    (hu : UpperOpen m pt) (h : MapArgs pt va pa sz perm) (hp : perm &&& pteP ≠ 0)
    (hm : virtualMemoryMap m pt va pa sz perm = .ok (m', 0)) :
    (∀ x < sz, (virtualMemoryLookup m' pt (va + x)).pa = pa + x ∧
      (virtualMemoryLookup m' pt (va + x)).perm = perm) ∧
    (∀ va', (∀ x < sz, pageIndex36 va' ≠ pageIndex36 (va + x)) →
      virtualMemoryLookup m' pt va' = virtualMemoryLookup m pt va') ∧
    ∀ a, (∀ x < sz, a < leafSlot m pt (va + x) ∨ leafSlot m pt (va + x) + 8 ≤ a) →
      m' a = m a := by
  have hpages := h.pages
  obtain ⟨hal, hle⟩ := h.physical hp
  rw [h.map_eq] at hm
  generalize hn : sz / 4096 = n at hm hpages
  have hrange := h.range
  rw [hn] at hrange
  have hend : pa + n * 4096 ≤ 0x200000 := by omega
  have hc : n ≠ 0 → Cached m pt va (-1) 0 := by
    intro hn0 hs
    obtain ⟨n, rfl⟩ := Nat.exists_eq_succ_of_ne_zero hn0
    rw [mapPages_sentinel hp hs] at hm
    cases hm
  have hall (k : ℕ) (hk : k < n) : leafPage m pt (va + k * 4096) ≠ 0 := by
    intro hzero
    obtain ⟨m₂, hm₂⟩ := mapPages_missing hu hd h.pt_aligned h.perm_lt hrange hp hend
      (hc (by omega)) ⟨k, hk, hzero⟩
    rw [hm₂] at hm
    cases hm
  have hfill : Filled m pt va pa n perm m' := by
    by_cases hn0 : n = 0
    · subst hn0
      obtain rfl : m = m' := (Prod.mk.inj (Except.ok.inj hm)).1
      exact .none m pt va pa perm
    · obtain ⟨m₂, hm₂, hfill⟩ := mapPages_filled hu hd h.pt_aligned h.perm_lt hrange
        (fun _ => hend) (hc hn0) fun _ => hall
      rw [hm₂] at hm
      obtain rfl : m₂ = m' := (Prod.mk.inj (Except.ok.inj hm)).1
      exact hfill
  have hu' := hfill.upper.upperOpen hu
  refine ⟨fun x hx => ?_, fun va' hva' => ?_, fun a ha => ?_⟩
  · have hval := h.va_aligned
    simp only [pageSize] at hval
    have hpage : pageIndex36 (va + x) = pageIndex36 (va + x / 4096 * 4096) := by
      unfold pageIndex36
      omega
    have hleaf : leafPage m pt (va + x) ≠ 0 := by
      rw [leafPage_congr fun l hl => pageIndex36_eq_iff.mp hpage l (by omega)]
      exact hall _ (by omega)
    obtain ⟨k, hk, heq, hentry⟩ := hfill.leaf (va + x) hleaf ⟨x / 4096, by omega, hpage⟩
    obtain rfl : k = x / 4096 := by
      unfold pageIndex36 at heq
      omega
    have hframe : newEntry (pa + x / 4096 * 4096) perm = (pa / 4096 + x / 4096) * 4096 + perm := by
      rw [newEntry, if_pos hp]
      omega
    have hlt := h.perm_lt
    have hreach := (hfill.upper.reached le_rfl).mpr (leafPage_ne_zero.mp hleaf).1
    have hpres : (pa / 4096 + x / 4096) * 4096 + perm &&& pteP ≠ 0 := by
      rw [frame_and_flag hlt (by norm_num)]
      exact hp
    rw [hu'.granting.lookup_eq, if_pos hreach, hentry, hframe, VaMapping.ofEntry, if_pos hpres]
    refine ⟨?_, ?_⟩
    · rw [pteAddr_frame (by omega) hlt, pageOffset_eq,
        frame_offset hal hval]
    · rw [pteFlags_eq, frame_mod hlt]
  · rw [hu'.granting.lookup_eq, hu.granting.lookup_eq]
    refine if_ctx_congr (hfill.upper.reached le_rfl) (fun hr => ?_) fun _ => rfl
    rw [hfill.other va' hr fun _ k hk => hva' (k * 4096) (by omega)]
  · exact hfill.frame a fun k hk _ => ha (k * 4096) (by omega)

/-- A page table with a single chain of tables, at index `j` of each level. -/
def chainTable (j : ℕ) : Memory :=
  setEntry (setEntry (setEntry (fun _ => 0) 0x1000 j 0x2007) 0x2000 j 0x3007) 0x3000 j 0x4007

section chain
variable {j : ℕ} (hj : j < 512)

include hj

theorem entry_chainTable {t i : ℕ} (hi : i < 512) : entry (chainTable j) (t * 4096) i =
    if 1 ≤ t ∧ t ≤ 3 ∧ i = j then (t + 1) * 4096 + 7 else 0 := by
  have hzero : entry (fun _ => 0) (t * 4096) i = 0 := by
    simp [entry, loadLE]
  unfold chainTable
  rw [show (0x1000 : ℕ) = 1 * 4096 from rfl, show (0x2000 : ℕ) = 2 * 4096 from rfl,
    show (0x3000 : ℕ) = 3 * 4096 from rfl, entry_setEntry _ _ _ hj hi (by norm_num),
    entry_setEntry _ _ _ hj hi (by norm_num), entry_setEntry _ _ _ hj hi (by norm_num), hzero]
  split_ifs <;> omega

theorem reached_chainTable {va i : ℕ} (hi : i ≤ 3) (hr : Reached (chainTable j) 0x1000 va i) :
    pathTable (chainTable j) 0x1000 va i = (i + 1) * 4096 ∧ ∀ l < i, pageindex va l = j := by
  induction i with
  | zero => exact ⟨rfl, fun l hl => by omega⟩
  | succ i ih =>
      obtain ⟨hr', hp⟩ := reached_succ.mp hr
      obtain ⟨htab, hidx⟩ := ih (by omega) hr'
      have hentry := entry_chainTable hj (t := i + 1) (pageindex_lt va i)
      rw [pathEntry, htab, hentry] at hp
      split_ifs at hp with hc
      · rw [if_pos hc] at hentry
        refine ⟨?_, fun l hl => ?_⟩
        · rw [pathTable, htab, hentry, pteAddr_frame (by omega) (by norm_num)]
        · by_cases hli : l = i
          · rw [hli, hc.2.2]
          · exact hidx l (by omega)
      · exact absurd rfl hp

theorem chainTable_distinct : TablesDistinct (chainTable j) 0x1000 := by
  intro va va' i i' hi hi' hr hr' heq
  obtain ⟨h1, h2⟩ := reached_chainTable hj hi hr
  obtain ⟨h3, h4⟩ := reached_chainTable hj hi' hr'
  rw [h1, h3] at heq
  obtain rfl : i = i' := by omega
  exact ⟨rfl, fun l hl => (h2 l hl).trans (h4 l hl).symm⟩

theorem chainTable_open : UpperOpen (chainTable j) 0x1000 := by
  intro va i hi hr
  obtain ⟨hr', hp⟩ := reached_succ.mp hr
  obtain ⟨htab, -⟩ := reached_chainTable hj (by omega) hr'
  have hentry := entry_chainTable hj (t := i + 1) (pageindex_lt va i)
  rw [pathEntry, htab, hentry] at hp ⊢
  split_ifs at hp ⊢ with hc
  · refine ⟨frame_and_flag (by norm_num) (by norm_num), ?_⟩
    rw [pteAddr_frame (by omega) (by norm_num), memsizePhysical]
    omega
  · exact absurd rfl hp

end chain

theorem map_then_lookup_chain :
    ∃ m', virtualMemoryMap (chainTable 0) 0x1000 0x3000 0x5000 0x2000 7 =
    .ok (m', 0) ∧ ∀ x < 0x2000, (virtualMemoryLookup m' 0x1000 (0x3000 + x)).pa = 0x5000 + x := by
  have h : MapArgs 0x1000 0x3000 0x5000 0x2000 7 := by
    constructor <;> decide
  have hd := chainTable_distinct (show 0 < 512 by norm_num)
  have hu := chainTable_open (show 0 < 512 by norm_num)
  have hleaf (k : ℕ) (hk : k < 2) : leafPage (chainTable 0) 0x1000 (0x3000 + k * 4096) ≠ 0 := by
    obtain rfl | rfl : k = 0 ∨ k = 1 := by omega
    · decide +kernel
    · decide +kernel
  obtain ⟨m', hm', -⟩ := mapPages_filled (n := 2) (v := 0x3000) (a := 0x5000) hu hd h.pt_aligned
    h.perm_lt (by norm_num) (fun _ => by norm_num)
    (fun hc => absurd hc (by decide) : Cached (chainTable 0) 0x1000 0x3000 (-1) 0) fun _ => hleaf
  have hmap : virtualMemoryMap (chainTable 0) 0x1000 0x3000 0x5000 0x2000 7 = .ok (m', 0) := by
    rw [h.map_eq]
    exact hm'
  exact ⟨m', hmap, fun x hx => ((map_then_lookup hd hu h (by decide) hmap).1 x hx).1⟩

/-! When the loop gives up, and what it leaves out. -/

section exact
variable (m : Memory) (pt va pa sz perm : ℕ)

/-- `virtual_memory_map` fails exactly when a table is missing, and a call that removes mappings
removes all it can reach. -/
def MapExact : Prop :=
  (perm &&& pteP ≠ 0 → ∃ m' r, virtualMemoryMap m pt va pa sz perm = .ok (m', r) ∧
    (r = 0 ↔ ∀ k < sz / pageSize, Reached m pt (va + k * pageSize) 3)) ∧
  (perm &&& pteP = 0 → ∃ m', virtualMemoryMap m pt va pa sz perm = .ok (m', 0) ∧
    ∀ k < sz / pageSize, Reached m' pt (va + k * pageSize) 3 →
      pathEntry m' pt (va + k * pageSize) 3 = perm)

/-- The table index of the first page is taken for the one that is cached. -/
def SentinelHit : Prop := toInt32 (va >>> (12 + 9)) = -1

instance : Decidable (SentinelHit va) := inferInstanceAs (Decidable (_ = _))

/-- No page of the range is lost to the sentinel or to a leaf table at address 0. -/
def MapServed : Prop :=
  (perm &&& pteP ≠ 0 → (∀ k < sz / pageSize, Reached m pt (va + k * pageSize) 3) → sz ≠ 0 →
    ¬ SentinelHit va ∧ ∀ k < sz / pageSize, pathTable m pt (va + k * pageSize) 3 ≠ 0) ∧
  (perm &&& pteP = 0 → ∀ k < sz / pageSize, Reached m pt (va + k * pageSize) 3 →
    pathEntry m pt (va + k * pageSize) 3 ≠ perm →
    pathTable m pt (va + k * pageSize) 3 ≠ 0 ∧
      (SentinelHit va → (va + k * pageSize) / 2 ^ 21 = va / 2 ^ 21 → k + 2 ^ 36 < sz / pageSize))

end exact

section exact
variable {m : Memory} {pt va pa sz perm : ℕ}

theorem mapPages_present (hu : UpperOpen m pt) (hd : TablesDistinct m pt)
    (h : MapArgs pt va pa sz perm) (hp : perm &&& pteP ≠ 0) :
    ∃ m' r, virtualMemoryMap m pt va pa sz perm = .ok (m', r) ∧
      (r = 0 ↔ sz = 0 ∨ ¬ SentinelHit va ∧
        ∀ k < sz / 4096, leafPage m pt (va + k * 4096) ≠ 0) := by
  have hpages := h.pages
  have hrange := h.range
  obtain ⟨-, hle⟩ := h.physical hp
  rw [h.map_eq]
  generalize sz / 4096 = n at hpages hrange ⊢
  have hend : pa + n * 4096 ≤ 0x200000 := by omega
  cases n with
  | zero => exact ⟨m, 0, rfl, ⟨fun _ => Or.inl (by rw [← hpages, zero_mul]), fun _ => rfl⟩⟩
  | succ n =>
      by_cases hs : SentinelHit va
      · refine ⟨m, -1, mapPages_sentinel hp hs, ⟨(fun hz => by cases hz), ?_⟩⟩
        rintro (hz | ⟨hns, -⟩)
        · omega
        · exact absurd hs hns
      · have hc : Cached m pt va (-1) 0 := fun hs' => absurd hs' hs
        by_cases hall : ∀ k < n + 1, leafPage m pt (va + k * 4096) ≠ 0
        · obtain ⟨m', hm', -⟩ := mapPages_filled hu hd h.pt_aligned h.perm_lt hrange
            (fun _ => hend) hc fun _ => hall
          exact ⟨m', 0, hm', ⟨fun _ => Or.inr ⟨hs, hall⟩, fun _ => rfl⟩⟩
        · have hmiss : ∃ k < n + 1, leafPage m pt (va + k * 4096) = 0 := by
            push Not at hall
            exact hall
          obtain ⟨m', hm'⟩ := mapPages_missing hu hd h.pt_aligned h.perm_lt hrange hp hend hc hmiss
          refine ⟨m', -1, hm', ⟨(fun hz => by cases hz), ?_⟩⟩
          rintro (hz | ⟨-, hall'⟩)
          · omega
          · exact absurd hall' hall

/-- Pages under the sentinel are passed over. -/
theorem mapPages_skip {n : ℕ} (hp : perm &&& pteP = 0) (k : ℕ)
    (hwrap : va + (k + n) * 4096 ≤ 2 ^ 64)
    (hs : ∀ i < k, toInt32 ((va + i * 4096) >>> (12 + 9)) = -1) :
    ∃ pa', mapPages pt perm (k + n) m va pa (-1) 0 =
      mapPages pt perm n m (va + k * 4096) pa' (-1) 0 := by
  induction k generalizing va pa with
  | zero => exact ⟨pa, by rw [Nat.zero_add, zero_mul, Nat.add_zero]⟩
  | succ k ih =>
      have hfirst := hs 0 (by omega)
      rw [zero_mul, Nat.add_zero] at hfirst
      have hl4 : cachedL4Pagetable m pt va perm (-1) (-1) 0 = .ok 0 := if_neg (not_not.mpr rfl)
      have hround : mapPages pt perm (k + 1 + n) m va pa (-1) 0 = mapPages pt perm (k + n) m
          ((va + pageSize) % 2 ^ 64) ((pa + pageSize) % 2 ^ 64) (-1) 0 := by
        rw [show k + 1 + n = k + n + 1 by omega, mapPages, hfirst]
        simp only [hl4, ok_bind, ne_eq, not_true_eq_false, and_false, if_false]
        rw [if_neg (not_not.mpr hp)]
      by_cases hlast : k + n = 0
      · obtain ⟨rfl, rfl⟩ : k = 0 ∧ n = 0 := by omega
        exact ⟨0, by rw [hround, Nat.add_zero]; simp only [mapPages]⟩
      · rw [hround, Nat.mod_eq_of_lt (show va + pageSize < 2 ^ 64 by rw [pageSize]; omega)]
        obtain ⟨pa', hpa'⟩ := @ih (va + pageSize) ((pa + pageSize) % 2 ^ 64)
          (by rw [pageSize]; omega) fun i hi => by
            rw [← hs (i + 1) (by omega), pageSize,
              show va + (i + 1) * 4096 = va + 4096 + i * 4096 by omega]
        refine ⟨pa', ?_⟩
        rw [hpa', pageSize, show va + 4096 + k * 4096 = va + (k + 1) * 4096 by omega]

/-- The number of pages that the sentinel hides: those that share the first leaf table. -/
def hiddenPages (va : ℕ) : ℕ := if SentinelHit va then (2 ^ 21 - va % 2 ^ 21) / 4096 else 0

theorem hiddenPages_le (va : ℕ) : hiddenPages va ≤ 512 := by
  unfold hiddenPages
  split_ifs <;> omega

theorem lt_hiddenPages {va k : ℕ} (hva : va % 4096 = 0) :
    k < hiddenPages va ↔ SentinelHit va ∧ (va + k * 4096) / 2 ^ 21 = va / 2 ^ 21 := by
  unfold hiddenPages
  by_cases hs : SentinelHit va
  · rw [if_pos hs, and_iff_right hs]
    omega
  · rw [if_neg hs]
    exact ⟨fun h => absurd h (Nat.not_lt_zero k), fun h => absurd h.1 hs⟩

/-- A range to be unmapped is filled from the first page on that the sentinel does not hide. -/
theorem mapPages_absent (hu : UpperOpen m pt) (hd : TablesDistinct m pt)
    (h : MapArgs pt va pa sz perm) (hp : perm &&& pteP = 0) :
    ∃ m' pa', virtualMemoryMap m pt va pa sz perm = .ok (m', 0) ∧
      Filled m pt (va + hiddenPages va * 4096) pa' (sz / 4096 - hiddenPages va) perm m' := by
  have hrange := h.range
  have hval := h.va_aligned
  simp only [pageSize] at hval
  rw [h.map_eq]
  generalize sz / 4096 = n at hrange ⊢
  have hskip (k r : ℕ) (hk : k ≤ hiddenPages va) (hr : va + (k + r) * 4096 ≤ 2 ^ 64) :
      ∃ pa', mapPages pt perm (k + r) m va pa (-1) 0 =
        mapPages pt perm r m (va + k * 4096) pa' (-1) 0 := by
    apply mapPages_skip hp k hr
    intro i hi
    obtain ⟨hs, hidx⟩ := (lt_hiddenPages hval).mp (lt_of_lt_of_le hi hk)
    rw [← hs, Nat.shiftRight_eq_div_pow, Nat.shiftRight_eq_div_pow, hidx]
  by_cases hle : n ≤ hiddenPages va
  · obtain ⟨pa', hm⟩ := hskip n 0 hle hrange
    rw [Nat.sub_eq_zero_of_le hle]
    rw [Nat.add_zero] at hm
    exact ⟨m, 0, by rw [hm]; simp only [mapPages], .none _ _ _ _ _⟩
  · obtain ⟨r, rfl⟩ : ∃ r, n = hiddenPages va + r := ⟨n - hiddenPages va, by omega⟩
    obtain ⟨pa', hm⟩ := hskip (hiddenPages va) r le_rfl hrange
    rw [Nat.add_sub_cancel_left, hm]
    have hc : Cached m pt (va + hiddenPages va * 4096) (-1) 0 := by
      intro hs'
      by_cases hs : SentinelHit va
      · -- The table index after the hidden pages is 0.
        have hnext := (lt_hiddenPages hval).not.mp (lt_irrefl (hiddenPages va))
        have hle := hiddenPages_le va
        rw [SentinelHit, Nat.shiftRight_eq_div_pow] at hs
        rw [Nat.shiftRight_eq_div_pow] at hs'
        rw [SentinelHit, Nat.shiftRight_eq_div_pow, not_and] at hnext
        have hne := hnext hs
        unfold toInt32 at hs hs'
        omega
      · rw [hiddenPages, if_neg hs, zero_mul, Nat.add_zero] at hs'
        exact absurd hs' hs
    have hend : va + hiddenPages va * 4096 + r * 4096 ≤ 2 ^ 64 := by omega
    obtain ⟨m', hm', hfill⟩ := mapPages_filled hu hd h.pt_aligned h.perm_lt hend
      (fun h' => absurd hp h') hc fun h' => absurd hp h'
    exact ⟨m', pa', hm', hfill⟩

/-- Where a page of the range comes up again among the pages that are not hidden. -/
theorem revisited_iff {n k : ℕ} (hval : va % 4096 = 0) (hk : k < n) :
    (∃ k' < n - hiddenPages va, pageIndex36 (va + k * 4096) =
      pageIndex36 (va + hiddenPages va * 4096 + k' * 4096)) ↔
    (SentinelHit va → (va + k * 4096) / 2 ^ 21 = va / 2 ^ 21 → k + 2 ^ 36 < n) := by
  have hle := hiddenPages_le va
  have hlt := lt_hiddenPages (k := k) hval
  rw [← and_imp, ← hlt]
  unfold pageIndex36
  constructor
  · rintro ⟨k', hk', heq⟩ hhid
    omega
  · intro himp
    by_cases hhid : k < hiddenPages va
    · have := himp hhid
      exact ⟨k + 2 ^ 36 - hiddenPages va, by omega, by omega⟩
    · exact ⟨k - hiddenPages va, by omega, by omega⟩

end exact

end WeensyOS
