import WeensyOS.BootWorld
import WeensyOS.Cloning
import Mathlib.Data.Finset.Piecewise

/-!
# Loading into arbitrary address spaces

`program_load_segment` on a page table of the usual shape, with whatever leaf entries. It enters
fresh pages for the segment, writes through the new mapping, and takes the write permission away
again. `Loaded` is the effect of one such operation, or of several, on the page table, on memory and
on `pageinfo`.
-/

namespace WeensyOS
open ByteMemory

/-- The virtual pages `S` have received the pages `f`, which were free. -/
structure Received (owner : ℤ) (S : Finset ℕ) (f : ℕ → ℕ) (info info' : PageInfos) : Prop where
  fresh : ∀ x ∈ S, f x ∈ freePages info
  inj : ∀ x ∈ S, ∀ y ∈ S, f x = f y → x = y
  counted : ∀ x ∈ S, info' (f x) = ⟨owner, 1⟩
  other : ∀ pn, (∀ x ∈ S, f x ≠ pn) → info' pn = info pn
  room : (freePages info').card + S.card = (freePages info).card

namespace Received

variable {owner : ℤ} {S S' : Finset ℕ} {f f' : ℕ → ℕ} {info info₁ info' : PageInfos}

theorem refl (owner : ℤ) (f : ℕ → ℕ) (info : PageInfos) : Received owner ∅ f info info := by
  constructor <;> simp

theorem single {i pn : ℕ} (hpn : lowestFree info = some pn) :
    Received owner {i} (fun _ => pn) info (Function.update info pn ⟨owner, 1⟩) := by
  obtain ⟨h1, hlt, hz⟩ := lowestFree_eq_some hpn
  constructor
  · intro x _
    exact Finset.mem_filter.mpr ⟨Finset.mem_Ico.mpr ⟨h1, hlt⟩, hz⟩
  · intro x hx y hy _
    rw [Finset.mem_singleton.mp hx, Finset.mem_singleton.mp hy]
  · intro x _
    exact Function.update_self ..
  · intro q hq
    exact Function.update_of_ne (hq i (Finset.mem_singleton_self i)).symm _ _
  · exact card_freePages_assign owner hpn

section frame
variable (h : Received owner S f info info')

include h

theorem page {x : ℕ} (hx : x ∈ S) : 1 ≤ f x ∧ f x < 512 ∧ (info (f x)).refcount = 0 := by
  obtain ⟨hmem, hz⟩ := Finset.mem_filter.mp (h.fresh x hx)
  exact ⟨(Finset.mem_Ico.mp hmem).1, (Finset.mem_Ico.mp hmem).2, hz⟩

theorem ne_used {pn x : ℕ} (hpn : (info pn).refcount ≠ 0) (hx : x ∈ S) : f x ≠ pn := by
  rintro rfl
  exact hpn (h.page hx).2.2

/-- Pages in use stay as they are. -/
theorem kept {pn : ℕ} (hpn : (info pn).refcount ≠ 0) : info' pn = info pn :=
  h.other pn fun _ hx => h.ne_used hpn hx

theorem free_before {pn : ℕ} (hz : (info' pn).refcount = 0) : (info pn).refcount = 0 := by
  by_contra hne
  rw [h.kept hne] at hz
  exact hne hz

theorem congr {g : ℕ → ℕ} (hg : ∀ x ∈ S, g x = f x) : Received owner S g info info' := by
  constructor
  · intro x hx
    rw [hg x hx]
    exact h.fresh x hx
  · intro x hx y hy heq
    rw [hg x hx, hg y hy] at heq
    exact h.inj x hx y hy heq
  · intro x hx
    rw [hg x hx]
    exact h.counted x hx
  · exact fun pn hpn => h.other pn fun x hx => hg x hx ▸ hpn x hx
  · exact h.room

end frame

theorem union (h : Received owner S f info info₁) (h' : Received owner S' f info₁ info')
    (hd : Disjoint S S') : Received owner (S ∪ S') f info info' := by
  have hne {x y : ℕ} (hx : x ∈ S) (hy : y ∈ S') : f x ≠ f y := by
    refine (h'.ne_used ?_ hy).symm
    rw [h.counted x hx]
    norm_num
  constructor
  · intro x hx
    rcases Finset.mem_union.mp hx with hx | hx
    · exact h.fresh x hx
    · obtain ⟨hmem, hz⟩ := Finset.mem_filter.mp (h'.fresh x hx)
      exact Finset.mem_filter.mpr ⟨hmem, h.free_before hz⟩
  · intro x hx y hy heq
    rcases Finset.mem_union.mp hx with hx | hx <;> rcases Finset.mem_union.mp hy with hy | hy
    · exact h.inj x hx y hy heq
    · exact absurd heq (hne hx hy)
    · exact absurd heq.symm (hne hy hx)
    · exact h'.inj x hx y hy heq
  · intro x hx
    rcases Finset.mem_union.mp hx with hx | hx
    · rw [h'.kept (by rw [h.counted x hx]; norm_num), h.counted x hx]
    · exact h'.counted x hx
  · intro pn hpn
    rw [h'.other pn fun x hx => hpn x (Finset.mem_union_right S hx),
      h.other pn fun x hx => hpn x (Finset.mem_union_left S' hx)]
  · have := h.room
    have := h'.room
    rw [Finset.card_union_of_disjoint hd]
    omega

end Received

/-- The entries `f x * 4096 + perm x` on the virtual pages `S`, and `leaf` elsewhere. -/
def placed (S : Finset ℕ) (f perm leaf : ℕ → ℕ) : ℕ → ℕ :=
  S.piecewise (fun x => f x * 4096 + perm x) leaf

section placed
variable {S S' : Finset ℕ} {f perm leaf : ℕ → ℕ}

theorem placed_mem {x : ℕ} (hx : x ∈ S) : placed S f perm leaf x = f x * 4096 + perm x :=
  Finset.piecewise_eq_of_mem _ _ _ hx

theorem placed_not_mem {x : ℕ} (hx : x ∉ S) : placed S f perm leaf x = leaf x :=
  Finset.piecewise_eq_of_notMem _ _ _ hx

theorem placed_placed {f' perm' : ℕ → ℕ} :
    placed S f perm (placed S f' perm' leaf) = placed S f perm leaf := by
  funext x
  by_cases hx : x ∈ S
  · rw [placed_mem hx, placed_mem hx]
  · rw [placed_not_mem hx, placed_not_mem hx, placed_not_mem hx]

theorem placed_union : placed S' f perm (placed S f perm leaf) = placed (S ∪ S') f perm leaf := by
  funext x
  by_cases hx : x ∈ S
  · by_cases hx' : x ∈ S'
    · rw [placed_mem hx', placed_mem (Finset.mem_union_left S' hx)]
    · rw [placed_not_mem hx', placed_mem hx, placed_mem (Finset.mem_union_left S' hx)]
  · by_cases hx' : x ∈ S'
    · rw [placed_mem hx', placed_mem (Finset.mem_union_right S hx')]
    · rw [placed_not_mem hx', placed_not_mem hx, placed_not_mem fun hc =>
        (Finset.mem_union.mp hc).elim hx hx']

end placed

/-- The page tables while a process is being loaded: its own, on the pages `T`, and the kernel's. -/
structure Loading (L : KernelLayout) (T : Fin 5 → ℕ) (leaf : ℕ → ℕ) (s : Memory × PageInfos) :
    Prop where
  kernel : Tree s.1 L.tables kernelOwnLeaf
  tree : Tree s.1 T leaf
  low : ∀ i < 256, leaf i = kernelLeaf i
  kernel_used : ∀ j, (s.2 (L.tables j)).refcount ≠ 0
  used : ∀ j, (s.2 (T j)).refcount ≠ 0
  disjoint : ∀ j j', T j ≠ L.tables j'

/-- From `s` to `s'`, the process has received the pages `f` for the virtual pages `S`, mapped with
the permissions `perm`. -/
structure Loaded (T : Fin 5 → ℕ) (owner : ℤ) (S : Finset ℕ) (f perm leaf : ℕ → ℕ)
    (s s' : Memory × PageInfos) : Prop where
  tree : Tree s'.1 T (placed S f perm leaf)
  received : Received owner S f s.2 s'.2
  frame : AgreeOff 4096 (fun pn => (∃ j, pn = T j) ∨ ∃ x ∈ S, pn = f x) s.1 s'.1

theorem placed_congr {S : Finset ℕ} {f g perm perm' leaf : ℕ → ℕ} (hf : ∀ x ∈ S, g x = f x)
    (hp : ∀ x ∈ S, perm' x = perm x) : placed S g perm' leaf = placed S f perm leaf := by
  funext x
  by_cases hx : x ∈ S
  · rw [placed_mem hx, placed_mem hx, hf x hx, hp x hx]
  · rw [placed_not_mem hx, placed_not_mem hx]

namespace Loaded

variable {T : Fin 5 → ℕ} {owner : ℤ} {S S' : Finset ℕ} {f f' perm perm' leaf : ℕ → ℕ}
  {s s₁ s' : Memory × PageInfos}

theorem refl (h : Tree s.1 T leaf) : Loaded T owner ∅ f perm leaf s s :=
  ⟨h, .refl owner f s.2, AgreeOff.refl _ _ _⟩

theorem congr (h : Loaded T owner S f perm leaf s s') {g : ℕ → ℕ} (hg : ∀ x ∈ S, g x = f x)
    (hp : ∀ x ∈ S, perm' x = perm x) : Loaded T owner S g perm' leaf s s' := by
  refine ⟨?_, h.received.congr hg, h.frame.mono fun pn hpn => ?_⟩
  · rw [placed_congr hg hp]
    exact h.tree
  · exact hpn.imp_right fun ⟨x, hx, heq⟩ => ⟨x, hx, heq.trans (hg x hx).symm⟩

theorem union (h : Loaded T owner S f perm leaf s s₁)
    (h' : Loaded T owner S' f perm (placed S f perm leaf) s₁ s') (hd : Disjoint S S') :
    Loaded T owner (S ∪ S') f perm leaf s s' := by
  refine ⟨placed_union ▸ h'.tree, h.received.union h'.received hd, ?_⟩
  refine (h.frame.mono fun pn hpn => ?_).trans (h'.frame.mono fun pn hpn => ?_)
  · exact hpn.imp_right fun ⟨x, hx, heq⟩ => ⟨x, Finset.mem_union_left S' hx, heq⟩
  · exact hpn.imp_right fun ⟨x, hx, heq⟩ => ⟨x, Finset.mem_union_right S hx, heq⟩

/-- Two operations, one after the other. -/
theorem trans (h : Loaded T owner S f perm leaf s s₁)
    (h' : Loaded T owner S' f' perm' (placed S f perm leaf) s₁ s') (hd : Disjoint S S') :
    Loaded T owner (S ∪ S') (S.piecewise f f') (S.piecewise perm perm') leaf s s' := by
  have hin (g g' : ℕ → ℕ) (x : ℕ) (hx : x ∈ S) : S.piecewise g g' x = g x :=
    Finset.piecewise_eq_of_mem _ _ _ hx
  have hout (g g' : ℕ → ℕ) (x : ℕ) (hx : x ∈ S') : S.piecewise g g' x = g' x :=
    Finset.piecewise_eq_of_notMem _ _ _ (Finset.disjoint_right.mp hd hx)
  apply (h.congr (hin f f') (hin perm perm')).union _ hd
  rw [placed_congr (hin f f') (hin perm perm')]
  exact h'.congr (hout f f') (hout perm perm')

end Loaded

namespace Loading

variable {L : KernelLayout} {T : Fin 5 → ℕ} {leaf f perm : ℕ → ℕ} {owner : ℤ} {S : Finset ℕ}
  {s s' : Memory × PageInfos} (h : Loading L T leaf s)

include h

/-- Received pages hold no table. -/
theorem not_table {info' : PageInfos} (hr : Received owner S f s.2 info') {x : ℕ} (hx : x ∈ S)
    (j : Fin 5) : f x ≠ T j ∧ f x ≠ L.tables j :=
  ⟨hr.ne_used (h.used j) hx, hr.ne_used (h.kernel_used j) hx⟩

theorem loaded (hl : Loaded T owner S f perm leaf s s') (hS : ∀ x ∈ S, 256 ≤ x) :
    Loading L T (placed S f perm leaf) s' := by
  refine ⟨h.kernel.frame hl.frame fun j hj => ?_, hl.tree, fun i hi => ?_, fun j => ?_, fun j => ?_,
    h.disjoint⟩
  · rcases hj with ⟨j', hj⟩ | ⟨x, hx, hj⟩
    · exact h.disjoint j' j hj.symm
    · exact (h.not_table hl.received hx j).2 hj.symm
  · rw [placed_not_mem fun hc => absurd (hS i hc) (by omega)]
    exact h.low i hi
  · rw [hl.received.kept (h.kernel_used j)]
    exact h.kernel_used j
  · rw [hl.received.kept (h.used j)]
    exact h.used j

theorem set_pagetable : setPagetable L s.1 (T 0 * 4096) = .ok () :=
  setPagetable_ok h.kernel h.tree fun i _ hi => h.low i hi

end Loading

section allocate
variable {L : KernelLayout} {T : Fin 5 → ℕ} {leaf : ℕ → ℕ} {s : Memory × PageInfos}

theorem Tree.map_frame {m : Memory} (h : Tree m T leaf) {i pn perm : ℕ} (hi : i < 1024)
    (hpn : pn < 512) (hperm : perm < 4096) (hp : perm &&& pteP ≠ 0) :
    ∃ m', virtualMemoryMap m (T 0 * 4096) (i * 4096) (pn * 4096) 4096 perm = .ok (m', 0) ∧
      Tree m' T (Function.update leaf i (pn * 4096 + perm)) ∧
      AgreeOff 4096 (fun x => ∃ j, x = T j) m m' := by
  refine ⟨_, ?_, h.setLeaf hi (by omega), Tree.agreeOff_tables m T i (pn * 4096 + perm)⟩
  rw [h.map_page (i * 4096) (pn * 4096) perm (by omega) (by omega) hperm fun _ => by omega,
    if_pos (by unfold inTree; omega), show i * 4096 / 4096 % 1024 = i by omega, newEntry, if_pos hp]

theorem placed_single (i pn perm : ℕ) : placed {i} (fun _ => pn) (fun _ => perm) leaf =
    Function.update leaf i (pn * 4096 + perm) := by
  funext x
  by_cases hx : x = i
  · rw [hx, Function.update_self, placed_mem (Finset.mem_singleton_self i)]
  · rw [Function.update_of_ne hx, placed_not_mem fun hc => hx (Finset.mem_singleton.mp hc)]

/-- One round of the allocation loop. -/
theorem Loading.allocate_page (h : Loading L T leaf s) (owner : ℤ) {i pn : ℕ} (hi : i < 1024)
    (hpn : lowestFree s.2 = some pn) :
    ∃ m', virtualMemoryMap s.1 (T 0 * 4096) (i * 4096) (pn * 4096) 4096 7 = .ok (m', 0) ∧
      Loaded T owner {i} (fun _ => pn) (fun _ => 7) leaf s
        (m', Function.update s.2 pn ⟨owner, 1⟩) := by
  obtain ⟨-, hlt, -⟩ := lowestFree_eq_some hpn
  obtain ⟨m', hmap, htree, ha⟩ := h.tree.map_frame hi hlt (show 7 < 4096 by norm_num) (by decide)
  refine ⟨m', hmap, ⟨?_, .single hpn, ha.mono fun _ => .inl⟩⟩
  rw [placed_single]
  exact htree

theorem Ico_cons (i n : ℕ) : {i} ∪ Finset.Ico (i + 1) (i + 1 + n) = Finset.Ico i (i + (n + 1)) := by
  ext x
  rw [Finset.mem_union, Finset.mem_singleton, Finset.mem_Ico, Finset.mem_Ico]
  omega

/-- The allocation loop of `program_load_segment`. -/
theorem Loading.allocate (h : Loading L T leaf s) (pid : ℤ) {n i fuel endMem : ℕ}
    (hS : Finset.Ico i (i + n) ⊆ Finset.Ico 256 768) (hfuel : n ≤ fuel)
    (hend : ∀ x, i ≤ x → (x * 4096 < endMem ↔ x < i + n)) (hroom : n ≤ (freePages s.2).card) :
    ∃ s' f, segmentAllocate (T 0 * 4096) pid endMem fuel (i * 4096) s = .ok (s', true) ∧
      Loaded T (toInt8 pid) (Finset.Ico i (i + n)) f (fun _ => 7) leaf s s' := by
  induction n generalizing leaf s i fuel with
  | zero =>
      refine ⟨s, fun _ => 0, ?_, ?_⟩
      · cases fuel with
        | zero => rfl
        | succ fuel =>
            rw [segmentAllocate, if_neg (by rw [hend i le_rfl]; omega)]
      · rw [Nat.add_zero, Finset.Ico_self]
        exact .refl h.tree
  | succ n ih =>
      obtain ⟨fuel, rfl⟩ : ∃ fuel', fuel = fuel' + 1 := ⟨fuel - 1, by omega⟩
      rw [← Ico_cons] at hS
      have hi := Finset.mem_Ico.mp (hS (Finset.mem_union_left _ (Finset.mem_singleton_self i)))
      obtain ⟨pn, hpn⟩ := exists_lowestFree (show 0 < (freePages s.2).card by omega)
      have hpos := (lowestFree_eq_some hpn).1
      have hcard := card_freePages_assign (toInt8 pid) hpn
      obtain ⟨m₁, hmap, hl₁⟩ := h.allocate_page (toInt8 pid) (i := i) (by omega) hpn
      have h₁ := h.loaded hl₁ fun x hx => (Finset.mem_singleton.mp hx).symm ▸ hi.1
      obtain ⟨s', f, hrest, hl⟩ := ih (i := i + 1) h₁ (Finset.union_subset_right hS)
        (show n ≤ fuel by omega) (fun x hx => (hend x (by omega)).trans (by omega))
        (by dsimp only; omega)
      have hd : Disjoint {i} (Finset.Ico (i + 1) (i + 1 + n)) := by
        rw [Finset.disjoint_singleton_left, Finset.mem_Ico]
        omega
      have hl' := hl₁.trans hl hd
      rw [Finset.piecewise_same, Ico_cons] at hl'
      refine ⟨s', _, ?_, hl'⟩
      rw [segmentAllocate, if_pos ((hend i le_rfl).mpr (by omega)), allocPageProcess_eq, hpn]
      dsimp only
      rw [if_neg (by omega)]
      change (virtualMemoryMap s.1 (T 0 * 4096) (i * 4096) (pn * 4096) 4096 7 >>= _) = _
      rw [hmap, ok_bind, if_neg (by norm_num), next_page_addr (by omega)]
      exact hrest

end allocate

/-- The physical address of `va` when the virtual page `x` is at page `f x`. -/
def placedAt (f : ℕ → ℕ) (va : ℕ) : ℕ := f (va / 4096) * 4096 + va % 4096

theorem placedAt_div (f : ℕ → ℕ) (va : ℕ) : placedAt f va / 4096 = f (va / 4096) := by
  unfold placedAt
  omega

theorem agreeOff_placedAt (m : Memory) (f : ℕ → ℕ) (va : ℕ) (b : UInt8) :
    AgreeOff 4096 (fun pn => pn = f (va / 4096)) m (Function.update m (placedAt f va) b) := by
  rw [← placedAt_div f va]
  exact agreeOff_update 4096 m _ b

/-- The virtual pages `S` are mapped `P|W|U` to the distinct pages `f`, which hold no table. -/
structure OpenPages (T : Fin 5 → ℕ) (leaf : ℕ → ℕ) (S : Finset ℕ) (f : ℕ → ℕ) : Prop where
  range : S ⊆ Finset.Ico 256 768
  entry : ∀ x ∈ S, leaf x = f x * 4096 + 7
  lt : ∀ x ∈ S, f x < 512
  apart : ∀ x ∈ S, ∀ j, f x ≠ T j
  inj : ∀ x ∈ S, ∀ y ∈ S, f x = f y → x = y

namespace OpenPages

variable {m : Memory} {T : Fin 5 → ℕ} {leaf : ℕ → ℕ} {S : Finset ℕ} {f : ℕ → ℕ}
  (ho : OpenPages T leaf S f)

include ho

theorem va_lt {va : ℕ} (hva : va / 4096 ∈ S) : va < 0x300000 := by
  have := (Finset.mem_Ico.mp (ho.range hva)).2
  omega

theorem placedAt_inj {a b : ℕ} (ha : a / 4096 ∈ S) (hb : b / 4096 ∈ S)
    (h : placedAt f a = placedAt f b) : a = b := by
  have hpage : a / 4096 = b / 4096 := by
    apply ho.inj _ ha _ hb
    rw [← placedAt_div f a, ← placedAt_div f b, h]
  unfold placedAt at h
  rw [hpage] at h
  omega

/-- A kernel store through the new mapping. -/
theorem store (h : Tree m T leaf) {va : ℕ} (hva : va / 4096 ∈ S) (b : UInt8) :
    kernelStore m (T 0 * 4096) va b = .ok (Function.update m (placedAt f va) b) := by
  have hlt := ho.va_lt hva
  have hf := ho.lt _ hva
  have hw : walk m (T 0 * 4096) va = some ⟨placedAt f va, true, true⟩ := by
    rw [h.walk_eq, if_pos (by unfold inTree; omega), Nat.mod_eq_of_lt (by omega), ho.entry _ hva]
    exact Translation.ofEntry_ref (r := ⟨f (va / 4096), true⟩) hf va
  unfold kernelStore
  rw [hw]
  rfl

theorem tree_store (h : Tree m T leaf) {va : ℕ} (hva : va / 4096 ∈ S) (b : UInt8) :
    Tree (Function.update m (placedAt f va) b) T leaf :=
  h.frame (agreeOff_placedAt m f va b) fun j hj => ho.apart _ hva j hj.symm

/-- `memcpy` and `memset` through the new mapping: the bytes of the range, and nothing else. -/
theorem fill (h : Tree m T leaf) (src : ℕ → UInt8) {n i a : ℕ}
    (hS : ∀ x, a ≤ x → x < a + n → x / 4096 ∈ S) :
    ∃ m', kernelFill (T 0 * 4096) src n i a m = .ok m' ∧ Tree m' T leaf ∧
      AgreeOff 4096 (fun pn => ∃ x ∈ S, pn = f x) m m' ∧
      (∀ j < n, m' (placedAt f (a + j)) = src (i + j)) ∧
      ∀ x, x / 4096 ∈ S → (x < a ∨ a + n ≤ x) → m' (placedAt f x) = m (placedAt f x) := by
  induction n generalizing m i a with
  | zero =>
      exact ⟨m, rfl, h, AgreeOff.refl _ _ _, fun j hj => absurd hj (Nat.not_lt_zero j),
        fun _ _ _ => rfl⟩
  | succ n ih =>
      have ha := hS a le_rfl (by omega)
      have hlt := ho.va_lt ha
      obtain ⟨m', hfill, htree, hagree, hbytes, hrest⟩ := ih (i := i + 1) (a := a + 1)
        (ho.tree_store h ha (src i)) fun x hx hx' => hS x (by omega) (by omega)
      refine ⟨m', ?_, htree, ?_, fun j hj => ?_, fun x hx hx' => ?_⟩
      · rw [kernelFill, ho.store h ha, ok_bind, Nat.mod_eq_of_lt (by omega)]
        exact hfill
      · refine AgreeOff.trans (fun b hnb => ?_) hagree
        exact agreeOff_placedAt m f a (src i) b fun heq => hnb ⟨a / 4096, ha, heq⟩
      · cases j with
        | zero =>
            rw [Nat.add_zero, Nat.add_zero, hrest a ha (by omega), Function.update_self]
        | succ j =>
            have := hbytes j (by omega)
            rwa [show a + 1 + j = a + (j + 1) by omega,
              show i + 1 + j = i + (j + 1) by omega] at this
      · rw [hrest x hx (by omega), Function.update_of_ne]
        intro heq
        have := ho.placedAt_inj hx ha heq
        omega

end OpenPages

section protect
variable {m : Memory} {T : Fin 5 → ℕ} {leaf f : ℕ → ℕ}

theorem lookup_frame (h : Tree m T leaf) {i pn perm : ℕ} (hi : i < 1024) (hpn : pn < 512)
    (hperm : perm < 4096) (hp : perm &&& pteP ≠ 0) (hleaf : leaf i = pn * 4096 + perm) :
    virtualMemoryLookup m (T 0 * 4096) (i * 4096) = ⟨pn, pn * 4096, perm⟩ := by
  have hp' : (pn * 4096 + perm) &&& pteP ≠ 0 := by rwa [frame_and_flag hperm (by norm_num)]
  rw [h.lookup_page hi, hleaf, VaMapping.ofEntry_present hp' (by omega), frame_mod hperm,
    show (pn * 4096 + perm) / 4096 = pn by omega]

/-- The loop that takes the write permission of the pages `f` away. -/
theorem Tree.protect (h : Tree m T leaf) {n i fuel endMem : ℕ}
    (hS : Finset.Ico i (i + n) ⊆ Finset.Ico 256 768) (hfuel : n ≤ fuel)
    (hend : ∀ x, i ≤ x → (x * 4096 < endMem ↔ x < i + n))
    (hleaf : ∀ x ∈ Finset.Ico i (i + n), leaf x = f x * 4096 + 7 ∧ f x < 512) :
    ∃ m', segmentProtect (T 0 * 4096) endMem fuel (i * 4096) m = .ok m' ∧
      Tree m' T (placed (Finset.Ico i (i + n)) f (fun _ => 5) leaf) ∧
      AgreeOff 4096 (fun pn => ∃ j, pn = T j) m m' := by
  induction n generalizing m leaf i fuel with
  | zero =>
      refine ⟨m, ?_, ?_, AgreeOff.refl _ _ _⟩
      · cases fuel with
        | zero => rfl
        | succ fuel =>
            rw [segmentProtect, if_neg (by rw [hend i le_rfl]; omega)]
      · rw [Nat.add_zero, Finset.Ico_self]
        exact h
  | succ n ih =>
      obtain ⟨fuel, rfl⟩ : ∃ fuel', fuel = fuel' + 1 := ⟨fuel - 1, by omega⟩
      rw [← Ico_cons] at hS hleaf ⊢
      have hmem : i ∈ {i} ∪ Finset.Ico (i + 1) (i + 1 + n) :=
        Finset.mem_union_left _ (Finset.mem_singleton_self i)
      have hi := Finset.mem_Ico.mp (hS hmem)
      obtain ⟨hentry, hlt⟩ := hleaf i hmem
      obtain ⟨m₁, hmap, htree₁, ha₁⟩ := h.map_frame (i := i) (by omega) hlt
        (show 5 < 4096 by norm_num) (by decide)
      obtain ⟨m', hrest, htree, ha⟩ := ih (i := i + 1) htree₁ (Finset.union_subset_right hS)
        (show n ≤ fuel by omega) (fun x hx => (hend x (by omega)).trans (by omega)) fun x hx => by
          rw [Function.update_of_ne (by have := (Finset.mem_Ico.mp hx).1; omega)]
          exact hleaf x (Finset.mem_union_right _ hx)
      have hsingle : placed {i} f (fun _ => 5) leaf = Function.update leaf i (f i * 4096 + 5) := by
        rw [← placed_single]
        exact placed_congr (fun x hx => by rw [Finset.mem_singleton.mp hx]) fun _ _ => rfl
      refine ⟨m', ?_, ?_, ha₁.trans ha⟩
      · rw [segmentProtect, if_pos ((hend i le_rfl).mpr (by omega)),
          lookup_frame h (by omega) hlt (by norm_num) (by decide) hentry]
        change (virtualMemoryMap m (T 0 * 4096) (i * 4096) (f i * 4096) 4096 5 >>= _) = _
        rw [hmap, ok_bind, next_page_addr (by omega)]
        exact hrest
      · rw [← placed_union, hsingle]
        exact htree

end protect

/-- The pages of the page-rounded range of the segment. -/
def ElfProgram.range (ph : ElfProgram) : Finset ℕ :=
  Finset.Ico (ph.pVa / pageSize) (ph.pVa / pageSize + ph.pages)

/-- The bytes from the rounded start to the end of the segment are on its pages. -/
theorem ElfProgram.mem_range {ph : ElfProgram} {x : ℕ} (hx : ph.pVa / 4096 * 4096 ≤ x)
    (hx' : x < ph.pVa + ph.pMemsz) : x / 4096 ∈ ph.range := by
  have hpages : ph.pages = (ph.pVa % 4096 + ph.pMemsz + 4095) / 4096 := rfl
  exact Finset.mem_Ico.mpr ⟨by simp only [pageSize]; omega, by simp only [pageSize]; omega⟩

/-- The permissions with which the segment is mapped in the end. -/
def ElfProgram.perm (ph : ElfProgram) : ℕ := if ph.pFlags &&& elfPflagWrite = 0 then 5 else 7

/-- The page-rounded range of the segment lies in `[PROC_START_ADDR, MEMSIZE_VIRTUAL)`. -/
structure ElfProgram.Fits (ph : ElfProgram) : Prop where
  va_lt : ph.pVa < 2 ^ 64
  file : ph.pFilesz ≤ ph.pMemsz
  range : ph.range ⊆ Finset.Ico 256 768

theorem ElfProgram.Fits.end_lt {ph : ElfProgram} (hfit : ph.Fits) :
    ph.pVa + ph.pMemsz < 2 ^ 64 ∧ ph.pages ≤ 512 := by
  have hva := hfit.va_lt
  have hpages : ph.pages = (ph.pVa % 4096 + ph.pMemsz + 4095) / 4096 := rfl
  by_cases hz : ph.pages = 0
  · omega
  · have hlast : ph.pVa / 4096 + ph.pages - 1 ∈ ph.range :=
      Finset.mem_Ico.mpr ⟨by simp only [pageSize]; omega, by simp only [pageSize]; omega⟩
    have hfirst : ph.pVa / 4096 ∈ ph.range :=
      Finset.mem_Ico.mpr ⟨le_rfl, by simp only [pageSize]; omega⟩
    have := (Finset.mem_Ico.mp (hfit.range hlast)).2
    have := (Finset.mem_Ico.mp (hfit.range hfirst)).1
    omega

/-- Byte `x` of the address space once the segment is loaded: the source is copied to the start of
the page of `p_va`. -/
def segmentByte (ph : ElfProgram) (src : ℕ → UInt8) (x : ℕ) : UInt8 :=
  if x < ph.pVa + ph.pFilesz then src (x - ph.pVa / pageSize * pageSize) else 0

section segment
variable {L : KernelLayout} {T : Fin 5 → ℕ} {leaf : ℕ → ℕ} {s : Memory × PageInfos}
  {ph : ElfProgram}

/-- Freshly allocated pages can be written. -/
theorem Loading.openPages {owner : ℤ} {S : Finset ℕ} {f : ℕ → ℕ} {info' : PageInfos}
    (h : Loading L T leaf s) (hr : Received owner S f s.2 info') (hS : S ⊆ Finset.Ico 256 768) :
    OpenPages T (placed S f (fun _ => 7) leaf) S f :=
  ⟨hS, fun _ hx => placed_mem hx, fun _ hx => (hr.page hx).2.1,
    fun _ hx j => (h.not_table hr hx j).1, hr.inj⟩

/-- The two copy operations: the part of the file, then zeros. -/
theorem segment_fill {m : Memory} {f : ℕ → ℕ} (hfit : ph.Fits) (ho : OpenPages T leaf ph.range f)
    (h : Tree m T leaf) (src : ℕ → UInt8) :
    ∃ m₁ m₂, kernelFill (T 0 * 4096) src (ph.pVa + ph.pFilesz - ph.pVa / 4096 * 4096) 0
        (ph.pVa / 4096 * 4096) m = .ok m₁ ∧
      kernelFill (T 0 * 4096) (fun _ => 0) (ph.pMemsz - ph.pFilesz) 0 (ph.pVa + ph.pFilesz) m₁ =
        .ok m₂ ∧
      Tree m₂ T leaf ∧ AgreeOff 4096 (fun pn => ∃ x ∈ ph.range, pn = f x) m m₂ ∧
      ∀ x, ph.pVa / 4096 * 4096 ≤ x → x < ph.pVa + ph.pMemsz →
        m₂ (placedAt f x) = segmentByte ph src x := by
  have hfile := hfit.file
  obtain ⟨m₁, hfill₁, htree₁, ha₁, hbytes₁, -⟩ := ho.fill h src (i := 0)
    (n := ph.pVa + ph.pFilesz - ph.pVa / 4096 * 4096) (a := ph.pVa / 4096 * 4096)
    fun x hx hx' => ElfProgram.mem_range hx (by omega)
  obtain ⟨m₂, hfill₂, htree₂, ha₂, hbytes₂, hrest₂⟩ := ho.fill htree₁ (fun _ => 0) (i := 0)
    (n := ph.pMemsz - ph.pFilesz) (a := ph.pVa + ph.pFilesz)
    fun x hx hx' => ElfProgram.mem_range (by omega) (by omega)
  refine ⟨m₁, m₂, hfill₁, hfill₂, htree₂, ha₁.trans ha₂, fun x hx hx' => ?_⟩
  unfold segmentByte
  simp only [pageSize]
  split_ifs with hend
  · rw [hrest₂ x (ElfProgram.mem_range hx hx') (.inl (by omega))]
    have := hbytes₁ (x - ph.pVa / 4096 * 4096) (by omega)
    rwa [Nat.zero_add, Nat.add_sub_cancel' hx] at this
  · have := hbytes₂ (x - (ph.pVa + ph.pFilesz)) (by omega)
    rwa [Nat.add_sub_cancel' (show ph.pVa + ph.pFilesz ≤ x by omega)] at this

theorem Loading.load_segment (h : Loading L T leaf s) (hfit : ph.Fits)
    (hroom : ph.pages ≤ (freePages s.2).card) (pid : ℤ) (src : ℕ → UInt8) :
    ∃ s' f, programLoadSegment L (T 0 * 4096) pid ph src s = .ok (s', true) ∧
      Loaded T (toInt8 pid) ph.range f (fun _ => ph.perm) leaf s s' ∧
      ∀ x, ph.pVa / 4096 * 4096 ≤ x → x < ph.pVa + ph.pMemsz →
        s'.1 (placedAt f x) = segmentByte ph src x := by
  obtain ⟨hend, h512⟩ := hfit.end_lt
  have hfile := hfit.file
  have hpages : ph.pages = (ph.pVa % 4096 + ph.pMemsz + 4095) / 4096 := rfl
  have hround (x : ℕ) (hx : ph.pVa / 4096 ≤ x) :
      x * 4096 < ph.pVa + ph.pMemsz ↔ x < ph.pVa / 4096 + ph.pages := by omega
  obtain ⟨s₁, f, halloc, hl⟩ := h.allocate pid hfit.range
    (show ph.pages ≤ nPages from h512) hround hroom
  have ho := h.openPages hl.received hfit.range
  have h₁ := h.loaded hl fun x hx => (Finset.mem_Ico.mp (hfit.range hx)).1
  obtain ⟨m₁, m₂, hfill₁, hfill₂, htree₂, ha₂, hbytes⟩ := segment_fill hfit ho hl.tree src
  have hl₂ : Loaded T (toInt8 pid) ph.range f (fun _ => 7) leaf s (m₂, s₁.2) :=
    ⟨htree₂, hl.received, hl.frame.trans (ha₂.mono fun _ => .inr)⟩
  unfold programLoadSegment
  simp only [pageSize]
  rw [Nat.mod_eq_of_lt hend, Nat.mod_eq_of_lt (show ph.pVa + ph.pFilesz < 2 ^ 64 by omega),
    show (ph.pVa + ph.pFilesz + 2 ^ 64 - ph.pVa / 4096 * 4096) % 2 ^ 64 =
      ph.pVa + ph.pFilesz - ph.pVa / 4096 * 4096 by omega,
    show (ph.pVa + ph.pMemsz + 2 ^ 64 - (ph.pVa + ph.pFilesz)) % 2 ^ 64 =
      ph.pMemsz - ph.pFilesz by omega, halloc, ok_bind]
  dsimp only
  rw [if_pos rfl, h₁.set_pagetable, ok_bind, hfill₁, ok_bind, hfill₂, ok_bind]
  by_cases hflag : ph.pFlags &&& elfPflagWrite = 0
  · have hperm : ph.perm = 5 := if_pos hflag
    obtain ⟨m₃, hprot, htree₃, ha₃⟩ := htree₂.protect hfit.range
      (show ph.pages ≤ nPages from h512) hround fun x hx => ⟨ho.entry x hx, ho.lt x hx⟩
    rw [placed_placed] at htree₃
    have hl₃ : Loaded T (toInt8 pid) ph.range f (fun _ => ph.perm) leaf s (m₃, s₁.2) :=
      ⟨hperm ▸ htree₃, hl.received, hl₂.frame.trans (ha₃.mono fun _ => .inl)⟩
    have h₃ := h.loaded hl₃ fun x hx => (Finset.mem_Ico.mp (hfit.range hx)).1
    refine ⟨(m₃, s₁.2), f, ?_, hl₃, fun x hx hx' => ?_⟩
    · rw [if_pos hflag, hprot, ok_bind, setPagetable_kernel h₃.kernel]
      rfl
    · rw [← hbytes x hx hx']
      apply ha₃
      rw [placedAt_div]
      exact fun ⟨j, hj⟩ => ho.apart _ (ElfProgram.mem_range hx hx') j hj
  · have hperm : ph.perm = 7 := if_neg hflag
    have h₂ := h.loaded hl₂ fun x hx => (Finset.mem_Ico.mp (hfit.range hx)).1
    refine ⟨(m₂, s₁.2), f, ?_, hperm ▸ hl₂, hbytes⟩
    rw [if_neg hflag, ok_bind, setPagetable_kernel h₂.kernel]
    rfl

end segment

/-- The mappings below `PROC_START_ADDR`. -/
def kernelOnly (i : ℕ) : ℕ := if i < 256 then kernelLeaf i else 0

/-- The state in which the loader starts: `duplicate_pagetable` has made the new page table. -/
theorem duplicatePagetable_loading {L : KernelLayout} {m : Memory} {info : PageInfos} {c : ℕ}
    (hc : c < 16) (hk : Tree m L.tables kernelOwnLeaf)
    (hused : ∀ j, (info (L.tables j)).refcount ≠ 0) (hroom : 5 ≤ (freePages info).card) :
    ∃ T m₁ info₁, duplicatePagetable m info L.kernelPagetables c = .ok (m₁, info₁, T 0 * 4096) ∧
      FreshTable m info kernelOwnLeaf c T m₁ info₁ ∧ Loading L T kernelOnly (m₁, info₁) := by
  have hphys (i : ℕ) (hi : i < 256) (_ : kernelOwnLeaf i &&& pteP ≠ 0) :
      kernelOwnLeaf i < 0x200000 := by
    have := kernelPerm_lt i
    rw [kernelOwnLeaf_kernel i hi, kernelLeaf]
    omega
  have hleaf : (fun x => if x < 256 then presentEntry (kernelOwnLeaf x) else 0) = kernelOnly := by
    funext x
    unfold kernelOnly
    split_ifs with hx
    · rw [kernelOwnLeaf_kernel x hx, presentEntry_kernelLeaf]
    · rfl
  obtain ⟨T, m₁, info₁, hdup, hfresh⟩ := duplicatePagetable_fresh hc hk hphys hused hroom
  have hdisj (j j' : Fin 5) : T j ≠ L.tables j' := ((hfresh.kept (hused j')).1 j).symm
  rw [L.tables_zero] at hdup
  refine ⟨T, m₁, info₁, hdup, hfresh, ?_, hleaf ▸ hfresh.tree, fun i hi => if_pos hi, fun j => ?_,
    fun j => ?_, hdisj⟩
  · apply hk.frame hfresh.frame
    rintro j' ⟨j, hj⟩
    exact hdisj j j' hj.symm
  · dsimp only
    rw [(hfresh.kept (hused j)).2]
    exact hused j
  · dsimp only
    rw [hfresh.counted]
    exact one_ne_zero

end WeensyOS
