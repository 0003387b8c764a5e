import WeensyOS.ForkRefinement
import WeensyOS.SysMapping
import WeensyOS.Discipline
import Mathlib.Data.Nat.SuccPred
import Mathlib.Algebra.Order.Interval.Finset.SuccPred

/-!
# Forks of arbitrary address spaces

The page loop of `INT_SYS_FORK` on page tables with any leaf entries. A round copies a writable page
other than the console to a fresh one and enters anything else in the child as it is in the parent.
`Cloned` is what the two page tables look like between two rounds.
-/

namespace WeensyOS
open ByteMemory

section leaves
variable (leaf f : ℕ → ℕ)

/-- The pages that a fork copies. -/
def Copies (i : ℕ) : Prop :=
  leaf i &&& pteP ≠ 0 ∧ leaf i &&& pteW ≠ 0 ∧ pteAddr (leaf i) ≠ consoleAddr

instance (i : ℕ) : Decidable (Copies leaf i) := inferInstanceAs (Decidable (_ ∧ _ ∧ _))

/-- The present pages that it shares. -/
def Shares (i : ℕ) : Prop := leaf i &&& pteP ≠ 0 ∧ ¬ Copies leaf i

instance (i : ℕ) : Decidable (Shares leaf i) := inferInstanceAs (Decidable (_ ∧ _))

/-- The child's leaf entries when the copy of page `i` is at page `f i`. -/
def childEntry (i : ℕ) : ℕ :=
  if 256 ≤ i ∧ Copies leaf i then f i * 4096 + leaf i % 4096 else presentEntry (leaf i)

/-- `pageinfo` after a round for page `i`. -/
def shareInfo (info : PageInfos) (i : ℕ) : PageInfos :=
  if leaf i &&& pteP ≠ 0 then incRefcount info (leaf i / 4096 : ℕ) else info

end leaves

theorem VaMapping.ofEntry_present {pe i : ℕ} (hp : pe &&& pteP ≠ 0) (hpe : pe < 0x200000) :
    VaMapping.ofEntry pe (i * 4096) = ⟨(pe / 4096 : ℕ), pe / 4096 * 4096, pe % 4096⟩ := by
  rw [VaMapping.ofEntry, if_pos hp, pageOffset_eq, pageNumber_eq (by omega), pteAddr_eq (by omega),
    pteFlags_eq, Nat.mul_mod_left, Nat.add_zero]

/-- The test of the page loop. -/
theorem copies_iff {leaf : ℕ → ℕ} {i : ℕ} (hpe : leaf i &&& pteP ≠ 0 → leaf i < 0x200000) :
    (VaMapping.ofEntry (leaf i) (i * 4096)).pa ≠ consoleAddr ∧
      (VaMapping.ofEntry (leaf i) (i * 4096)).perm &&& pteW ≠ 0 ↔ Copies leaf i := by
  by_cases hp : leaf i &&& pteP = 0
  · rw [VaMapping.ofEntry, if_neg (not_not.mpr hp)]
    exact iff_of_false (fun hc => hc.2 (by decide)) fun hc => hc.1 hp
  · have hlt := hpe hp
    have hflag : leaf i % 4096 &&& pteW = leaf i &&& pteW := (and_flag_split (by norm_num)).symm
    rw [VaMapping.ofEntry_present hp hlt, hflag, Copies, pteAddr_eq (by omega)]
    exact ⟨fun hc => ⟨hp, hc.2, hc.1⟩, fun hc => ⟨hc.2.2, hc.2.1⟩⟩

section address
variable {m : Memory} {T : Fin 5 → ℕ} {leaf : ℕ → ℕ} (h : Tree m T leaf) {va : ℕ}
  (hva : va < 0x400000)

include h hva

theorem Tree.lookup_low :
    virtualMemoryLookup m (T 0 * 4096) va = VaMapping.ofEntry (leaf (va / 4096)) va := by
  rw [h.lookup_eq, if_pos (by unfold inTree; omega), Nat.mod_eq_of_lt (by omega)]

theorem Tree.physical_low : physical m (T 0 * 4096) va =
    (Translation.ofEntry (leaf (va / 4096)) va).map Translation.pa := by
  rw [physical, h.walk_eq, if_pos (by unfold inTree; omega), Nat.mod_eq_of_lt (by omega)]

end address

theorem presentEntry_cases (pe : ℕ) : (pe &&& pteP = 0 ∧ presentEntry pe = 0) ∨
    (pe &&& pteP ≠ 0 ∧ presentEntry pe = pe) := by
  unfold presentEntry
  by_cases hp : pe &&& pteP = 0
  · exact .inl ⟨hp, if_neg (not_not.mpr hp)⟩
  · exact .inr ⟨hp, if_pos hp⟩

theorem ofEntry_presentEntry (pe va : ℕ) :
    VaMapping.ofEntry (presentEntry pe) va = VaMapping.ofEntry pe va ∧
      Translation.ofEntry (presentEntry pe) va = Translation.ofEntry pe va := by
  rcases presentEntry_cases pe with ⟨hp, he⟩ | ⟨-, he⟩
  · rw [he, VaMapping.ofEntry, VaMapping.ofEntry, Translation.ofEntry, Translation.ofEntry,
      if_neg (not_not.mpr hp), if_neg (not_not.mpr hp)]
    exact ⟨rfl, rfl⟩
  · rw [he]
    exact ⟨rfl, rfl⟩

/-- The child's permissions are the parent's. -/
theorem childEntry_perm (leaf f : ℕ → ℕ) (i va : ℕ) :
    (VaMapping.ofEntry (childEntry leaf f i) va).perm = (VaMapping.ofEntry (leaf i) va).perm := by
  by_cases hc : 256 ≤ i ∧ Copies leaf i
  · have hmod : leaf i % 4096 < 4096 := Nat.mod_lt _ (by norm_num)
    have hp : (f i * 4096 + leaf i % 4096) &&& pteP ≠ 0 := by
      rw [frame_and_flag hmod (by norm_num), ← and_flag_split (by norm_num)]
      exact hc.2.1
    rw [childEntry, if_pos hc, VaMapping.ofEntry, if_pos hp, VaMapping.ofEntry, if_pos hc.2.1,
      pteFlags_eq, pteFlags_eq, frame_mod hmod]
  · rw [childEntry, if_neg hc, (ofEntry_presentEntry _ va).1]

namespace Tree

variable {m : Memory} {S T : Fin 5 → ℕ} {leaf cl : ℕ → ℕ} {info : PageInfos} {i c : ℕ}
  (hS : Tree m S leaf) (hT : Tree m T cl) (hi : i < 1024)
  (hpe : leaf i &&& pteP ≠ 0 → leaf i < 0x200000)

include hS hT hi hpe

/-- A round that copies nothing. -/
theorem forkPage_share (hc : ¬ Copies leaf i) :
    forkPage (S 0 * 4096) (T 0 * 4096) c (i * 4096) (m, info) =
      .ok (setEntry m (leafTable T i * 4096) (i % 512) (presentEntry (leaf i)),
        shareInfo leaf info i) := by
  have hmap := hT.map_ofEntry hi hpe
  unfold forkPage
  simp only [hS.lookup_page hi, pageSize]
  rw [if_neg (fun h => hc ((copies_iff hpe).mp h)), hmap, ok_bind]
  have hinfo : incRefcount info (VaMapping.ofEntry (leaf i) (i * 4096)).pn =
      shareInfo leaf info i := by
    unfold shareInfo
    by_cases hp : leaf i &&& pteP = 0
    · rw [VaMapping.ofEntry, if_neg (not_not.mpr hp), if_neg (not_not.mpr hp)]
      exact if_neg fun hc => absurd hc.1 (by decide)
    · rw [VaMapping.ofEntry_present hp (hpe hp), if_pos hp]
  rw [hinfo]
  rfl

/-- A round that copies its page to the fresh page `pn`. -/
theorem forkPage_copy (hc : Copies leaf i) {pn : ℕ} (hpn : lowestFree info = some pn)
    (hpnT : ∀ j, pn ≠ T j) :
    forkPage (S 0 * 4096) (T 0 * 4096) c (i * 4096) (m, info) =
      .ok (setEntry (memcpy m (pn * 4096) (leaf i / 4096 * 4096) 4096) (leafTable T i * 4096)
          (i % 512) (pn * 4096 + leaf i % 4096),
        Function.update info pn ⟨toInt8 c, 1⟩) := by
  obtain ⟨-, hlt, -⟩ := lowestFree_eq_some hpn
  have hT' := hT.frame (agreeOff_memcpy 4096 m pn (leaf i / 4096 * 4096)) fun j h => hpnT j h.symm
  have hmap := hT'.map_page (i * 4096) (pn * 4096) (leaf i % 4096) (by omega) (by omega) (by omega)
    fun _ => by omega
  have hflag : leaf i % 4096 &&& pteP = leaf i &&& pteP := (and_flag_split (by norm_num)).symm
  have hin : inTree (i * 4096) := by
    unfold inTree
    omega
  rw [if_pos hin, show i * 4096 / 4096 % 1024 = i by omega, newEntry, hflag, if_pos hc.1] at hmap
  unfold forkPage
  simp only [hS.lookup_page hi, pageSize]
  rw [if_pos ((copies_iff hpe).mpr hc), VaMapping.ofEntry_present hc.1 (hpe hc.1),
    allocPageProcess_eq, hpn]
  dsimp only
  rw [hmap]
  rfl

end Tree

/-- Before the round for page `i`: the child's table `T` maps the pages below as the parent's table
`S` does, with copies at `f`. The pages `Q`, among them both tables, are in use. -/
structure Cloned (Q : ℕ → Prop) (S T : Fin 5 → ℕ) (leaf : ℕ → ℕ) (i : ℕ) (m : Memory)
    (info : PageInfos) (f : ℕ → ℕ) : Prop where
  parent : Tree m S leaf
  child : Tree m T (fun x => if x < i then childEntry leaf f x else 0)
  parent_kept : ∀ j, Q (S j)
  child_kept : ∀ j, Q (T j)
  counted : ∀ pn, Q pn → (info pn).refcount ≠ 0
  disjoint : ∀ j j', T j ≠ S j'

/-- The leaf entries after one more round. -/
theorem childEntry_succ {leaf f g : ℕ → ℕ} {i pe : ℕ} (hf : ∀ x < i, g x = f x)
    (hpe : childEntry leaf g i = pe) :
    Function.update (fun x => if x < i then childEntry leaf f x else 0) i pe =
      fun x => if x < i + 1 then childEntry leaf g x else 0 := by
  funext x
  by_cases hx : x = i
  · rw [hx, Function.update_self, if_pos (Nat.lt_succ_self i), hpe]
  · rw [Function.update_of_ne hx]
    by_cases hlt : x < i
    · rw [if_pos hlt, if_pos (by omega), childEntry, childEntry, hf x hlt]
    · rw [if_neg hlt, if_neg (by omega)]

namespace Cloned

variable {Q : ℕ → Prop} {S T : Fin 5 → ℕ} {leaf f : ℕ → ℕ} {i c : ℕ} {m : Memory}
  {info : PageInfos}

section round
variable (h : Cloned Q S T leaf i m info f) (hi : 256 ≤ i) (hi' : i < 1024)
  (hpe : leaf i &&& pteP ≠ 0 → leaf i < 0x200000)

include h hi' hpe

theorem share (hc : ¬ Copies leaf i)
    (hQ : ∀ pn, Q pn → (shareInfo leaf info i pn).refcount ≠ 0) :
    ∃ m', forkPage (S 0 * 4096) (T 0 * 4096) c (i * 4096) (m, info) =
        .ok (m', shareInfo leaf info i) ∧
      Cloned Q S T leaf (i + 1) m' (shareInfo leaf info i) f ∧
      AgreeOff 4096 (fun x => ∃ j, x = T j) m m' := by
  have ha := Tree.agreeOff_tables m T i (presentEntry (leaf i))
  have hset := h.child.setLeaf hi' (presentEntry_lt h.parent hi')
  rw [childEntry_succ (g := f) (fun _ _ => rfl) (if_neg fun hc' => hc hc'.2)] at hset
  refine ⟨_, h.parent.forkPage_share h.child hi' hpe hc,
    ⟨?_, hset, h.parent_kept, h.child_kept, hQ, h.disjoint⟩, ha⟩
  exact h.parent.frame ha fun j' ⟨j, hj⟩ => h.disjoint j j' hj.symm

include hi in
theorem copy (hc16 : c < 16) (hc : Copies leaf i) {pn : ℕ} (hpn : lowestFree info = some pn) :
    ∃ m', forkPage (S 0 * 4096) (T 0 * 4096) c (i * 4096) (m, info) =
        .ok (m', Function.update info pn ⟨c, 1⟩) ∧
      Cloned Q S T leaf (i + 1) m' (Function.update info pn ⟨c, 1⟩) (Function.update f i pn) ∧
      AgreeOff 4096 (fun x => x = pn ∨ ∃ j, x = T j) m m' ∧
      (pn ≠ leaf i / 4096 → ∀ o < 4096, m' (pn * 4096 + o) = m (leaf i / 4096 * 4096 + o)) := by
  obtain ⟨-, hlt, hz⟩ := lowestFree_eq_some hpn
  have hpnQ (x : ℕ) (hx : Q x) : x ≠ pn := fun heq => h.counted x hx (heq ▸ hz)
  have hpnT (j : Fin 5) : T j ≠ pn := hpnQ _ (h.child_kept j)
  have hcopy : AgreeOff 4096 (· = pn) m (memcpy m (pn * 4096) (leaf i / 4096 * 4096) 4096) :=
    agreeOff_memcpy 4096 m pn _
  have hbytes (hne : pn ≠ leaf i / 4096) (o : ℕ) (ho : o < 4096) :
      memcpy m (pn * 4096) (leaf i / 4096 * 4096) 4096 (pn * 4096 + o) =
        m (leaf i / 4096 * 4096 + o) := by
    rw [memcpy_apply _ _ _ _ _ (by omega), if_pos (by omega), Nat.add_sub_cancel_left]
  have hstep := h.parent.forkPage_copy (c := c) h.child hi' hpe hc hpn fun j hj => hpnT j hj.symm
  rw [toInt8_pid hc16] at hstep
  generalize memcpy m (pn * 4096) (leaf i / 4096 * 4096) 4096 = m₁ at hcopy hbytes hstep
  have hleaf := Tree.agreeOff_tables m₁ T i (pn * 4096 + leaf i % 4096)
  have hset := (h.child.frame hcopy hpnT).setLeaf hi'
    (show pn * 4096 + leaf i % 4096 < 2 ^ 64 by omega)
  rw [childEntry_succ (g := Function.update f i pn)
    (fun x hx => Function.update_of_ne (by omega) _ _) (by
      rw [childEntry, if_pos ⟨hi, hc⟩, Function.update_self])] at hset
  refine ⟨_, hstep, ⟨?_, hset, h.parent_kept, h.child_kept, fun x hx => ?_, h.disjoint⟩, ?_,
    fun hne o ho => ?_⟩
  · exact (h.parent.frame hcopy fun j => hpnQ _ (h.parent_kept j)).frame hleaf
      fun j' ⟨j, hj⟩ => h.disjoint j j' hj.symm
  · rw [Function.update_of_ne (hpnQ x hx)]
    exact h.counted x hx
  · exact (hcopy.mono fun _ => .inl).trans (hleaf.mono fun _ => .inr)
  · rw [hleaf (pn * 4096 + o) fun ⟨j, hj⟩ => hpnT j (by omega), hbytes hne o ho]

end round

/-- In the end both tables give every address the same permissions. -/
theorem perm_eq (h : Cloned Q S T leaf 768 m info f) {va : ℕ} (hva : va < memsizeVirtual) :
    (virtualMemoryLookup m (T 0 * 4096) va).perm =
      (VaMapping.ofEntry (leaf (va / 4096)) va).perm := by
  simp only [memsizeVirtual] at hva
  rw [h.child.lookup_low (by omega), if_pos (by omega), childEntry_perm]

end Cloned

/-- An address space whose pages are counted, with room for one more use, and whose shared pages are
mapped once. -/
structure Clonable (leaf : ℕ → ℕ) (info : PageInfos) : Prop where
  phys : ∀ i < 768, leaf i &&& pteP ≠ 0 → leaf i < 0x200000
  counted : ∀ i ∈ Finset.Ico 256 768, leaf i &&& pteP ≠ 0 →
    1 ≤ (info (leaf i / 4096)).refcount ∧ (info (leaf i / 4096)).refcount ≤ 126
  single : ∀ i ∈ Finset.Ico 256 768, ∀ i' ∈ Finset.Ico 256 768, Shares leaf i → Shares leaf i' →
    leaf i / 4096 = leaf i' / 4096 → i = i'

/-- What the rounds for the pages below `i` have made of the memory `m₀` and the counts `info₀`. -/
structure CopiedTo (m₀ : Memory) (info₀ : PageInfos) (T : Fin 5 → ℕ) (leaf : ℕ → ℕ) (c i : ℕ)
    (m : Memory) (info : PageInfos) (f : ℕ → ℕ) : Prop where
  fresh : ∀ x ∈ Finset.Ico 256 i, Copies leaf x → f x ∈ freePages info₀
  inj : ∀ x ∈ Finset.Ico 256 i, ∀ y ∈ Finset.Ico 256 i, Copies leaf x → Copies leaf y →
    f x = f y → x = y
  bytes : ∀ x ∈ Finset.Ico 256 i, Copies leaf x → ∀ o < 4096,
    m (f x * 4096 + o) = m₀ (leaf x / 4096 * 4096 + o)
  copied : ∀ x ∈ Finset.Ico 256 i, Copies leaf x → info (f x) = ⟨c, 1⟩
  shared : ∀ x ∈ Finset.Ico 256 i, Shares leaf x → info (leaf x / 4096) =
    { info₀ (leaf x / 4096) with refcount := (info₀ (leaf x / 4096)).refcount + 1 }
  other : ∀ pn, (∀ x ∈ Finset.Ico 256 i, Copies leaf x → f x ≠ pn) →
    (∀ x ∈ Finset.Ico 256 i, Shares leaf x → leaf x / 4096 ≠ pn) → info pn = info₀ pn
  frame : AgreeOff 4096 (fun pn => (∃ j, pn = T j) ∨
    ∃ x ∈ Finset.Ico 256 i, Copies leaf x ∧ pn = f x) m₀ m

theorem mem_user {i x : ℕ} (hx : x ∈ Finset.Ico 256 i) (hi : i ≤ 768) : x ∈ Finset.Ico 256 768 :=
  Finset.mem_Ico.mpr ⟨(Finset.mem_Ico.mp hx).1, (Finset.mem_Ico.mp hx).2.trans_le hi⟩

theorem mem_succ {i x : ℕ} (hx : x ∈ Finset.Ico 256 i) : x ∈ Finset.Ico 256 (i + 1) :=
  Finset.mem_Ico.mpr ⟨(Finset.mem_Ico.mp hx).1, Nat.lt_succ_of_lt (Finset.mem_Ico.mp hx).2⟩

theorem mem_last {i : ℕ} (hi : 256 ≤ i) : i ∈ Finset.Ico 256 (i + 1) :=
  Finset.mem_Ico.mpr ⟨hi, Nat.lt_succ_self i⟩

theorem mem_next {i x : ℕ} (hx : x ∈ Finset.Ico 256 (i + 1)) : x ∈ Finset.Ico 256 i ∨ x = i := by
  have := Finset.mem_Ico.mp hx
  rcases Nat.lt_succ_iff_lt_or_eq.mp this.2 with h | h
  · exact .inl (Finset.mem_Ico.mpr ⟨this.1, h⟩)
  · exact .inr h

namespace CopiedTo

variable {m₀ m : Memory} {info₀ info : PageInfos} {T : Fin 5 → ℕ} {leaf f : ℕ → ℕ} {c i : ℕ}
  (h : CopiedTo m₀ info₀ T leaf c i m info f)

include h

/-- A page in use before the loop is no copy. -/
theorem not_copy {pn : ℕ} (hpn : (info₀ pn).refcount ≠ 0) :
    ∀ x ∈ Finset.Ico 256 i, Copies leaf x → f x ≠ pn := by
  rintro x hx hc rfl
  exact hpn (Finset.mem_filter.mp (h.fresh x hx hc)).2

variable (hcl : Clonable leaf info₀) (hi : i < 768)

include hcl hi

/-- A page that is free now was free before the loop. -/
theorem free_before {pn : ℕ} (hz : (info pn).refcount = 0) : (info₀ pn).refcount = 0 := by
  rw [← h.other pn (fun x hx hc heq => ?_) (fun x hx hs heq => ?_)]
  · exact hz
  · rw [← heq, h.copied x hx hc] at hz
    exact absurd hz one_ne_zero
  · rw [← heq, h.shared x hx hs] at hz
    have := (hcl.counted x (mem_user hx hi.le) hs.1).1
    simp only at hz
    omega

variable (hi' : 256 ≤ i) {m' : Memory} (hT : ∀ j, (info₀ (T j)).refcount ≠ 0)
  (hleafT : ∀ x ∈ Finset.Ico 256 768, leaf x &&& pteP ≠ 0 → ∀ j, leaf x / 4096 ≠ T j)

/-- The page that is about to be copied is as it was before the loop. -/
theorem source_eq (hi' : 256 ≤ i) (hp : leaf i &&& pteP ≠ 0)
    (hleafT : ∀ x ∈ Finset.Ico 256 768, leaf x &&& pteP ≠ 0 → ∀ j, leaf x / 4096 ≠ T j) {o : ℕ}
    (ho : o < 4096) : m (leaf i / 4096 * 4096 + o) = m₀ (leaf i / 4096 * 4096 + o) := by
  have hmem : i ∈ Finset.Ico 256 768 := Finset.mem_Ico.mpr ⟨hi', hi⟩
  apply h.frame
  rw [show (leaf i / 4096 * 4096 + o) / 4096 = leaf i / 4096 by omega]
  rintro (⟨j, hj⟩ | ⟨x, hx, hc, heq⟩)
  · exact hleafT i hmem hp j hj
  · have hcount := (hcl.counted i hmem hp).1
    exact h.not_copy (by omega) x hx hc heq.symm

include hi' hT hleafT in
theorem copy_round (hc : Copies leaf i) {pn : ℕ} (hpn : lowestFree info = some pn)
    (ha : AgreeOff 4096 (fun x => x = pn ∨ ∃ j, x = T j) m m')
    (hbytes : ∀ o < 4096, m' (pn * 4096 + o) = m (leaf i / 4096 * 4096 + o)) :
    CopiedTo m₀ info₀ T leaf c (i + 1) m' (Function.update info pn ⟨c, 1⟩)
      (Function.update f i pn) := by
  obtain ⟨h1, h512, hz⟩ := lowestFree_eq_some hpn
  have hz₀ := h.free_before hcl hi hz
  have hf {x : ℕ} (hx : x ∈ Finset.Ico 256 i) : Function.update f i pn x = f x :=
    Function.update_of_ne (Finset.mem_Ico.mp hx).2.ne _ _
  have hi_mem : i ∈ Finset.Ico 256 768 := Finset.mem_Ico.mpr ⟨hi', hi⟩
  have hne {x : ℕ} (hx : x ∈ Finset.Ico 256 i) (hcx : Copies leaf x) : f x ≠ pn := by
    rintro rfl
    rw [h.copied x hx hcx] at hz
    exact one_ne_zero hz
  have hfT {x : ℕ} (hx : x ∈ Finset.Ico 256 i) (hcx : Copies leaf x) (j : Fin 5) : f x ≠ T j :=
    h.not_copy (hT j) x hx hcx
  have hused {x : ℕ} (hx : x ∈ Finset.Ico 256 768) (hp : leaf x &&& pteP ≠ 0) :
      leaf x / 4096 ≠ pn := by
    intro heq
    have := (hcl.counted x hx hp).1
    rw [heq] at this
    omega
  constructor
  · intro x hx hcx
    rcases mem_next hx with hx | rfl
    · rw [hf hx]
      exact h.fresh x hx hcx
    · rw [Function.update_self, freePages, Finset.mem_filter, Finset.mem_Ico]
      exact ⟨⟨h1, h512⟩, hz₀⟩
  · intro x hx y hy hcx hcy heq
    rcases mem_next hx with hx | rfl <;> rcases mem_next hy with hy | rfl
    · rw [hf hx, hf hy] at heq
      exact h.inj x hx y hy hcx hcy heq
    · rw [hf hx, Function.update_self] at heq
      exact absurd heq (hne hx hcx)
    · rw [hf hy, Function.update_self] at heq
      exact absurd heq.symm (hne hy hcy)
    · rfl
  · intro x hx hcx o ho
    rcases mem_next hx with hx | rfl
    · rw [hf hx, ha (f x * 4096 + o), h.bytes x hx hcx o ho]
      rw [show (f x * 4096 + o) / 4096 = f x by omega]
      rintro (heq | ⟨j, hj⟩)
      · exact hne hx hcx heq
      · exact hfT hx hcx j hj
    · rw [Function.update_self, hbytes o ho, h.source_eq hcl hi hi' hcx.1 hleafT ho]
  · intro x hx hcx
    rcases mem_next hx with hx | rfl
    · rw [hf hx, Function.update_of_ne (hne hx hcx), h.copied x hx hcx]
    · rw [Function.update_self, Function.update_self]
  · intro x hx hs
    rcases mem_next hx with hx | rfl
    · rw [Function.update_of_ne (hused (mem_user hx hi.le) hs.1), h.shared x hx hs]
    · exact absurd hc hs.2
  · intro x hcopies hshares
    have hxpn := hcopies i (mem_last hi') hc
    rw [Function.update_self] at hxpn
    rw [Function.update_of_ne hxpn.symm]
    exact h.other x (fun y hy hcy => hf hy ▸ hcopies y (mem_succ hy) hcy)
      fun y hy hs => hshares y (mem_succ hy) hs
  · refine (h.frame.mono fun x hx => ?_).trans (ha.mono fun x hx => ?_)
    · rcases hx with hj | ⟨y, hy, hcy, heq⟩
      · exact .inl hj
      · exact .inr ⟨y, mem_succ hy, hcy, heq.trans (hf hy).symm⟩
    · rcases hx with rfl | hj
      · exact .inr ⟨i, mem_last hi', hc, by rw [Function.update_self]⟩
      · exact .inl hj

include hi' in
theorem shareInfo_eq (hs : Shares leaf i) : info (leaf i / 4096) = info₀ (leaf i / 4096) ∧
    shareInfo leaf info i = Function.update info (leaf i / 4096)
      { info₀ (leaf i / 4096) with refcount := (info₀ (leaf i / 4096)).refcount + 1 } := by
  have hi_mem : i ∈ Finset.Ico 256 768 := Finset.mem_Ico.mpr ⟨hi', hi⟩
  have hlt := hcl.phys i hi hs.1
  obtain ⟨hlo, hhi⟩ := hcl.counted i hi_mem hs.1
  have hsame : info (leaf i / 4096) = info₀ (leaf i / 4096) := by
    refine h.other _ (h.not_copy (by omega)) fun x hx hsx heq => ?_
    have := hcl.single x (mem_user hx hi.le) i hi_mem hsx hs heq
    exact (Finset.mem_Ico.mp hx).2.ne this
  refine ⟨hsame, ?_⟩
  rw [shareInfo, if_pos hs.1, incRefcount, if_pos (by simp only [nPages]; omega),
    Int.toNat_natCast, hsame, toInt8_eq_self (by omega) (by omega)]

include hi' in
theorem share_round (hs : Shares leaf i) (ha : AgreeOff 4096 (fun x => ∃ j, x = T j) m m')
    (hT : ∀ j, (info₀ (T j)).refcount ≠ 0) :
    CopiedTo m₀ info₀ T leaf c (i + 1) m' (shareInfo leaf info i) f := by
  have hi_mem : i ∈ Finset.Ico 256 768 := Finset.mem_Ico.mpr ⟨hi', hi⟩
  obtain ⟨hlo, -⟩ := hcl.counted i hi_mem hs.1
  have hno_copy := h.not_copy (show (info₀ (leaf i / 4096)).refcount ≠ 0 by omega)
  rw [(h.shareInfo_eq hcl hi hi' hs).2]
  constructor
  · intro x hx hc
    rcases mem_next hx with hx | rfl
    · exact h.fresh x hx hc
    · exact absurd hc hs.2
  · intro x hx y hy hcx hcy heq
    rcases mem_next hx with hx | rfl <;> rcases mem_next hy with hy | rfl
    · exact h.inj x hx y hy hcx hcy heq
    · exact absurd hcy hs.2
    · exact absurd hcx hs.2
    · rfl
  · intro x hx hc o ho
    rcases mem_next hx with hx | rfl
    · rw [ha (f x * 4096 + o), h.bytes x hx hc o ho]
      rw [show (f x * 4096 + o) / 4096 = f x by omega]
      exact fun ⟨j, hj⟩ => h.not_copy (hT j) x hx hc hj
    · exact absurd hc hs.2
  · intro x hx hc
    rcases mem_next hx with hx | rfl
    · rw [Function.update_of_ne (hno_copy x hx hc), h.copied x hx hc]
    · exact absurd hc hs.2
  · intro x hx hsx
    rcases mem_next hx with hx | rfl
    · rw [Function.update_of_ne, h.shared x hx hsx]
      intro heq
      have := hcl.single x (mem_user hx hi.le) i hi_mem hsx hs heq
      exact (Finset.mem_Ico.mp hx).2.ne this
    · rw [Function.update_self]
  · intro x hcopies hshares
    rw [Function.update_of_ne (hshares i (mem_last hi') hs).symm]
    exact h.other x (fun y hy => hcopies y (mem_succ hy)) fun y hy => hshares y (mem_succ hy)
  · refine (h.frame.trans (ha.mono fun _ => .inl)).mono fun x hx => ?_
    exact hx.imp_right fun ⟨y, hy, hc⟩ => ⟨y, mem_succ hy, hc⟩

omit hcl hi in
theorem absent_round (hp : leaf i &&& pteP = 0)
    (ha : AgreeOff 4096 (fun x => ∃ j, x = T j) m m') (hT : ∀ j, (info₀ (T j)).refcount ≠ 0) :
    CopiedTo m₀ info₀ T leaf c (i + 1) m' (shareInfo leaf info i) f := by
  rw [shareInfo, if_neg (not_not.mpr hp)]
  have hlast {x : ℕ} (hx : x ∈ Finset.Ico 256 (i + 1)) (hpx : leaf x &&& pteP ≠ 0) :
      x ∈ Finset.Ico 256 i := by
    apply (mem_next hx).resolve_right
    rintro rfl
    exact hpx hp
  constructor
  · exact fun x hx hc => h.fresh x (hlast hx hc.1) hc
  · exact fun x hx y hy hcx hcy => h.inj x (hlast hx hcx.1) y (hlast hy hcy.1) hcx hcy
  · intro x hx hc o ho
    rw [ha (f x * 4096 + o), h.bytes x (hlast hx hc.1) hc o ho]
    rw [show (f x * 4096 + o) / 4096 = f x by omega]
    exact fun ⟨j, hj⟩ => h.not_copy (hT j) x (hlast hx hc.1) hc hj
  · exact fun x hx hc => h.copied x (hlast hx hc.1) hc
  · exact fun x hx hs => h.shared x (hlast hx hs.1) hs
  · intro x hcopies hshares
    exact h.other x (fun y hy => hcopies y (mem_succ hy)) fun y hy => hshares y (mem_succ hy)
  · refine (h.frame.trans (ha.mono fun _ => .inl)).mono fun x hx => ?_
    exact hx.imp_right fun ⟨y, hy, hc⟩ => ⟨y, mem_succ hy, hc⟩

end CopiedTo

/-- The pages from `i` on that are still to be copied. -/
def copiesFrom (leaf : ℕ → ℕ) (i : ℕ) : Finset ℕ := (Finset.Ico i 768).filter (Copies leaf)

theorem copiesFrom_succ {leaf : ℕ → ℕ} {i : ℕ} (hi : i < 768) :
    (copiesFrom leaf i).card = (copiesFrom leaf (i + 1)).card + if Copies leaf i then 1 else 0 := by
  unfold copiesFrom
  rw [← Finset.insert_Ico_add_one_left_eq_Ico hi, Finset.filter_insert]
  split_ifs with hc
  · rw [Finset.card_insert_of_notMem]
    simp
  · rfl

theorem page_lt {i : ℕ} (hi : i ∈ Finset.Ico 256 768) : i * 4096 < memsizeVirtual := by
  have := (Finset.mem_Ico.mp hi).2
  simp only [memsizeVirtual]
  omega

/-- A fork copies at most the writable pages of the caller. -/
theorem copies_le_writable {k : Kernel} {S : Fin 5 → ℕ} {leaf : ℕ → ℕ} (hS : Tree k.mem S leaf)
    (hpt : k.currentProc.pagetable = S 0 * 4096)
    (hphys : ∀ i < 768, leaf i &&& pteP ≠ 0 → leaf i < 0x200000) :
    (copiesFrom leaf 256).card ≤ k.writablePages := by
  refine Finset.card_le_card fun i hi => ?_
  obtain ⟨hmem, hc⟩ := Finset.mem_filter.mp hi
  refine Finset.mem_filter.mpr ⟨hmem, ?_⟩
  have hi768 := (Finset.mem_Ico.mp hmem).2
  rw [hpt, hS.lookup_page (by omega)]
  exact ((copies_iff (hphys i hi768)).mpr hc).2

theorem freePages_update {info : PageInfos} {pn : ℕ} {x : PageInfo} (h : (info pn).refcount ≠ 0)
    (hx : x.refcount ≠ 0) : freePages (Function.update info pn x) = freePages info := by
  refine Finset.filter_congr fun q _ => ?_
  by_cases hq : q = pn
  · rw [hq, Function.update_self]
    exact iff_of_false hx h
  · rw [Function.update_of_ne hq]

section loop
variable {Q : ℕ → Prop} {S T : Fin 5 → ℕ} {leaf : ℕ → ℕ} {c : ℕ} {m₀ : Memory} {info₀ : PageInfos}
  (hc16 : c < 16) (hcl : Clonable leaf info₀) (hT : ∀ j, (info₀ (T j)).refcount ≠ 0)
  (hleafT : ∀ x ∈ Finset.Ico 256 768, leaf x &&& pteP ≠ 0 → ∀ j, leaf x / 4096 ≠ T j)

include hc16 hcl hT hleafT

theorem clone_round {i : ℕ} {m : Memory} {info : PageInfos} {f : ℕ → ℕ} (hi : 256 ≤ i)
    (hi' : i < 768) (h : Cloned Q S T leaf i m info f)
    (hcp : CopiedTo m₀ info₀ T leaf c i m info f)
    (hroom : (copiesFrom leaf i).card ≤ (freePages info).card) :
    ∃ m' info' f', forkPage (S 0 * 4096) (T 0 * 4096) c (i * 4096) (m, info) = .ok (m', info') ∧
      Cloned Q S T leaf (i + 1) m' info' f' ∧ CopiedTo m₀ info₀ T leaf c (i + 1) m' info' f' ∧
      (copiesFrom leaf (i + 1)).card ≤ (freePages info').card := by
  have hmem : i ∈ Finset.Ico 256 768 := Finset.mem_Ico.mpr ⟨hi, hi'⟩
  have hpe := hcl.phys i hi'
  rw [copiesFrom_succ hi'] at hroom
  by_cases hc : Copies leaf i
  · rw [if_pos hc] at hroom
    obtain ⟨pn, hpn⟩ := exists_lowestFree (show 0 < (freePages info).card by omega)
    obtain ⟨m', hstep, hcl', ha, hbytes⟩ := h.copy hi (by omega) hpe hc16 hc hpn
    have hcount := (hcl.counted i hmem hc.1).1
    have hne : pn ≠ leaf i / 4096 := by
      rintro rfl
      have := hcp.free_before hcl hi' (lowestFree_eq_some hpn).2.2
      omega
    refine ⟨m', _, _, hstep, hcl', ?_, ?_⟩
    · exact hcp.copy_round hcl hi' hi hT hleafT hc hpn ha (hbytes hne)
    · have := card_freePages_assign c hpn
      omega
  · rw [if_neg hc, Nat.add_zero] at hroom
    by_cases hp : leaf i &&& pteP = 0
    · have hsame : shareInfo leaf info i = info := if_neg (not_not.mpr hp)
      obtain ⟨m', hstep, hcl', ha⟩ := h.share (c := c) (by omega) hpe hc (hsame.symm ▸ h.counted)
      exact ⟨m', _, f, hstep, hcl', hcp.absent_round hp ha hT, hsame.symm ▸ hroom⟩
    · have hs : Shares leaf i := ⟨hp, hc⟩
      have hlo := (hcl.counted i hmem hp).1
      obtain ⟨hsame, hinfo⟩ := hcp.shareInfo_eq hcl hi' hi hs
      have hnz : (info₀ (leaf i / 4096)).refcount + 1 ≠ 0 := by omega
      obtain ⟨m', hstep, hcl', ha⟩ := h.share (c := c) (by omega) hpe hc (by
        intro x hx
        rw [hinfo, Function.update_apply]
        split_ifs
        · exact hnz
        · exact h.counted x hx)
      refine ⟨m', _, f, hstep, hcl', hcp.share_round hcl hi' hi hs ha hT, ?_⟩
      rw [hinfo, freePages_update (by rw [hsame]; omega) hnz]
      exact hroom

/-- The page loop of `INT_SYS_FORK`, from the round for page `i` on. -/
theorem clone_loop {n i : ℕ} {m : Memory} {info : PageInfos} {f : ℕ → ℕ} (hi : 256 ≤ i)
    (hn : i + n = 768) (h : Cloned Q S T leaf i m info f)
    (hcp : CopiedTo m₀ info₀ T leaf c i m info f)
    (hroom : (copiesFrom leaf i).card ≤ (freePages info).card) :
    ∃ m' info' f', forkLoop (S 0 * 4096) (T 0 * 4096) c n (i * 4096) (m, info) =
        .ok (m', info') ∧
      Cloned Q S T leaf 768 m' info' f' ∧ CopiedTo m₀ info₀ T leaf c 768 m' info' f' := by
  induction n generalizing i m info f with
  | zero =>
      obtain rfl : i = 768 := hn
      exact ⟨m, info, f, rfl, h, hcp⟩
  | succ n ih =>
      obtain ⟨m₁, info₁, f₁, hstep, h₁, hcp₁, hroom₁⟩ :=
        clone_round hc16 hcl hT hleafT hi (by omega) h hcp hroom
      obtain ⟨m', info', f', hrest, h', hcp'⟩ := ih (by omega) (by omega) h₁ hcp₁ hroom₁
      refine ⟨m', info', f', ?_, h', hcp'⟩
      rw [forkLoop, hstep, ok_bind]
      simp only [pageSize]
      rw [show i * 4096 + 4096 = (i + 1) * 4096 by omega]
      exact hrest

end loop

/-- A ledger with nothing but `pageinfo`. -/
def World.ofInfo (info : PageInfos) : World := ⟨info, fun _ => .free, fun _ => none, 0⟩

/-- What `duplicate_pagetable` leaves: a table on the pages `T`, which were free, with the mappings
below `PROC_START_ADDR`. -/
structure FreshTable (m : Memory) (info : PageInfos) (leaf : ℕ → ℕ) (c : ℕ) (T : Fin 5 → ℕ)
    (m₁ : Memory) (info₁ : PageInfos) : Prop where
  tree : Tree m₁ T (fun x => if x < 256 then presentEntry (leaf x) else 0)
  frame : AgreeOff 4096 (fun pn => ∃ j, pn = T j) m m₁
  free : ∀ j, (info (T j)).refcount = 0
  info_eq : ∀ pn, info₁ pn = if ∃ j, pn = T j then ⟨c, 1⟩ else info pn
  room : (freePages info₁).card + 5 = (freePages info).card

theorem duplicatePagetable_fresh {m : Memory} {info : PageInfos} {S : Fin 5 → ℕ} {leaf : ℕ → ℕ}
    {c : ℕ} (hc : c < 16) (hS : Tree m S leaf)
    (hphys : ∀ i < 256, leaf i &&& pteP ≠ 0 → leaf i < 0x200000)
    (hused : ∀ j, (info (S j)).refcount ≠ 0) (hroom : 5 ≤ (freePages info).card) :
    ∃ T m₁ info₁, duplicatePagetable m info (S 0 * 4096) c = .ok (m₁, info₁, T 0 * 4096) ∧
      FreshTable m info leaf c T m₁ info₁ := by
  obtain ⟨w', hdup, hcard⟩ := World.duplicate_some (w := World.ofInfo info) c hroom
  have htook := World.duplicate_spec hdup
  obtain ⟨m₁, hm₁, htree, ha⟩ := duplicatePagetable_copies (w := World.ofInfo info) hc hS hphys
    hused hdup
  refine ⟨w'.frames c, m₁, w'.info, hm₁, htree, ha,
    fun j => (htook.fresh j (World.mem_tables j)).2.2, fun pn => ?_, hcard⟩
  rw [htook.info pn]
  refine if_congr ⟨fun ⟨j, _, hj⟩ => ⟨j, hj⟩, fun ⟨j, hj⟩ => ?_⟩ rfl rfl
  exact ⟨j, World.mem_tables j, hj⟩

namespace FreshTable

variable {m m₁ : Memory} {info info₁ : PageInfos} {leaf : ℕ → ℕ} {c : ℕ} {T : Fin 5 → ℕ}
  (h : FreshTable m info leaf c T m₁ info₁)

include h

theorem counted (j : Fin 5) : info₁ (T j) = ⟨c, 1⟩ := by
  rw [h.info_eq, if_pos ⟨j, rfl⟩]

/-- Pages in use before keep their contents and their count. -/
theorem kept {pn : ℕ} (hpn : (info pn).refcount ≠ 0) : (∀ j, pn ≠ T j) ∧ info₁ pn = info pn := by
  have hne (j : Fin 5) : pn ≠ T j := by
    rintro rfl
    exact hpn (h.free j)
  refine ⟨hne, ?_⟩
  rw [h.info_eq, if_neg fun ⟨j, hj⟩ => hne j hj]

theorem free_before {pn : ℕ} (hpn : (info₁ pn).refcount = 0) : (info pn).refcount = 0 := by
  by_contra hne
  rw [(h.kept hne).2] at hpn
  exact hne hpn

theorem clonable (hcl : Clonable leaf info) : Clonable leaf info₁ := by
  refine ⟨hcl.phys, fun i hi hp => ?_, hcl.single⟩
  have hcount := hcl.counted i hi hp
  rw [(h.kept (by omega)).2]
  exact hcount

/-- The state in which the page loop starts. -/
theorem cloned {S : Fin 5 → ℕ} {Q : ℕ → Prop} {f : ℕ → ℕ} (hS : Tree m S leaf)
    (hQS : ∀ j, Q (S j)) (hQT : ∀ j, Q (T j)) (hused : ∀ j, (info (S j)).refcount ≠ 0)
    (hQ : ∀ pn, Q pn → (info₁ pn).refcount ≠ 0) : Cloned Q S T leaf 256 m₁ info₁ f := by
  have hdisj (j j' : Fin 5) : T j ≠ S j' := ((h.kept (hused j')).1 j).symm
  refine ⟨hS.frame h.frame fun j' ⟨j, hj⟩ => hdisj j j' hj.symm, ?_, hQS, hQT, hQ, hdisj⟩
  convert h.tree using 1
  funext x
  split_ifs with hx
  · exact if_neg fun hc => absurd hc.1 (by omega)
  · rfl

end FreshTable

theorem CopiedTo.start (m₀ : Memory) (info₀ : PageInfos) (T : Fin 5 → ℕ) (leaf : ℕ → ℕ) (c : ℕ)
    (f : ℕ → ℕ) : CopiedTo m₀ info₀ T leaf c 256 m₀ info₀ f := by
  have hempty {x : ℕ} (hx : x ∈ Finset.Ico 256 256) : False := by simp at hx
  exact ⟨fun x hx => (hempty hx).elim, fun x hx => (hempty hx).elim,
    fun x hx => (hempty hx).elim, fun x hx => (hempty hx).elim, fun x hx => (hempty hx).elim,
    fun _ _ _ => rfl, AgreeOff.refl _ _ _⟩

end WeensyOS
