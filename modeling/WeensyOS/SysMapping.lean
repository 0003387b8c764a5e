import WeensyOS.Exception
import WeensyOS.MapRange

/-!
# `sys_mapping`

The call stores a `vamapping` object of 24 bytes into a buffer of the caller. The kernel writes it
to consecutive physical addresses from the translation of the first byte on, and it tests the end of
the buffer by looking up that physical end address in the caller's page table as if it were a
virtual one. The call is right for the buffers for which both come to the same.
-/

namespace WeensyOS
open ByteMemory

@[simp] abbrev vamappingSize : ℕ := 24

/-- Byte `i` of a `vamapping` object. -/
def VaMapping.byte (v : VaMapping) (i : ℕ) : UInt8 :=
  UInt8.ofNat ((if i < 8 then (v.pn % 2 ^ 32).toNat else if i < 16 then v.pa else v.perm) /
    256 ^ (i % 8))

theorem VaMapping.store_apply (m : Memory) (a : ℕ) (v : VaMapping) (x : ℕ) :
    v.store m a x = if a ≤ x ∧ x < a + 24 then v.byte (x - a) else m x := by
  unfold VaMapping.store VaMapping.byte
  rw [storeLE_apply, storeLE_apply, storeLE_apply]
  by_cases h2 : a + 16 ≤ x ∧ x < a + 16 + 8
  · rw [if_pos h2, if_pos (by omega), if_neg (by omega), if_neg (by omega),
      show (x - a) % 8 = x - (a + 16) by omega]
  · rw [if_neg h2]
    by_cases h1 : a + 8 ≤ x ∧ x < a + 8 + 8
    · rw [if_pos h1, if_pos (by omega), if_neg (by omega), if_pos (by omega),
        show (x - a) % 8 = x - (a + 8) by omega]
    · rw [if_neg h1]
      by_cases h0 : a ≤ x ∧ x < a + 8
      · rw [if_pos h0, if_pos (by omega), if_pos (by omega), show (x - a) % 8 = x - a by omega]
      · rw [if_neg h0, if_neg (by omega)]

section tables
variable (m : Memory) (pt : ℕ)

/-- The page of `va` is mapped `P|W|U`. -/
def UserWritable (va : ℕ) : Prop := Reached m pt va 3 ∧ pathEntry m pt va 3 &&& 7 = 7

instance (va : ℕ) : Decidable (UserWritable m pt va) := inferInstanceAs (Decidable (_ ∧ _))

/-- No user-writable page is a page-table page. -/
def TablesProtected : Prop := ∀ va va' i, i ≤ 3 → UserWritable m pt va → Reached m pt va' i →
  pteAddr (pathEntry m pt va 3) ≠ pathTable m pt va' i

/-- The physical address of `va`, as the processor translates it. -/
def physical (va : ℕ) : Option ℕ := (walk m pt va).map Translation.pa

/-- The byte that a program reads at `va`. -/
def virtualByte (va : ℕ) : Option UInt8 := (physical m pt va).map m

/-- The pages of the page table have the same contents. -/
def SameTables (m' : Memory) : Prop := ∀ va i x, i ≤ 3 → Reached m pt va i → x < 4096 →
  m' (pathTable m pt va i + x) = m (pathTable m pt va i + x)

end tables

section walk
variable {m m' : Memory} {pt va : ℕ}

theorem walkLevels_path (n i : ℕ) (w u : Bool) :
    (walkLevels m va n i (pathTable m pt va i) w u).map Translation.pa =
      if ∀ j, i ≤ j → j < i + n → pathEntry m pt va j &&& pteP ≠ 0 then
        some (pathTable m pt va (i + n) + pageOffset va)
      else none := by
  induction n generalizing i w u with
  | zero =>
      rw [if_pos fun j h1 h2 => by omega]
      rfl
  | succ n ih =>
      have hpath : entry m (pathTable m pt va i) (pageindex va i) = pathEntry m pt va i := rfl
      rw [walkLevels]
      simp only [hpath]
      by_cases hp : pathEntry m pt va i &&& pteP = 0
      · rw [if_pos hp, if_neg fun h => h i le_rfl (by omega) hp]
        rfl
      · rw [if_neg hp, show i + (n + 1) = i + 1 + n by omega]
        refine (ih (i + 1) _ _).trans (if_congr ⟨fun h j h1 h2 => ?_, fun h j h1 h2 => ?_⟩ rfl rfl)
        · by_cases hj : j = i
          · rwa [hj]
          · exact h j (by omega) (by omega)
        · exact h j (by omega) (by omega)

theorem physical_eq : physical m pt va =
    if Reached m pt va 4 then some (pteAddr (pathEntry m pt va 3) + pageOffset va) else none := by
  refine (walkLevels_path 4 0 true true : (walkLevels m va 4 0 (pathTable m pt va 0) _ _).map _ =
    _).trans (if_congr ⟨fun h j hj => ?_, fun h j _ hj => ?_⟩ rfl rfl)
  · exact h j (Nat.zero_le j) (by omega)
  · exact h j (by omega)

theorem UserWritable.reached (h : UserWritable m pt va) : Reached m pt va 4 := by
  refine reached_succ.mpr ⟨h.1, fun hz => ?_⟩
  have hseven : pathEntry m pt va 3 &&& 7 &&& 1 = 1 := by rw [h.2]; rfl
  rw [Nat.and_assoc] at hseven
  exact absurd (hz.symm.trans hseven) (by norm_num)

theorem UserWritable.physical (h : UserWritable m pt va) :
    physical m pt va = some (pteAddr (pathEntry m pt va 3) + va % 4096) := by
  rw [physical_eq, if_pos h.reached, pageOffset_eq]

/-- The first test of `syscall_mapping`. -/
theorem UpperGranting.userWritable_iff (h : UpperGranting m pt) :
    (virtualMemoryLookup m pt va).perm &&& 6 = 6 ↔ UserWritable m pt va := by
  have hflags (x : ℕ) : x % 4096 &&& 6 = x &&& 6 := (and_flag_split (by norm_num)).symm
  have hsplit (x : ℕ) : x &&& 7 = 7 ↔ x &&& 1 ≠ 0 ∧ x &&& 6 = 6 := by
    have h7 : x &&& 7 = x % 8 := Nat.and_two_pow_sub_one_eq_mod x 3
    have h1 : x &&& 1 = x % 8 &&& 1 := by rw [← h7, Nat.and_assoc]; rfl
    have h6 : x &&& 6 = x % 8 &&& 6 := by rw [← h7, Nat.and_assoc]; rfl
    rw [h7, h1, h6]
    have hlt := Nat.mod_lt x (show 0 < 8 by norm_num)
    generalize x % 8 = y at hlt ⊢
    revert y
    decide
  rw [h.lookup_eq, UserWritable]
  by_cases hr : Reached m pt va 3
  · rw [if_pos hr, and_iff_right hr, hsplit, VaMapping.ofEntry]
    split_ifs with hp
    · rw [pteFlags_eq, hflags]
      exact (and_iff_right hp).symm
    · exact ⟨fun hc => absurd hc (by decide), fun hc => absurd hc.1 hp⟩
  · rw [if_neg hr]
    exact ⟨fun hc => absurd hc (by decide), fun hc => absurd hc.1 hr⟩

theorem UpperGranting.lookup_pa (h : UpperGranting m pt) (hw : UserWritable m pt va) :
    (virtualMemoryLookup m pt va).pa = pteAddr (pathEntry m pt va 3) + va % 4096 := by
  rw [h.lookup_eq, if_pos hw.1, VaMapping.ofEntry, if_pos (hw.reached 3 (by norm_num)),
    pageOffset_eq]

namespace SameTables

variable (h : SameTables m pt m')

include h

theorem entry_eq {i : ℕ} (hi : i ≤ 3) (hr : Reached m pt va i) :
    entry m' (pathTable m pt va i) (pageindex va i) = pathEntry m pt va i := by
  have hlt := pageindex_lt va i
  refine loadLE_congr fun x hx hx' => ?_
  have := h va i (x - pathTable m pt va i) hi hr (by omega)
  rwa [show pathTable m pt va i + (x - pathTable m pt va i) = x by omega] at this

theorem table {i : ℕ} (hi : i ≤ 3) (hr : Reached m pt va i) :
    pathTable m' pt va i = pathTable m pt va i := by
  induction i with
  | zero => rfl
  | succ i ih =>
      have hr' := hr.mono (show i ≤ i + 1 by omega)
      rw [pathTable, ih (by omega) hr', h.entry_eq (by omega) hr']
      rfl

theorem pathEntry_eq {i : ℕ} (hi : i ≤ 3) (hr : Reached m pt va i) :
    pathEntry m' pt va i = pathEntry m pt va i := by
  rw [pathEntry, h.table hi hr, h.entry_eq hi hr]

theorem reached {n : ℕ} (hn : n ≤ 4) : Reached m' pt va n ↔ Reached m pt va n := by
  induction n with
  | zero => exact ⟨fun _ i hi => by omega, fun _ i hi => by omega⟩
  | succ n ih =>
      rw [reached_succ, reached_succ, ih (by omega)]
      exact and_congr_right fun hr => by rw [h.pathEntry_eq (by omega) hr]

theorem granting (hu : UpperGranting m pt) : UpperGranting m' pt := by
  intro va i hi hr
  rw [h.reached (by omega)] at hr
  rw [h.pathEntry_eq (by omega) (hr.mono (by omega))]
  exact hu va i hi hr

theorem lookup (hu : UpperGranting m pt) (va : ℕ) :
    virtualMemoryLookup m' pt va = virtualMemoryLookup m pt va := by
  rw [(h.granting hu).lookup_eq, hu.lookup_eq]
  refine if_ctx_congr (h.reached (by omega)) (fun hr => ?_) fun _ => rfl
  rw [h.pathEntry_eq le_rfl hr]

theorem userWritable (va : ℕ) : UserWritable m' pt va ↔ UserWritable m pt va := by
  unfold UserWritable
  rw [h.reached (by omega)]
  exact and_congr_right fun hr => by rw [h.pathEntry_eq le_rfl hr]

theorem physical_eq (va : ℕ) : physical m' pt va = physical m pt va := by
  rw [WeensyOS.physical_eq, WeensyOS.physical_eq]
  refine if_ctx_congr (h.reached le_rfl) (fun hr => ?_) fun _ => rfl
  rw [h.pathEntry_eq le_rfl (hr.mono (by omega))]

theorem tablesProtected (hprot : TablesProtected m pt) : TablesProtected m' pt := by
  intro va va' i hi hw hr
  rw [h.userWritable] at hw
  rw [h.reached (by omega)] at hr
  rw [h.pathEntry_eq le_rfl hw.1, h.table hi hr]
  exact hprot va va' i hi hw hr

end SameTables

/-- Bytes of user-writable pages are not part of the page table. -/
theorem TablesProtected.sameTables (h : TablesProtected m pt) (hpt : pt % 4096 = 0)
    (hsame : ∀ a, m' a ≠ m a → ∃ va, UserWritable m pt va ∧
      a / 4096 * 4096 = pteAddr (pathEntry m pt va 3)) : SameTables m pt m' := by
  intro va' i x hi hr hx
  by_contra hne
  obtain ⟨va, hw, ha⟩ := hsame _ hne
  have hal : pathTable m pt va' i % 4096 = 0 := pathTable_aligned hpt i
  apply h va va' i hi hw hr
  rw [← ha]
  omega

end walk

section contract
variable (k : Kernel)

/-- The arguments of the call: the buffer and the address to look up. -/
def Kernel.mapArg (k : Kernel) : ℕ := k.currentProc.registers.regRdi.toNat

def Kernel.addrArg (k : Kernel) : ℕ := k.currentProc.registers.regRsi.toNat

/-- The mapping that the call is to store. -/
def answer (k : Kernel) : VaMapping :=
  virtualMemoryLookup k.mem k.currentProc.pagetable k.addrArg

/-- The whole buffer is mapped `P|W|U` in the caller. -/
def BufferWritable : Prop := ∀ i < vamappingSize,
  UserWritable k.mem k.currentProc.pagetable ((k.mapArg + i) % 2 ^ 64)

/-- The call stores the mapping of its second argument into a buffer that the caller may write, and
nothing anywhere else. -/
def MappingHonoured : Prop :=
  (BufferWritable k → ∃ m', syscallMapping k = .ok { k with mem := m' } ∧
    (∀ i < vamappingSize, virtualByte m' k.currentProc.pagetable ((k.mapArg + i) % 2 ^ 64) =
      some ((answer k).byte i)) ∧
    ∀ a, (∀ i < vamappingSize,
      physical k.mem k.currentProc.pagetable ((k.mapArg + i) % 2 ^ 64) ≠ some a) →
      m' a = k.mem a) ∧
  (¬ BufferWritable k → syscallMapping k = .ok k)

/-- The physical address of the first byte of the buffer. -/
def bufferAddr : ℕ := (virtualMemoryLookup k.mem k.currentProc.pagetable k.mapArg).pa

/-- The kernel's test of the end of the buffer: the last physical address is looked up as a virtual
one. -/
def EndPasses : Prop := (virtualMemoryLookup k.mem k.currentProc.pagetable
  ((bufferAddr k + vamappingSize - 1) % 2 ^ 64)).perm &&& (pteW ||| pteP) = pteW ||| pteP

instance : Decidable (EndPasses k) := inferInstanceAs (Decidable (_ = _))

instance : Decidable (BufferWritable k) :=
  inferInstanceAs (Decidable (∀ i < vamappingSize, _))

/-- The kernel after the store at the physical address `a`. -/
def Kernel.storeMapping (k : Kernel) (a : ℕ) : Kernel :=
  { k with mem := (answer k).store k.mem a }

theorem Kernel.storeMapping_apply (k : Kernel) (a x : ℕ) : (k.storeMapping a).mem x =
    if a ≤ x ∧ x < a + 24 then (answer k).byte (x - a) else k.mem x :=
  VaMapping.store_apply k.mem a _ x

/-- When the first byte of the buffer is writable, the test of its end has the right outcome, and a
buffer that passes is contiguous in physical memory. -/
def MappingServed : Prop := UserWritable k.mem k.currentProc.pagetable k.mapArg →
  (BufferWritable k ∧ EndPasses k ∧ bufferAddr k + vamappingSize ≤ memsizePhysical ∧
    ∀ i < vamappingSize, physical k.mem k.currentProc.pagetable ((k.mapArg + i) % 2 ^ 64) =
      some (bufferAddr k + i)) ∨
  (¬ BufferWritable k ∧ ¬ EndPasses k)

end contract

section contract
variable {k : Kernel}

theorem mapArg_zero (k : Kernel) : (k.mapArg + 0) % 2 ^ 64 = k.mapArg :=
  Nat.mod_eq_of_lt (BitVec.isLt _)

theorem BufferWritable.first (h : BufferWritable k) :
    UserWritable k.mem k.currentProc.pagetable k.mapArg := by
  have := h 0 (by norm_num)
  rwa [mapArg_zero] at this

/-- The four ways out of `syscall_mapping`. -/
theorem syscallMapping_cases (hu : UpperGranting k.mem k.currentProc.pagetable) :
    syscallMapping k =
      if UserWritable k.mem k.currentProc.pagetable k.mapArg ∧ EndPasses k then
        if bufferAddr k + vamappingSize > memsizePhysical then .error .kernelPageFault
        else .ok (k.storeMapping (bufferAddr k))
      else .ok k := by
  have hstep : syscallMapping k =
      if (virtualMemoryLookup k.mem k.currentProc.pagetable k.mapArg).perm &&& 6 ≠ 6 then .ok k
      else if ¬ EndPasses k then .ok k
      else if bufferAddr k + vamappingSize > memsizePhysical then .error .kernelPageFault
      else .ok (k.storeMapping (bufferAddr k)) := rfl
  rw [hstep]
  by_cases hw : UserWritable k.mem k.currentProc.pagetable k.mapArg
  · rw [if_neg (not_not.mpr (hu.userWritable_iff.mpr hw))]
    by_cases he : EndPasses k
    · rw [if_neg (not_not.mpr he)]
      exact (if_pos (And.intro hw he)).symm
    · rw [if_pos he, if_neg fun hc => he hc.2]
  · rw [if_pos fun hc => hw (hu.userWritable_iff.mp hc), if_neg fun hc => hw hc.1]

/-- Another state with the same caller, registers included, and the same page table. -/
structure SameCaller (k k' : Kernel) : Prop where
  proc : k'.currentProc = k.currentProc
  tables : SameTables k.mem k.currentProc.pagetable k'.mem

namespace SameCaller

variable {k' : Kernel} (h : SameCaller k k')

include h

theorem mapArg : k'.mapArg = k.mapArg := by
  rw [Kernel.mapArg, h.proc]
  rfl

theorem userWritable (va : ℕ) : UserWritable k'.mem k'.currentProc.pagetable va ↔
    UserWritable k.mem k.currentProc.pagetable va := by
  rw [h.proc, h.tables.userWritable]

theorem physical_eq (va : ℕ) : physical k'.mem k'.currentProc.pagetable va =
    physical k.mem k.currentProc.pagetable va := by
  rw [h.proc, h.tables.physical_eq]

theorem bufferWritable : BufferWritable k' ↔ BufferWritable k := by
  refine forall₂_congr fun i _ => ?_
  rw [h.mapArg, h.userWritable]

variable (hu : UpperGranting k.mem k.currentProc.pagetable)

include hu

theorem granting : UpperGranting k'.mem k'.currentProc.pagetable := by
  rw [h.proc]
  exact h.tables.granting hu

theorem lookup (va : ℕ) : virtualMemoryLookup k'.mem k'.currentProc.pagetable va =
    virtualMemoryLookup k.mem k.currentProc.pagetable va := by
  rw [h.proc, h.tables.lookup hu]

theorem bufferAddr_eq : bufferAddr k' = bufferAddr k := by
  rw [bufferAddr, h.lookup hu, h.mapArg]
  rfl

theorem endPasses : EndPasses k' ↔ EndPasses k := by
  rw [EndPasses, h.lookup hu, h.bufferAddr_eq hu]
  rfl

theorem answer_eq : answer k' = answer k := by
  rw [answer, h.lookup hu, Kernel.addrArg, h.proc]
  rfl

theorem served (hs : MappingServed k) : MappingServed k' := by
  intro hw
  rw [h.mapArg, h.userWritable] at hw
  rw [h.bufferWritable, h.endPasses hu, h.bufferAddr_eq hu]
  refine (hs hw).imp_left fun hc => ⟨hc.1, hc.2.1, hc.2.2.1, fun i hi => ?_⟩
  rw [h.mapArg, h.physical_eq]
  exact hc.2.2.2 i hi

end SameCaller

variable (hu : UpperGranting k.mem k.currentProc.pagetable)
  (hpt : k.currentProc.pagetable % 4096 = 0)
  (hprot : TablesProtected k.mem k.currentProc.pagetable)

theorem UserWritable.page {m : Memory} {pt va a : ℕ} (hw : UserWritable m pt va)
    (ha : WeensyOS.physical m pt va = some a) :
    a / 4096 * 4096 = pteAddr (pathEntry m pt va 3) := by
  have hal : pteAddr (pathEntry m pt va 3) = pathEntry m pt va 3 / 4096 * 4096 :=
    pteAddr_eq (pathEntry_lt m pt va 3)
  have := Option.some.inj (hw.physical.symm.trans ha)
  omega

include hpt hprot in
/-- A store to the images of the buffer leaves the page table as it is. -/
theorem BufferWritable.sameTables (hb : BufferWritable k) {m' : Memory}
    (hframe : ∀ a, (∀ i < vamappingSize,
      physical k.mem k.currentProc.pagetable ((k.mapArg + i) % 2 ^ 64) ≠ some a) →
      m' a = k.mem a) : SameTables k.mem k.currentProc.pagetable m' := by
  refine hprot.sameTables hpt fun a hne => ?_
  by_contra hno
  apply hne
  refine hframe a fun i hi hphys => hno ?_
  exact ⟨_, hb i hi, (hb i hi).page hphys⟩

include hu hpt hprot in
theorem MappingServed.honoured (h : MappingServed k) : MappingHonoured k := by
  refine ⟨fun hb => ?_, fun hb => ?_⟩
  · obtain ⟨-, he, hfit, hcont⟩ | ⟨hnb, -⟩ := h hb.first
    · have hstep : syscallMapping k = .ok (k.storeMapping (bufferAddr k)) := by
        rw [syscallMapping_cases hu, if_pos ⟨hb.first, he⟩, if_neg (by omega)]
      have hframe : ∀ a, (∀ i < vamappingSize,
          physical k.mem k.currentProc.pagetable ((k.mapArg + i) % 2 ^ 64) ≠ some a) →
          (k.storeMapping (bufferAddr k)).mem a = k.mem a := by
        intro a ha
        refine (k.storeMapping_apply _ _).trans (if_neg fun hc => ?_)
        apply ha (a - bufferAddr k) (by simp only [vamappingSize]; omega)
        rw [hcont _ (by simp only [vamappingSize]; omega), Nat.add_sub_cancel' hc.1]
      refine ⟨_, hstep, fun i hi => ?_, hframe⟩
      have hsame := hb.sameTables hpt hprot hframe
      have hphys := (hsame.physical_eq ((k.mapArg + i) % 2 ^ 64)).trans (hcont i hi)
      have hi' : i < 24 := hi
      refine (congrArg (Option.map _) hphys).trans (congrArg some ?_)
      exact (k.storeMapping_apply _ _).trans
        (by rw [if_pos ⟨by omega, by omega⟩, Nat.add_sub_cancel_left])
    · exact absurd hb hnb
  · rw [syscallMapping_cases hu, if_neg]
    rintro ⟨hw, he⟩
    obtain ⟨hc, -⟩ | ⟨-, hc⟩ := h hw
    · exact hb hc
    · exact hc he

include hpt hprot in
theorem UserWritable.sameTables_update {va a : ℕ} (x : UInt8)
    (hw : UserWritable k.mem k.currentProc.pagetable va)
    (ha : WeensyOS.physical k.mem k.currentProc.pagetable va = some a) :
    SameTables k.mem k.currentProc.pagetable (Function.update k.mem a x) := by
  refine hprot.sameTables hpt fun a' hne => ?_
  have : a' = a := by
    by_contra hc
    exact hne (Function.update_of_ne hc _ _)
  exact ⟨va, hw, this ▸ hw.page ha⟩

theorem first_physical (hu : UpperGranting k.mem k.currentProc.pagetable)
    (hw : UserWritable k.mem k.currentProc.pagetable k.mapArg) :
    physical k.mem k.currentProc.pagetable k.mapArg = some (bufferAddr k) := by
  rw [hw.physical, bufferAddr, hu.lookup_pa hw]

namespace MappingHonoured

variable (h : MappingHonoured k)

include hu h

/-- A call that honours a writable buffer has passed both tests. -/
theorem passes (hb : BufferWritable k) (hbyte : k.mem (bufferAddr k) ≠ (answer k).byte 0) :
    EndPasses k ∧ bufferAddr k + vamappingSize ≤ memsizePhysical := by
  obtain ⟨m₁, hstep, hread, -⟩ := h.1 hb
  rw [syscallMapping_cases hu] at hstep
  by_cases he : EndPasses k
  · refine ⟨he, ?_⟩
    by_contra hfit
    rw [if_pos ⟨hb.first, he⟩, if_pos (by omega)] at hstep
    cases hstep
  · rw [if_neg fun hc => he hc.2] at hstep
    have hm : k.mem = m₁ := congrArg Kernel.mem (Except.ok.inj hstep)
    have hzero := hread 0 (by norm_num)
    rw [← hm, mapArg_zero, virtualByte, first_physical hu hb.first] at hzero
    exact absurd (Option.some.inj hzero) hbyte

/-- It stores each byte where the caller reads it. -/
theorem contiguous (hb : BufferWritable k) (he : EndPasses k)
    (hfit : bufferAddr k + vamappingSize ≤ memsizePhysical) {i b : ℕ} (hi : i < vamappingSize)
    (hphys : physical k.mem k.currentProc.pagetable ((k.mapArg + i) % 2 ^ 64) = some b)
    (hbyte : k.mem b ≠ (answer k).byte i) (hpt : k.currentProc.pagetable % 4096 = 0)
    (hprot : TablesProtected k.mem k.currentProc.pagetable) : b = bufferAddr k + i := by
  obtain ⟨m₁, hstep, hread, hframe⟩ := h.1 hb
  rw [syscallMapping_cases hu, if_pos ⟨hb.first, he⟩, if_neg (by omega)] at hstep
  have hm : (k.storeMapping (bufferAddr k)).mem = m₁ := congrArg Kernel.mem (Except.ok.inj hstep)
  have hsame := hb.sameTables hpt hprot hframe
  have hval : m₁ b = (answer k).byte i := by
    have := hread i hi
    rw [virtualByte, hsame.physical_eq, hphys] at this
    exact Option.some.inj this
  rw [← hm, k.storeMapping_apply] at hval
  split_ifs at hval with hin
  · have hb0 := (hb i hi).physical.symm.trans hphys
    have hb1 := hb.first.physical.symm.trans (first_physical hu hb.first)
    have hoff := Option.some.inj hb0
    have hoff' := Option.some.inj hb1
    have hal (va : ℕ) : pteAddr (pathEntry k.mem k.currentProc.pagetable va 3) % 4096 = 0 := by
      rw [pteAddr_eq (pathEntry_lt _ _ _ _)]
      omega
    have h1 := hal ((k.mapArg + i) % 2 ^ 64)
    have h2 := hal k.mapArg
    have hi' : i < 24 := hi
    omega
  · exact absurd hval hbyte

/-- It fails a test when the buffer is not writable as a whole. -/
theorem fails (hw : UserWritable k.mem k.currentProc.pagetable k.mapArg)
    (hb : ¬ BufferWritable k) (hbyte : k.mem (bufferAddr k) ≠ (answer k).byte 0) :
    ¬ EndPasses k := by
  intro he
  have hstep := h.2 hb
  rw [syscallMapping_cases hu, if_pos ⟨hw, he⟩] at hstep
  split_ifs at hstep with hfit
  have hm : (k.storeMapping (bufferAddr k)).mem = k.mem := congrArg Kernel.mem (Except.ok.inj hstep)
  apply hbyte
  rw [← hm, k.storeMapping_apply, if_pos ⟨le_rfl, by omega⟩, Nat.sub_self]

end MappingHonoured

include hpt hprot in
/-- The byte at an image of the buffer may be any. -/
theorem exists_differing {va a : ℕ} (hw : UserWritable k.mem k.currentProc.pagetable va)
    (ha : physical k.mem k.currentProc.pagetable va = some a) (x : UInt8) :
    ∃ k', SameCaller k k' ∧ k'.mem a ≠ x := by
  refine ⟨{ k with mem := Function.update k.mem a (x + 1) },
    ⟨rfl, hw.sameTables_update hpt hprot (x + 1) ha⟩, fun hc => ?_⟩
  have hx : x + 1 = x := (Function.update_self a (x + 1) k.mem).symm.trans hc
  have hnat := congrArg UInt8.toNat hx
  have hlt := x.toNat_lt
  rw [UInt8.toNat_add, UInt8.toNat_one] at hnat
  omega

end contract

/-! A caller with a single leaf table. -/

/-- The leaf table of `chainTable 0` with the entries `l`. -/
def chainLeaves (l : List (ℕ × ℕ)) : Memory :=
  l.foldr (fun e m => setEntry m 0x4000 e.1 e.2) (chainTable 0)

/-- Entries that fit, for pages behind the tables. -/
def LeafEntries (l : List (ℕ × ℕ)) : Prop :=
  ∀ e ∈ l, e.1 < 512 ∧ e.2 < 2 ^ 64 ∧ 0x4000 < pteAddr e.2

instance (l : List (ℕ × ℕ)) : Decidable (LeafEntries l) :=
  inferInstanceAs (Decidable (∀ e ∈ l, _))

def mappingKernel (l : List (ℕ × ℕ)) (map addr : BitVec 64) : Kernel where
  mem := chainLeaves l
  pageinfo := fun _ => ⟨0, 0⟩
  processes := fun _ =>
    ⟨1, { Registers.ofWords [] with regRdi := map, regRsi := addr }, .runnable, 0x1000, false⟩
  current := 1
  ticks := 0
  dispGlobal := true
  lastTicks := 0
  showing := 0

theorem mappingKernel_aligned (l : List (ℕ × ℕ)) (map addr : BitVec 64) :
    (mappingKernel l map addr).currentProc.pagetable % 4096 = 0 :=
  Nat.mod_self 4096

namespace LeafEntries

variable {l : List (ℕ × ℕ)} (h : LeafEntries l)

include h

theorem entry_upper {t i : ℕ} (ht : t ≠ 4) (hi : i < 512) :
    entry (chainLeaves l) (t * 4096) i = entry (chainTable 0) (t * 4096) i := by
  induction l with
  | nil => rfl
  | cons e l ih =>
      obtain ⟨h1, h2, -⟩ := h e (by simp)
      rw [chainLeaves, List.foldr_cons, show (0x4000 : ℕ) = 4 * 4096 from rfl,
        entry_setEntry _ _ _ h1 hi h2, if_neg fun hc => ht hc.1]
      exact ih fun e' he' => h e' (by simp [he'])

theorem entry_leaf {i : ℕ} (hi : i < 512) : entry (chainLeaves l) (4 * 4096) i = 0 ∨
    0x4000 < pteAddr (entry (chainLeaves l) (4 * 4096) i) := by
  induction l with
  | nil =>
      left
      exact (entry_chainTable (by norm_num) hi).trans (if_neg (by omega))
  | cons e l ih =>
      obtain ⟨h1, h2, h3⟩ := h e (by simp)
      rw [chainLeaves, List.foldr_cons, show (0x4000 : ℕ) = 4 * 4096 from rfl,
        entry_setEntry _ _ _ h1 hi h2]
      split_ifs
      · exact .inr h3
      · exact ih fun e' he' => h e' (by simp [he'])

theorem sameUpper : SameUpper (chainTable 0) (chainLeaves l) 0x1000 := by
  have hpath (va i : ℕ) (hi : i ≤ 3) (hr : Reached (chainTable 0) 0x1000 va i) :
      pathTable (chainLeaves l) 0x1000 va i = pathTable (chainTable 0) 0x1000 va i := by
    induction i with
    | zero => rfl
    | succ i ih =>
        have hr' := hr.mono (show i ≤ i + 1 by omega)
        rw [pathTable, pathTable, ih (by omega) hr',
          (reached_chainTable (by norm_num) (by omega) hr').1,
          h.entry_upper (by omega) (pageindex_lt va i)]
  intro va i hi hr
  rw [pathEntry, pathEntry, hpath va i (by omega) hr,
    (reached_chainTable (by norm_num) (by omega) hr).1,
    h.entry_upper (by omega) (pageindex_lt va i)]

theorem granting : UpperGranting (chainLeaves l) 0x1000 :=
  (h.sameUpper.upperOpen (chainTable_open (by norm_num))).granting

theorem tablesProtected : TablesProtected (chainLeaves l) 0x1000 := by
  intro va va' i hi hw hr heq
  have htab {x n : ℕ} (hn : n ≤ 3) (hx : Reached (chainLeaves l) 0x1000 x n) :
      pathTable (chainLeaves l) 0x1000 x n = (n + 1) * 4096 := by
    rw [h.sameUpper.reached hn] at hx
    rw [h.sameUpper.table hn hx]
    exact (reached_chainTable (by norm_num) hn hx).1
  have hentry : pathEntry (chainLeaves l) 0x1000 va 3 =
      entry (chainLeaves l) (4 * 4096) (pageindex va 3) := by
    rw [pathEntry, htab le_rfl hw.1]
  rw [htab hi hr] at heq
  have hseven := hw.2
  rw [hentry] at heq hseven
  rcases h.entry_leaf (pageindex_lt va 3) with hz | hlt
  · rw [hz] at hseven
    exact absurd hseven (by decide)
  · omega

theorem mappingKernel_granting (map addr : BitVec 64) :
    UpperGranting (mappingKernel l map addr).mem
      (mappingKernel l map addr).currentProc.pagetable := h.granting

theorem mappingKernel_protected (map addr : BitVec 64) :
    TablesProtected (mappingKernel l map addr).mem
      (mappingKernel l map addr).currentProc.pagetable := h.tablesProtected

end LeafEntries

/-- A buffer within a page whose frame is also mapped at its own address. -/
theorem bufferWritable_sample :
    BufferWritable (mappingKernel [(0x100, 0x8007), (8, 0x8003)] 0x100010 0x100000) := by
  decide +kernel

theorem mappingServed_sample :
    MappingServed (mappingKernel [(0x100, 0x8007), (8, 0x8003)] 0x100010 0x100000) := by
  intro _
  left
  refine ⟨bufferWritable_sample, by decide +kernel, by decide +kernel, ?_⟩
  decide +kernel

end WeensyOS
