import WeensyOS.World

/-!
# Page tables represent the ledger

`MemSim` relates physical memory to a `World`: the kernel's page table is the one that `kernel()`
set up, and every live process has a five-page tree whose leaves are what the ledger says. `Sim`
adds the rest of the kernel state. The lemmas here are the two ways in which memory changes without
leaving the relation: a write to a page that is no table, and a new leaf entry.
-/

namespace WeensyOS
open ByteMemory

section layout
variable (L : KernelLayout)

/-- The pages of `kernel_pagetables`. -/
def KernelLayout.tables (j : Fin 5) : ℕ := L.kernelPagetables / 4096 + j

theorem KernelLayout.tables_zero : L.tables 0 * 4096 = L.kernelPagetables := by
  have := L.pagetables_aligned
  simp only [KernelLayout.tables, Fin.val_zero]
  omega

theorem KernelLayout.tables_range (j : Fin 5) :
    64 ≤ L.tables j ∧ L.tables j < 127 ∧ L.tables j * 4096 < L.endAddr := by
  have h1 := L.pagetables_aligned
  have h2 := L.pagetables_lo
  have h3 := L.pagetables_hi
  have h4 := L.end_le
  have hj := j.isLt
  unfold KernelLayout.tables
  omega

theorem initialOwner_eq (pn : ℕ) : initialOwner L (pageAddress pn) =
    if pn = 0 ∨ 160 ≤ pn ∧ pn < 256 then -1
    else if (64 ≤ pn ∧ pn * 4096 < L.endAddr) ∨ pn = 127 then -2 else 0 := by
  unfold initialOwner physicalMemoryIsreserved
  rw [pageAddress_eq]
  simp only [poReserved, poKernel, poFree, kernelStartAddr, kernelStackTop, pageSize]
  congr 1
  · apply propext
    omega
  · congr 1
    apply propext
    omega

theorem usable_iff (pn : ℕ) : usable L pn ↔ pn < 512 ∧ pn ≠ 0 ∧ ¬ (160 ≤ pn ∧ pn < 256) ∧
    ¬ (64 ≤ pn ∧ pn * 4096 < L.endAddr) ∧ pn ≠ 127 := by
  unfold usable
  rw [initialOwner_eq]
  simp only [poFree]
  split_ifs with h1 h2
  · simp only [and_false, false_iff]
    omega
  · simp only [and_false, false_iff]
    omega
  · simp only [and_true]
    omega

variable {L}

theorem usable.lt {pn : ℕ} (h : usable L pn) : pn < 512 := h.1

theorem usable.pos {pn : ℕ} (h : usable L pn) : 0 < pn := by
  have := ((usable_iff L pn).mp h).2.1
  omega

theorem not_usable_tables (j : Fin 5) : ¬ usable L (L.tables j) := by
  have := L.tables_range j
  rw [usable_iff]
  omega

theorem not_usable_console : ¬ usable L consolePage := by
  rw [usable_iff]
  simp

theorem not_usable_zero : ¬ usable L 0 := by
  rw [usable_iff]
  simp

theorem pageinfoInit_usable {pn : ℕ} (h : usable L pn) : pageinfoInit L pn = ⟨0, 0⟩ := by
  simp [pageinfoInit, h.2]

theorem pageinfoInit_refcount {pn : ℕ} (hlt : pn < 512) (h : ¬ usable L pn) :
    (pageinfoInit L pn).refcount = 1 := by
  have hne : initialOwner L (pageAddress pn) ≠ poFree := fun he => h ⟨hlt, he⟩
  simp [pageinfoInit, hne]

theorem pageinfoInit_owner {pn : ℕ} (hlt : pn < 512) (h : ¬ usable L pn) :
    (pageinfoInit L pn).owner < 0 := by
  have hne : initialOwner L (pageAddress pn) ≠ 0 := fun he => h ⟨hlt, he⟩
  simp only [pageinfoInit]
  rw [initialOwner_eq] at hne ⊢
  split_ifs at hne ⊢ <;> omega

theorem pageinfoInit_tables (j : Fin 5) : pageinfoInit L (L.tables j) = ⟨-2, 1⟩ := by
  have hr := L.tables_range j
  have howner : initialOwner L (pageAddress (L.tables j)) = -2 := by
    rw [initialOwner_eq, if_neg (by omega), if_pos (by omega)]
  simp [pageinfoInit, howner]

end layout

/-- The kernel's own leaf entries: user access above `PROC_START_ADDR` is left from the start. -/
def kernelOwnLeaf (i : ℕ) : ℕ :=
  if i < 256 then kernelLeaf i else if i < 512 then i * 4096 + 7 else 0

structure MemSim (L : KernelLayout) (m : Memory) (w : World) (pt : ℕ → ℕ) : Prop where
  kernel : Tree m L.tables kernelOwnLeaf
  root : ∀ p, w.Live p → pt p = w.frames p 0 * 4096
  tree : ∀ p, w.Live p → Tree m (w.frames p) (w.leaf p)

structure Sim (L : KernelLayout) (k : Kernel) (w : World) : Prop where
  info : k.pageinfo = w.info
  state : k.states = w.state
  pid : ∀ p, (k.processes p).pid = p
  current : k.current = w.current
  mem : MemSim L k.mem w (fun p => (k.processes p).pagetable)

theorem Sim.live {L : KernelLayout} {k : Kernel} {w : World} (h : Sim L k w) (p : ℕ) :
    k.Live p ↔ w.Live p := by
  rw [World.Live, ← h.state]
  rfl

namespace World

theorem frames_hold_page (w : World) (p i q : ℕ) (r : Option Ref) :
    (w.hold p (.page i) r).frames q = w.frames q := by
  funext j
  simp [frames, hold]

theorem leaf_hold_page (w : World) (p q : ℕ) {i : ℕ} (hi : 256 ≤ i) (r : Option Ref) :
    (w.hold p (.page i) r).leaf q =
      if q = p then Function.update (w.leaf p) i (Ref.entry r) else w.leaf q := by
  funext x
  by_cases hq : q = p
  · subst q
    rw [if_pos rfl]
    by_cases hx : x = i
    · subst x
      rw [Function.update_self, leaf, if_neg (by omega)]
      simp [hold]
    · rw [Function.update_of_ne hx, leaf, leaf]
      simp [hold, hx]
  · rw [if_neg hq, leaf, leaf]
    simp [hold, hq]

theorem Wf.frames_usable {L : KernelLayout} {w : World} (h : Wf L w) {p : ℕ} (hp : w.Live p)
    (j : Fin 5) : usable L (w.frames p j) :=
  h.table_usable p j _ (h.tables p hp j)

theorem Wf.frames_inj {L : KernelLayout} {w : World} (h : Wf L w) {p q : ℕ} {j j' : Fin 5}
    (hp : w.Live p) (hq : w.Live q) (heq : w.frames p j = w.frames q j') : p = q ∧ j = j' :=
  h.table_inj p j q j' _ _ (h.tables p hp j) (h.tables q hq j') heq

theorem Wf.frames_ne_kernel {L : KernelLayout} {w : World} (h : Wf L w) {p : ℕ} (hp : w.Live p)
    (j j' : Fin 5) : w.frames p j ≠ L.tables j' :=
  fun heq => not_usable_tables j' (heq ▸ h.frames_usable hp j)

end World

namespace MemSim

variable {L : KernelLayout} {m m' : Memory} {w w' : World} {pt : ℕ → ℕ}

/-- Writing to pages that are no tables. -/
theorem frame (h : MemSim L m w pt) {P : ℕ → Prop} (ha : AgreeOff 4096 P m m')
    (hk : ∀ j, ¬ P (L.tables j)) (hp : ∀ p, w.Live p → ∀ j, ¬ P (w.frames p j)) :
    MemSim L m' w pt :=
  ⟨h.kernel.frame ha hk, h.root, fun p hl => (h.tree p hl).frame ha (hp p hl)⟩

/-- Memory represents what is held, whatever the counts say. -/
theorem of_held (h : MemSim L m w pt) (hs : w'.state = w.state) (hh : w'.held = w.held) :
    MemSim L m w' pt := by
  have hframes (p : ℕ) : w'.frames p = w.frames p := by
    funext j
    rw [World.frames, World.frames, hh]
  have hleaf (p : ℕ) : w'.leaf p = w.leaf p := by
    funext i
    rw [World.leaf, World.leaf, hh]
  refine ⟨h.kernel, fun p hp => ?_, fun p hp => ?_⟩
  · rw [World.Live, hs] at hp
    rw [hframes]
    exact h.root p hp
  · rw [World.Live, hs] at hp
    rw [hframes, hleaf]
    exact h.tree p hp

/-- A new leaf entry in the table of `p`. -/
theorem setLeaf (h : MemSim L m w pt) (hw : w.Wf L) {p i : ℕ} (hp : w.Live p) (hi : 256 ≤ i)
    (hi' : i < 1024) {r : Option Ref} (hr : Ref.entry r < 2 ^ 64) :
    MemSim L (setEntry m (leafTable (w.frames p) i * 4096) (i % 512) (Ref.entry r))
      (w.hold p (.page i) r) pt := by
  obtain ⟨j, hj⟩ := leafTable_mem (w.frames p) i
  have hagree := Tree.agreeOff_setLeaf m (w.frames p) i (Ref.entry r)
  refine ⟨h.kernel.frame hagree fun j' => ?_, fun q hq => ?_, fun q hq => ?_⟩
  · rw [hj]
    exact Ne.symm (hw.frames_ne_kernel hp j j')
  · rw [World.frames_hold_page]
    exact h.root q hq
  · rw [World.frames_hold_page, World.leaf_hold_page w p q hi]
    split_ifs with hqp
    · subst q
      exact (h.tree p hp).setLeaf hi' hr
    · refine (h.tree q hq).frame hagree fun j' heq => hqp ?_
      rw [hj] at heq
      exact (hw.frames_inj hq hp heq).1

end MemSim

namespace Ref

/-- The permissions of a user page. -/
def perm : Option Ref → ℕ
  | none => 0
  | some r => if r.writable then 7 else 5

/-- What `virtual_memory_lookup` reports for the first byte of a user page. -/
def mapping : Option Ref → VaMapping
  | none => VaMapping.unmapped
  | some r => ⟨r.frame, r.frame * 4096, perm (some r)⟩

theorem entry_some (r : Ref) : Ref.entry (some r) = r.frame * 4096 + perm (some r) := rfl

theorem perm_lt (r : Option Ref) : perm r < 8 := by
  unfold perm
  split
  · norm_num
  · split_ifs <;> norm_num

theorem entry_and_present (r : Option Ref) : Ref.entry r &&& pteP = 0 ↔ r = none := by
  cases r with
  | none => simp [Ref.entry]
  | some r =>
      have hp := perm_lt (some r)
      rw [entry_some, frame_and_flag (by omega) (by norm_num)]
      unfold perm
      simp only
      split_ifs <;> simp

theorem perm_and_write (r : Option Ref) :
    perm r &&& pteW ≠ 0 ↔ ∃ pn, r = some ⟨pn, true⟩ := by
  rcases r with _ | ⟨pn, b⟩
  · simp [perm]
  · cases b <;> simp [perm]

end Ref

/-- A present entry with a small frame number, as a lookup reports it. -/
theorem VaMapping.ofEntry_frame {t f i : ℕ} (ht : t < 512) (hf : f < 4096) (hp : f &&& 1 ≠ 0) :
    VaMapping.ofEntry (t * 4096 + f) (i * 4096) = ⟨t, t * 4096, f⟩ := by
  have hpres : (t * 4096 + f) &&& pteP ≠ 0 := by
    rw [frame_and_flag hf (by norm_num)]
    exact hp
  rw [VaMapping.ofEntry, if_pos hpres, pageNumber_eq (by omega), pteAddr_frame (by omega) hf,
    pageOffset_eq, pteFlags_eq, frame_div hf, frame_mod hf]
  simp

theorem VaMapping.ofEntry_ref {r : Option Ref} (h : ∀ r', r = some r' → r'.frame < 512) (i : ℕ) :
    VaMapping.ofEntry (Ref.entry r) (i * 4096) = Ref.mapping r := by
  cases r with
  | none => simp [VaMapping.ofEntry, Ref.entry, Ref.mapping]
  | some r =>
      rw [Ref.entry_some, VaMapping.ofEntry_frame (h r rfl)
        (by have := Ref.perm_lt (some r); omega)]
      · rfl
      · have := Ref.entry_and_present (some r)
        rw [Ref.entry_some, frame_and_flag (by have := Ref.perm_lt (some r); omega)
          (by norm_num)] at this
        simpa using this

theorem VaMapping.ofEntry_kernelLeaf {i : ℕ} (hi : i < 256) :
    VaMapping.ofEntry (kernelLeaf i) (i * 4096) = ⟨i, i * 4096, kernelPerm i⟩ :=
  VaMapping.ofEntry_frame (by omega) (by have := kernelPerm_lt i; omega) (kernelPerm_present i)

theorem Translation.ofEntry_ref {r : Ref} (hr : r.frame < 512) (va : ℕ) :
    Translation.ofEntry (Ref.entry (some r)) va =
      some ⟨r.frame * 4096 + va % 4096, r.writable, true⟩ := by
  have hlt := Ref.perm_lt (some r)
  have hp := (Ref.entry_and_present (some r)).not.mpr (by simp)
  have hflag (f : ℕ) (hf : f < 4096) : Ref.entry (some r) &&& f = Ref.perm (some r) &&& f := by
    rw [Ref.entry_some, frame_and_flag (by omega) hf]
  rw [Translation.ofEntry, if_pos hp, hflag pteW (by norm_num), hflag pteU (by norm_num),
    Ref.entry_some, pteAddr_frame (by omega) (by omega), pageOffset_eq]
  cases hw : r.writable <;> simp [Ref.perm, hw]

theorem Translation.ofEntry_kernelLeaf {va : ℕ} (hva : va < 0x100000) :
    Translation.ofEntry (kernelLeaf (va / 4096)) va =
      some ⟨va, true, decide (va / 4096 = 0xB8)⟩ := by
  have hlt := kernelPerm_lt (va / 4096)
  have hflag (f : ℕ) (hf : f < 4096) :
      kernelLeaf (va / 4096) &&& f = kernelPerm (va / 4096) &&& f := by
    rw [kernelLeaf, frame_and_flag (by omega) hf]
  have hp : kernelLeaf (va / 4096) &&& pteP ≠ 0 := by
    rw [hflag pteP (by norm_num)]
    exact kernelPerm_present _
  rw [Translation.ofEntry, if_pos hp, hflag pteW (by norm_num), hflag pteU (by norm_num),
    kernelLeaf, pteAddr_frame (by omega) (by omega), pageOffset_eq,
    show va / 4096 * 4096 + va % 4096 = va by omega]
  unfold kernelPerm
  split_ifs with hc <;> simp [hc]

theorem World.Wf.frame_lt {L : KernelLayout} {w : World} (h : w.Wf L) {p i : ℕ} {r : Ref}
    (hr : w.held (p, .page i) = some r) : r.frame < 512 := by
  rcases h.page_frame p i r hr with hu | ⟨h0, -⟩
  · exact hu.lt
  · omega

theorem Tree.lookup_page {m : Memory} {T : Fin 5 → ℕ} {leaf : ℕ → ℕ} (h : Tree m T leaf) {i : ℕ}
    (hi : i < 1024) :
    virtualMemoryLookup m (T 0 * 4096) (i * 4096) = VaMapping.ofEntry (leaf i) (i * 4096) := by
  rw [h.lookup_eq, if_pos (by unfold inTree; omega), show i * 4096 / 4096 % 1024 = i by omega]

namespace MemSim

variable {L : KernelLayout} {m m' : Memory} {w w' : World} {pt : ℕ → ℕ}

theorem lookup_user (h : MemSim L m w pt) (hw : w.Wf L) {p i : ℕ} (hp : w.Live p) (hi : 256 ≤ i)
    (hi' : i < 1024) :
    virtualMemoryLookup m (pt p) (i * 4096) = Ref.mapping (w.held (p, .page i)) := by
  rw [h.root p hp, (h.tree p hp).lookup_page hi', World.leaf, if_neg (by omega),
    VaMapping.ofEntry_ref (fun r' hr => hw.frame_lt hr)]

/-- The processor's translation of the addresses above `PROC_START_ADDR` that have a leaf table. -/
theorem walk_user (h : MemSim L m w pt) (hw : w.Wf L) {p va : ℕ} (hp : w.Live p)
    (hva : 0x100000 ≤ va) (hva' : va < 0x400000) :
    walk m (pt p) va = (w.held (p, .page (va / 4096))).map
      (fun r => ⟨r.frame * 4096 + va % 4096, r.writable, true⟩) := by
  rw [h.root p hp, (h.tree p hp).walk_eq, if_pos (by unfold inTree; omega),
    show va / 4096 % 1024 = va / 4096 by omega, World.leaf, if_neg (by omega)]
  cases hr : w.held (p, .page (va / 4096)) with
  | none => rfl
  | some r => exact Translation.ofEntry_ref (hw.frame_lt hr) va

theorem walk_kernel (h : MemSim L m w pt) {p va : ℕ} (hp : w.Live p) (hva : va < 0x100000) :
    walk m (pt p) va = some ⟨va, true, decide (va / 4096 = 0xB8)⟩ := by
  rw [h.root p hp, (h.tree p hp).walk_eq, if_pos (by unfold inTree; omega),
    show va / 4096 % 1024 = va / 4096 by omega, World.leaf, if_pos (by omega)]
  exact Translation.ofEntry_kernelLeaf hva

theorem walk_outside (h : MemSim L m w pt) {p va : ℕ} (hp : w.Live p) (hva : 0x400000 ≤ va)
    (hva' : va < 2 ^ 48) : walk m (pt p) va = none := by
  rw [h.root p hp, (h.tree p hp).walk_eq, if_neg (by unfold inTree; omega)]

/-- What user code can reach: the console, and the pages of its process. -/
theorem walk_cases (h : MemSim L m w pt) (hw : w.Wf L) {p va : ℕ} (hp : w.Live p)
    (hva : va < 2 ^ 48)
    {t : Translation} (hwalk : walk m (pt p) va = some t) (huser : t.user = true) :
    (va < 0x100000 ∧ t.pa = va ∧ va / 4096 = consolePage) ∨
      0x100000 ≤ va ∧ va < 0x400000 ∧ ∃ r, w.held (p, .page (va / 4096)) = some r ∧
        t = ⟨r.frame * 4096 + va % 4096, r.writable, true⟩ := by
  by_cases hlow : va < 0x100000
  · rw [h.walk_kernel hp hlow] at hwalk
    obtain rfl := Option.some.inj hwalk
    exact Or.inl ⟨hlow, rfl, of_decide_eq_true huser⟩
  · by_cases htop : va < 0x400000
    · rw [h.walk_user hw hp (by omega) htop, Option.map_eq_some_iff] at hwalk
      obtain ⟨r, hr, rfl⟩ := hwalk
      exact Or.inr ⟨by omega, htop, r, hr, rfl⟩
    · rw [h.walk_outside hp (by omega) hva] at hwalk
      cases hwalk

/-- `virtual_memory_map` of one user page, or of an unmapped one: the ledger entry `r` is installed
at `va`'s page in the table of `p`. -/
theorem map (h : MemSim L m w pt) (hw : w.Wf L) (va : ℕ) {p pa : ℕ} {r : Option Ref} (hp : w.Live p)
    (hva : va % 4096 = 0) (hva' : va < 2 ^ 64) (hin : inTree va) (hi : 256 ≤ va / 4096 % 1024)
    (hr : ∀ r', r = some r' → pa = r'.frame * 4096 ∧ r'.frame < 512) :
    ∃ m', virtualMemoryMap m (pt p) va pa 4096 (Ref.perm r) = .ok (m', 0) ∧
      MemSim L m' (w.hold p (.page (va / 4096 % 1024)) r) pt ∧
      AgreeOff 4096 (fun pn => ∃ j, pn = w.frames p j) m m' := by
  have hperm : Ref.perm r &&& pteP ≠ 0 → ∃ r', r = some r' := by
    cases r with
    | none => intro hc; simp [Ref.perm] at hc
    | some r' => exact fun _ => ⟨r', rfl⟩
  have hentry : newEntry pa (Ref.perm r) = Ref.entry r := by
    unfold newEntry
    cases r with
    | none => simp [Ref.perm, Ref.entry]
    | some r' =>
        have hpres : Ref.perm (some r') &&& pteP ≠ 0 := by
          unfold Ref.perm
          simp only
          split_ifs <;> simp
        rw [if_pos hpres, (hr r' rfl).1, Ref.entry_some]
  have hlt : Ref.entry r < 2 ^ 64 := by
    cases r with
    | none => norm_num [Ref.entry]
    | some r' =>
        have h1 := (hr r' rfl).2
        have h2 := Ref.perm_lt (some r')
        rw [Ref.entry_some]
        omega
  have hmap := (h.tree p hp).map_page va pa (Ref.perm r) hva hva'
    (by have := Ref.perm_lt r; omega) (fun hc => by
      obtain ⟨r', hr'⟩ := hperm hc
      obtain ⟨h1, h2⟩ := hr r' hr'
      omega)
  rw [if_pos hin, hentry, ← h.root p hp] at hmap
  exact ⟨_, hmap, h.setLeaf hw hp hi (Nat.mod_lt _ (by norm_num)) hlt,
    Tree.agreeOff_tables m (w.frames p) _ _⟩

/-- An address without a leaf table: nothing is mapped. -/
theorem map_outside (h : MemSim L m w pt) {p va pn : ℕ} (hp : w.Live p) (hva : va % 4096 = 0)
    (hva' : va < 2 ^ 64) (hin : ¬ inTree va) (hpn : pn < 512) :
    virtualMemoryMap m (pt p) va (pn * 4096) 4096 7 = .ok (m, -1) := by
  rw [h.root p hp, (h.tree p hp).map_page _ _ _ hva hva' (by norm_num) (fun _ => by omega),
    if_neg hin]
  rfl

end MemSim

end WeensyOS
