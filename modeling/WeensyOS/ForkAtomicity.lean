import WeensyOS.ForkCopies
import WeensyOS.Ownership

/-!
# All-or-nothing forks

`INT_SYS_FORK` from the `switch` to the way out of `exception`. Without a free slot it fails and
changes nothing; with enough pages it makes a complete child. Between the two it goes wrong: when
`duplicate_pagetable` runs out of pages the handler returns to the assembly stub and keeps what it
has allocated, and later the page loop maps page 0.
-/

namespace WeensyOS
open ByteMemory

section contract
variable (L : KernelLayout) (k : Kernel)

/-- `INT_SYS_FORK` and the end of `exception`. -/
def forkTrap : Except Panic (Kernel × Outcome) := do
  let (k, next) ← sysFork k
  leave L k next

def SlotFree : Prop := ∃ q, 1 ≤ q ∧ q < nProc ∧ k.states q = .free

def MemoryFree : Prop := 5 + k.writablePages ≤ (freePages k.pageinfo).card

/-- The caller is resumed with -1, and nothing else has happened. -/
def FailedCleanly : Prop := ∃ k' o, forkTrap L k = .ok (k', o) ∧ (o = .run ∨ o = .schedule) ∧
  (k'.processes k.current).registers.regRax = -1 ∧ k'.states = k.states ∧
  (∀ pn, (k'.pageinfo pn).refcount = (k.pageinfo pn).refcount) ∧ k'.mem = k.mem

/-- The caller is resumed with the number of a child that has its mappings. -/
def ForkedCompletely : Prop := ∃ k' c, forkTrap L k = .ok (k', .run) ∧ 1 ≤ c ∧ c < nProc ∧
  k.states c = .free ∧ k'.states c = .runnable ∧ k'.current = k.current ∧
  k'.currentProc.registers.regRax = BitVec.ofNat 64 c ∧
  ∀ va < memsizeVirtual, (virtualMemoryLookup k'.mem (k'.processes c).pagetable va).perm =
    (virtualMemoryLookup k.mem k.currentProc.pagetable va).perm

/-- A fork either makes a complete child, or it lacks a slot or pages and fails cleanly. -/
def ForkAtomic : Prop :=
  (¬ SlotFree k ∨ ¬ MemoryFree k → FailedCleanly L k) ∧
    (SlotFree k → MemoryFree k → ForkedCompletely L k)

end contract

/-! The page loop when shared pages are in use, whatever their counts. -/

section loop
variable {Q : ℕ → Prop} {S T : Fin 5 → ℕ} {leaf : ℕ → ℕ} {c : ℕ} {F : Finset ℕ}
  (hc16 : c < 16) (hphys : ∀ i < 768, leaf i &&& pteP ≠ 0 → leaf i < 0x200000)
  (hshare : ∀ i ∈ Finset.Ico 256 768, Shares leaf i → ¬ Q (leaf i / 4096) ∧ leaf i / 4096 ∉ F)

include hc16 hphys hshare

/-- A round uses up at most one page of `F`, if it copies. -/
theorem build_round {i : ℕ} {m : Memory} {info : PageInfos} {f : ℕ → ℕ} (hi : 256 ≤ i)
    (hi' : i < 768) (h : Cloned Q S T leaf i m info f)
    (hroom : (copiesFrom leaf i).card ≤ (F ∩ freePages info).card) :
    ∃ m' info' f', forkPage (S 0 * 4096) (T 0 * 4096) c (i * 4096) (m, info) = .ok (m', info') ∧
      Cloned Q S T leaf (i + 1) m' info' f' ∧
      (copiesFrom leaf (i + 1)).card ≤ (F ∩ freePages info').card ∧
      AgreeOff 4096 (fun pn => (∃ j, pn = T j) ∨ ¬ Q pn) m m' := by
  rw [copiesFrom_succ hi'] at hroom
  by_cases hc : Copies leaf i
  · rw [if_pos hc] at hroom
    have hpos : 0 < (freePages info).card := by
      have hsub : F ∩ freePages info ⊆ freePages info := Finset.inter_subset_right
      have := Finset.card_le_card hsub
      omega
    obtain ⟨pn, hpn⟩ := exists_lowestFree hpos
    have hz := (lowestFree_eq_some hpn).2.2
    obtain ⟨m', hstep, hcl, ha, -⟩ := h.copy hi (by omega) (hphys i hi') hc16 hc hpn
    refine ⟨m', _, _, hstep, hcl, ?_, ha.mono fun x hx => ?_⟩
    · have hsub : (F ∩ freePages info).erase pn ⊆
          F ∩ freePages (Function.update info pn ⟨c, 1⟩) := by
        intro x hx
        obtain ⟨hne, hx⟩ := Finset.mem_erase.mp hx
        obtain ⟨hF, hx⟩ := Finset.mem_inter.mp hx
        obtain ⟨hrange, hzx⟩ := Finset.mem_filter.mp hx
        refine Finset.mem_inter.mpr ⟨hF, Finset.mem_filter.mpr ⟨hrange, ?_⟩⟩
        rw [Function.update_of_ne hne]
        exact hzx
      have h1 := Finset.card_le_card hsub
      have h2 := Finset.pred_card_le_card_erase (s := F ∩ freePages info) (a := pn)
      omega
    · rcases hx with rfl | hj
      · exact .inr fun hQ => h.counted x hQ hz
      · exact .inl hj
  · rw [if_neg hc, Nat.add_zero] at hroom
    have hother : ∀ pn, Q pn ∨ pn ∈ F → shareInfo leaf info i pn = info pn := by
      intro pn hpn
      unfold shareInfo
      split_ifs with hp
      · obtain ⟨hQ, hF⟩ := hshare i (Finset.mem_Ico.mpr ⟨hi, hi'⟩) ⟨hp, hc⟩
        unfold incRefcount
        split_ifs
        · rw [Int.toNat_natCast, Function.update_of_ne]
          rintro rfl
          exact hpn.elim hQ hF
        · rfl
      · rfl
    obtain ⟨m', hstep, hcl, ha⟩ := h.share (c := c) (by omega) (hphys i hi') hc fun pn hQ => by
      rw [hother pn (.inl hQ)]
      exact h.counted pn hQ
    refine ⟨m', _, f, hstep, hcl, ?_, ha.mono fun _ => .inl⟩
    have hsame : F ∩ freePages (shareInfo leaf info i) = F ∩ freePages info := by
      ext pn
      simp only [freePages, Finset.mem_inter, Finset.mem_filter]
      exact and_congr_right fun hF => by rw [hother pn (.inr hF)]
    rw [hsame]
    exact hroom

theorem build_loop {n i : ℕ} {m : Memory} {info : PageInfos} {f : ℕ → ℕ} (hi : 256 ≤ i)
    (hn : i + n = 768) (h : Cloned Q S T leaf i m info f)
    (hroom : (copiesFrom leaf i).card ≤ (F ∩ freePages info).card) :
    ∃ m' info' f', forkLoop (S 0 * 4096) (T 0 * 4096) c n (i * 4096) (m, info) =
        .ok (m', info') ∧
      Cloned Q S T leaf 768 m' info' f' ∧
      AgreeOff 4096 (fun pn => (∃ j, pn = T j) ∨ ¬ Q pn) m m' := by
  induction n generalizing i m info f with
  | zero =>
      obtain rfl : i = 768 := hn
      exact ⟨m, info, f, rfl, h, AgreeOff.refl _ _ _⟩
  | succ n ih =>
      obtain ⟨m₁, info₁, f₁, hstep, h₁, hroom₁, ha⟩ :=
        build_round hc16 hphys hshare hi (by omega) h hroom
      obtain ⟨m', info', f', hrest, h', ha'⟩ := ih (by omega) (by omega) h₁ hroom₁
      refine ⟨m', info', f', ?_, h', ha.trans ha'⟩
      rw [forkLoop, hstep, ok_bind]
      simp only [pageSize]
      rw [show i * 4096 + 4096 = (i + 1) * 4096 by omega]
      exact hrest

end loop

/-- A running caller with a page table `S` of the usual shape. The pages that it maps read-only are
in use, and no page table is among them. -/
structure ForkCaller (L : KernelLayout) (k : Kernel) (S : Fin 5 → ℕ) (leaf : ℕ → ℕ) : Prop where
  runnable : k.currentProc.state = .runnable
  kernel : Tree k.mem L.tables kernelOwnLeaf
  kernel_used : ∀ j, (k.pageinfo (L.tables j)).refcount ≠ 0
  tree : Tree k.mem S leaf
  pagetable : k.currentProc.pagetable = S 0 * 4096
  tables_used : ∀ j, (k.pageinfo (S j)).refcount ≠ 0
  low : ∀ i < 256, leaf i = kernelLeaf i
  phys : ∀ i ∈ Finset.Ico 256 768, leaf i &&& pteP ≠ 0 → leaf i < 0x200000
  shared : ∀ i ∈ Finset.Ico 256 768, Shares leaf i →
    (k.pageinfo (leaf i / 4096)).refcount ≠ 0 ∧
      ∀ j, leaf i / 4096 ≠ S j ∧ leaf i / 4096 ≠ L.tables j

theorem forkTrap_eq_ok {L : KernelLayout} {k k' : Kernel} {o : Outcome} :
    forkTrap L k = .ok (k', o) ↔
      ∃ k₁ next, sysFork k = .ok (k₁, next) ∧ leave L k₁ next = .ok (k', o) := by
  unfold forkTrap
  rw [bind_eq_ok]
  exact ⟨fun ⟨⟨k₁, next⟩, h, h'⟩ => ⟨k₁, next, h, h'⟩, fun ⟨k₁, next, h, h'⟩ => ⟨(k₁, next), h, h'⟩⟩

theorem leave_run {L : KernelLayout} {k : Kernel} (hrun : k.currentProc.state = .runnable)
    (hset : setPagetable L k.mem k.currentProc.pagetable = .ok ()) :
    leave L k .break = .ok (k, .run) := by
  have hstep : run L k k.current = .ok k := by
    unfold run
    rw [assert_true (show (k.processes k.current).state = .runnable from hrun)]
    change (do setPagetable L k.mem k.currentProc.pagetable; _) = _
    rw [hset]
    rfl
  rw [leave, if_pos hrun, hstep]
  rfl

/-- A fork that takes a slot does not fail cleanly. -/
theorem not_failedCleanly {L : KernelLayout} {k : Kernel} {c : ℕ}
    (hslot : findFreeSlot k.states 15 1 = some c) : ¬ FailedCleanly L k := by
  rintro ⟨k', o, htrap, ho, hrax, -⟩
  obtain ⟨k₁, next, hstep, hleave⟩ := forkTrap_eq_ok.mp htrap
  obtain ⟨⟨p, rfl⟩, hway⟩ := leave_inv hleave
  obtain ⟨-, ⟨hnone, -⟩ | ⟨c', hc', ⟨pt, -, hproc⟩ | ⟨rfl, -⟩⟩⟩ := sysFork_inv hstep
  · rw [hslot] at hnone
    cases hnone
  · rw [hslot] at hc'
    obtain rfl := Option.some.inj hc'
    have hc16 := (findFreeSlot_some hslot).2.1
    change (k₁.processes k.current).registers.regRax = -1 at hrax
    rw [hproc, Kernel.setRax, Kernel.updateProc_same] at hrax
    have hnat := congrArg BitVec.toNat hrax
    rw [BitVec.toNat_ofNat, Nat.mod_eq_of_lt (by omega)] at hnat
    have hmax : (-1 : BitVec 64).toNat = 2 ^ 64 - 1 := rfl
    omega
  · rcases ho with rfl | rfl
    · exact absurd hway.1 (by decide)
    · exact hway.1 rfl

theorem slotFree_iff (k : Kernel) : SlotFree k ↔ ∃ c, findFreeSlot k.states 15 1 = some c := by
  constructor
  · rintro ⟨q, hq, hq', hfree⟩
    cases hs : findFreeSlot k.states 15 1 with
    | some c => exact ⟨c, rfl⟩
    | none => exact absurd hfree (findFreeSlot_none hs q hq (by omega))
  · rintro ⟨c, hc⟩
    obtain ⟨h1, h2, h3, -⟩ := findFreeSlot_some hc
    exact ⟨c, h1, h2, h3⟩

namespace ForkCaller

variable {L : KernelLayout} {k : Kernel} {S : Fin 5 → ℕ} {leaf : ℕ → ℕ} (h : ForkCaller L k S leaf)

include h

theorem physical_low : ∀ i < 768, leaf i &&& pteP ≠ 0 → leaf i < 0x200000 := by
  intro i hi hp
  by_cases hlow : i < 256
  · have := kernelPerm_lt i
    rw [h.low i hlow, kernelLeaf]
    omega
  · exact h.phys i (Finset.mem_Ico.mpr ⟨by omega, hi⟩) hp

theorem lookup_eq {va : ℕ} (hva : va < memsizeVirtual) :
    virtualMemoryLookup k.mem k.currentProc.pagetable va =
      VaMapping.ofEntry (leaf (va / 4096)) va := by
  simp only [memsizeVirtual] at hva
  rw [h.pagetable, h.tree.lookup_low (by omega)]

/-- Without a free slot only `rax` of the caller changes. -/
theorem fails (hslot : findFreeSlot k.states 15 1 = none) : FailedCleanly L k := by
  have hstep : sysFork k = .ok (k.setRax k.current (-1), .break) := by
    unfold sysFork
    rw [show findFreeSlot k.states (nProc - 1) 1 = none from hslot]
  have hcur : (k.setRax k.current (-1)).currentProc =
      { k.currentProc with registers := { k.currentProc.registers with regRax := -1 } } := by
    rw [Kernel.currentProc, Kernel.setRax, Kernel.updateProc_current, Kernel.updateProc_same]
    rfl
  have hleave : leave L (k.setRax k.current (-1)) .break =
      .ok (k.setRax k.current (-1), .run) := by
    apply leave_run
    · rw [hcur]
      exact h.runnable
    · rw [hcur]
      change setPagetable L k.mem k.currentProc.pagetable = _
      rw [h.pagetable]
      exact setPagetable_ok h.kernel h.tree fun i _ hi => h.low i hi
  refine ⟨_, .run, forkTrap_eq_ok.mpr ⟨_, _, hstep, hleave⟩, .inl rfl, ?_, ?_, fun _ => rfl, rfl⟩
  · rw [Kernel.setRax, Kernel.updateProc_same]
  · funext q
    rw [Kernel.states, Kernel.setRax, Kernel.updateProc_apply]
    split_ifs with hq
    · rw [hq]
      rfl
    · rfl

/-- With a free slot and enough pages the child is complete. -/
theorem completes {c : ℕ} (hslot : findFreeSlot k.states 15 1 = some c) (hmem : MemoryFree k) :
    ForkedCompletely L k := by
  obtain ⟨hc1, hc16, hfree, -⟩ := findFreeSlot_some hslot
  have hcopies := copies_le_writable h.tree h.pagetable h.physical_low
  unfold MemoryFree at hmem
  obtain ⟨T, m₁, info₁, hdup, hfresh⟩ := duplicatePagetable_fresh (c := c) (by omega) h.tree
    (fun i hi => h.physical_low i (by omega)) h.tables_used (by omega)
  set Q : ℕ → Prop := fun pn => ((∃ j, pn = S j) ∨ ∃ j, pn = T j) ∨ ∃ j, pn = L.tables j with hQ
  have hcounted : ∀ pn, Q pn → (info₁ pn).refcount ≠ 0 := by
    rintro pn ((⟨j, rfl⟩ | ⟨j, rfl⟩) | ⟨j, rfl⟩)
    · rw [(hfresh.kept (h.tables_used j)).2]
      exact h.tables_used j
    · rw [hfresh.counted j]
      exact one_ne_zero
    · rw [(hfresh.kept (h.kernel_used j)).2]
      exact h.kernel_used j
  have hstart : Cloned Q S T leaf 256 m₁ info₁ fun _ => 0 :=
    hfresh.cloned h.tree (fun j => .inl (.inl ⟨j, rfl⟩)) (fun j => .inl (.inr ⟨j, rfl⟩))
      h.tables_used hcounted
  have hshare : ∀ i ∈ Finset.Ico 256 768, Shares leaf i →
      ¬ Q (leaf i / 4096) ∧ leaf i / 4096 ∉ freePages info₁ := by
    intro i hi hs
    obtain ⟨hused, hno⟩ := h.shared i hi hs
    obtain ⟨hT, hsame⟩ := hfresh.kept hused
    refine ⟨?_, fun hmem => ?_⟩
    · rintro ((⟨j, hj⟩ | ⟨j, hj⟩) | ⟨j, hj⟩)
      · exact (hno j).1 hj
      · exact hT j hj
      · exact (hno j).2 hj
    · have hz := (Finset.mem_filter.mp hmem).2
      rw [hsame] at hz
      exact hused hz
  obtain ⟨m', info', f, hloop, hcl, ha⟩ := build_loop (c := c) (n := 512) (by omega)
    h.physical_low hshare le_rfl rfl hstart (by
      rw [Finset.inter_self]
      have := hfresh.room
      omega)
  have hchild (va : ℕ) (hva : va < memsizeVirtual) := hcl.perm_eq hva
  have hkernel : Tree m' L.tables kernelOwnLeaf := by
    have hne (j j' : Fin 5) : L.tables j ≠ T j' := (hfresh.kept (h.kernel_used j)).1 j'
    refine (h.kernel.frame hfresh.frame fun j ⟨j', hj⟩ => hne j j' hj).frame ha ?_
    rintro j (⟨j', hj⟩ | hnQ)
    · exact hne j j' hj
    · exact hnQ (.inr ⟨j, rfl⟩)
  rw [← h.pagetable] at hdup hloop
  have hne : k.current ≠ c := by
    rintro rfl
    have hrun := h.runnable
    rw [Kernel.currentProc, show (k.processes k.current).state = .free from hfree] at hrun
    cases hrun
  have hpos : T 0 * 4096 ≠ 0 := by
    have := hfresh.tree.pos 0
    omega
  obtain ⟨k', hk', hm', -, hwritten, hproc⟩ := sysFork_success hslot hne hpos hdup hloop
  have hcur : k'.currentProc.pagetable = S 0 * 4096 := by
    rw [Kernel.currentProc, hwritten.current, hwritten.pagetable, if_neg hne]
    exact h.pagetable
  have hleave : leave L k' .break = .ok (k', .run) := by
    apply leave_run
    · rw [Kernel.currentProc, hwritten.current]
      have := congrFun hwritten.state k.current
      rw [Function.update_of_ne hne] at this
      exact this.trans h.runnable
    · rw [hcur, hm']
      exact setPagetable_ok hkernel hcl.parent fun i _ hi => h.low i hi
  refine ⟨k', c, forkTrap_eq_ok.mpr ⟨_, _, hk', hleave⟩, hc1, hc16, hfree, ?_, hwritten.current, ?_,
    fun va hva => ?_⟩
  · rw [hwritten.state, Function.update_self]
  · rw [Kernel.currentProc, hwritten.current, hproc, Kernel.setRax, Kernel.updateProc_same]
  · rw [hwritten.pagetable, if_pos rfl, hm', hchild va hva, h.lookup_eq hva]

end ForkCaller

/-- A fork is all-or-nothing exactly when no slot is free or the pages suffice for the child. -/
theorem forkAtomic_iff {L : KernelLayout} {k : Kernel} {S : Fin 5 → ℕ} {leaf : ℕ → ℕ}
    (h : ForkCaller L k S leaf) : ForkAtomic L k ↔ k.ForkRoom := by
  unfold Kernel.ForkRoom
  cases hslot : findFreeSlot k.states (nProc - 1) 1 with
  | none =>
      have hno : ¬ SlotFree k := by
        rw [slotFree_iff, show findFreeSlot k.states 15 1 = none from hslot]
        rintro ⟨c, hc⟩
        cases hc
      refine iff_of_true ⟨fun _ => h.fails hslot, fun hs => absurd hs hno⟩ fun hc => ?_
      cases hc
  | some c =>
      have hs : SlotFree k := (slotFree_iff k).mpr ⟨c, hslot⟩
      constructor
      · intro hatomic _
        by_contra hno
        exact not_failedCleanly hslot (hatomic.1 (.inr hno))
      · intro hroom
        refine ⟨fun hc => ?_, fun _ hmem => h.completes hslot hmem⟩
        exact (hc.resolve_left (not_not.mpr hs) (hroom rfl)).elim

/-! States that represent a ledger with exact counts are among the callers. -/

theorem World.shares_leaf {L : KernelLayout} {w : World} (hw : w.Wf L) {p i : ℕ}
    (hi : i ∈ Finset.Ico 256 768) (hs : Shares (w.leaf p) i) :
    ∃ pn, w.held (p, .page i) = some ⟨pn, false⟩ ∧ w.leaf p i / 4096 = pn := by
  have hleaf : w.leaf p i = Ref.entry (w.held (p, .page i)) := by
    rw [World.leaf, if_neg (by have := (Finset.mem_Ico.mp hi).1; omega)]
  have hlt := fun r => hw.frame_lt (p := p) (i := i) (r := r)
  have hcond := Ref.mapping_writable hw (p := p) (i := i)
  have hcopies : Copies (w.leaf p) i ↔ ∃ pn, w.held (p, .page i) = some ⟨pn, true⟩ := by
    rw [← hcond, ← VaMapping.ofEntry_ref (fun r hr => hlt r hr) i, ← hleaf]
    refine (copies_iff fun _ => ?_).symm
    rw [hleaf]
    cases hr : w.held (p, .page i) with
    | none => norm_num [Ref.entry]
    | some r =>
        have := hlt r hr
        have := Ref.perm_lt (some r)
        rw [Ref.entry_some]
        omega
  obtain ⟨hp, hno⟩ := hs
  rw [hcopies] at hno
  cases hr : w.held (p, .page i) with
  | none =>
      rw [hleaf, hr] at hp
      exact absurd rfl hp
  | some r =>
      obtain ⟨pn, b⟩ := r
      cases b with
      | true => exact absurd ⟨pn, hr⟩ hno
      | false =>
          refine ⟨pn, rfl, ?_⟩
          have := Ref.perm_lt (some ⟨pn, false⟩)
          rw [hleaf, hr, Ref.entry_some]
          dsimp only
          omega

theorem Represents.forkCaller {L : KernelLayout} {M : Machine} {w : World} (h : Represents L M w)
    (hex : w.Exact L) (hres : M.outcome.resumed = true) :
    ForkCaller L M.kernel (w.frames w.current) (w.leaf w.current) := by
  have hlive := h.live hres
  have htab := h.wf.tables _ hlive
  have hkernel (j : Fin 5) : (M.kernel.pageinfo (L.tables j)).refcount ≠ 0 := by
    rw [h.sim.info, h.wf.kernel _ (not_usable_tables j), pageinfoInit_tables]
    norm_num
  refine ⟨?_, h.sim.mem.kernel, hkernel, h.sim.mem.tree _ hlive, ?_, fun j => ?_,
    w.leaf_kernel _, fun i hi _ => ?_, fun i hi hs => ?_⟩
  · rw [Kernel.currentProc, h.sim.current]
    exact (congrFun h.sim.state w.current).trans (h.runnable hres)
  · rw [Kernel.currentProc, h.sim.current]
    exact h.sim.mem.root _ hlive
  · rw [h.sim.info]
    exact hex.counted (htab j)
  · rw [World.leaf, if_neg (by have := (Finset.mem_Ico.mp hi).1; omega)]
    cases hr : w.held (w.current, .page i) with
    | none => norm_num [Ref.entry]
    | some r =>
        have := h.wf.frame_lt hr
        have := Ref.perm_lt (some r)
        rw [Ref.entry_some]
        omega
  · obtain ⟨pn, hr, hpn⟩ := World.shares_leaf h.wf hi hs
    rw [hpn, h.sim.info]
    refine ⟨hex.counted hr, fun j => ⟨?_, ?_⟩⟩
    · rintro rfl
      have := hex.unique (htab j) hr rfl
      cases this
    · rintro rfl
      exact not_usable_tables j (hex.place _ _ hr).2

/-- A process with a few pages, when there is plenty of memory. -/
theorem forkAtomic_sample : ∃ M, Machine.Boots sampleLayout (sampleImages 3) (some "fork") M ∧
    ForkAtomic sampleLayout M.kernel := by
  obtain ⟨M, hM⟩ := sample_boots sampleLayout 3 (some "fork") (by decide)
  obtain ⟨w, hw, hrep, hres⟩ := sample_world sampleLayout (by norm_num) hM
  have hex : w.Exact sampleLayout := World.Tallied.of_booting _ hw.booting hw.complete
  refine ⟨M, hM, (forkAtomic_iff (hrep.forkCaller hex hres)).mpr fun _ => ?_⟩
  rw [hrep.writablePages_eq (hrep.live hres), hrep.sim.info]
  exact sample_fork_room hw (by norm_num)

/-- With 240 data pages there is memory for the child's tables, but not for all of its copies. -/
theorem not_forkAtomic : ¬ ∀ L k S leaf, ForkCaller L k S leaf → ForkAtomic L k := by
  intro hall
  obtain ⟨M, hM⟩ := sample_boots sampleLayout 240 (some "fork") (by decide)
  obtain ⟨w, hw, hrep, hres⟩ := sample_world sampleLayout (by norm_num) hM
  have hex : w.Exact sampleLayout := World.Tallied.of_booting _ hw.booting hw.complete
  have hatomic := hall _ _ _ _ (hrep.forkCaller hex hres)
  obtain ⟨hslot, -, -⟩ := sample_fork hw (by norm_num)
  rw [← hrep.sim.state] at hslot
  refine not_failedCleanly hslot (hatomic.1 (.inr fun hmem => ?_))
  rw [MemoryFree, hrep.writablePages_eq (hrep.live hres), hrep.sim.info, hw.current,
    hw.writable_eq (by norm_num)] at hmem
  have hmax := (card_freePages_init sampleLayout).2
  have hroom := hw.room
  omega

end WeensyOS
