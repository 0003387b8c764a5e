import WeensyOS.WorldInvariants

/-!
# `page_alloc` and `fork` refine the abstract memory manager

The two calls that take memory are matched with their counterparts on worlds: from a state that
represents a well-formed ledger they succeed, and the state they leave represents the new ledger.
Along with that, each lemma says which pages of physical memory it writes to.
-/

namespace WeensyOS
open ByteMemory World

variable {L : KernelLayout} {m : Memory} {w w' : World} {pt : ℕ → ℕ}

/-- An unaligned address fails the assertion of `virtual_memory_map`. -/
theorem sysPageAllocFindFree_unaligned {info : PageInfos} {pid : ℤ} {addr : ℕ} (pagetable : ℕ)
    (hlow : procStartAddr ≤ addr) (hfree : (lowestFree info).isSome) (haddr : addr % 4096 ≠ 0) :
    sysPageAllocFindFree m info pagetable pid addr = .error .assertion := by
  obtain ⟨pn, hpn⟩ := Option.isSome_iff_exists.mp hfree
  rw [sysPageAllocFindFree_eq, hpn]
  dsimp only
  rw [if_neg (not_lt.mpr hlow), virtualMemoryMap,
    assert_false (show ¬ addr % pageSize = 0 from haddr)]
  rfl

/-- `sys_page_alloc_find_free` on a page table of the usual shape. -/
theorem Tree.sysPageAlloc {T : Fin 5 → ℕ} {leaf : ℕ → ℕ} (h : Tree m T leaf) (info : PageInfos)
    (pid : ℤ) {addr : ℕ} (haddr : addr < 2 ^ 64) :
    sysPageAllocFindFree m info (T 0 * 4096) pid addr =
      match lowestFree info with
      | none => .ok (m, info, -1)
      | some pn =>
        if addr < procStartAddr then .ok (m, Function.update info pn ⟨toInt8 pid, 1⟩, -1)
        else if addr % 4096 ≠ 0 then .error .assertion
        else .ok (if inTree addr then
            setEntry m (leafTable T (addr / 4096 % 1024) * 4096) (addr / 4096 % 1024 % 512)
              (pn * 4096 + 7)
          else m, Function.update info pn ⟨toInt8 pid, 1⟩, 0) := by
  cases hpn : lowestFree info with
  | none => rw [sysPageAllocFindFree_eq, hpn]
  | some pn =>
      have hlt := (lowestFree_eq_some hpn).2.1
      dsimp only
      by_cases hlow : addr < procStartAddr
      · rw [sysPageAllocFindFree_eq, hpn, if_pos hlow]
        exact if_pos hlow
      · rw [if_neg hlow]
        by_cases hal : addr % 4096 = 0
        · rw [if_neg (not_not.mpr hal), sysPageAllocFindFree_eq, hpn]
          dsimp only
          rw [if_neg hlow, pageAddress_eq]
          change (virtualMemoryMap m (T 0 * 4096) addr (pn * 4096) 4096 7 >>= _) = _
          rw [h.map_page addr (pn * 4096) 7 hal haddr (by norm_num) fun _ => by omega]
          by_cases hin : inTree addr
          · rw [if_pos hin, if_pos hin]
            rfl
          · rw [if_neg hin, if_neg hin]
            rfl
        · rw [if_pos hal]
          exact sysPageAllocFindFree_unaligned _ (not_lt.mp hlow) (by rw [hpn]; rfl) hal

theorem sysPageAllocFindFree_ok (addr : ℕ) (hm : MemSim L m w pt) (hw : w.Wf L) {p : ℕ}
    (hp : w.Live p) (hp' : p < 16) (haddr : addr < 2 ^ 64) (hok : w.AllocOk addr) :
    ∃ m', sysPageAllocFindFree m w.info (pt p) p addr =
        .ok (m', (w.pageAlloc p addr).info, pageAllocResult w.info addr) ∧
      MemSim L m' (w.pageAlloc p addr) pt ∧
      AgreeOff 4096 (fun pn => ∃ j, pn = w.frames p j) m m' := by
  rw [hm.root p hp, (hm.tree p hp).sysPageAlloc _ _ haddr, toInt8_pid hp']
  unfold World.pageAlloc pageAllocResult
  cases hpn : lowestFree w.info with
  | none => exact ⟨m, rfl, hm, AgreeOff.refl _ _ _⟩
  | some pn =>
      have hlt := (lowestFree_eq_some hpn).2.1
      dsimp only
      by_cases hlow : addr < procStartAddr
      · rw [if_pos hlow, if_neg (by omega), if_pos hlow]
        exact ⟨m, rfl, hm.of_held rfl rfl, AgreeOff.refl _ _ _⟩
      · have halign := hok.aligned (by omega) (by simp [hpn])
        rw [if_neg hlow, if_neg (not_not.mpr halign), if_neg hlow]
        by_cases hin : inTree addr
        · have hhigh := hok.high (by omega) (by simp [hpn]) hin
          have hset := hm.setLeaf hw hp hhigh (Nat.mod_lt _ (by norm_num))
            (r := some ⟨pn, true⟩) (show pn * 4096 + 7 < 2 ^ 64 by omega)
          rw [if_pos hin, if_pos ⟨by omega, hin⟩]
          exact ⟨_, rfl, hset.of_held rfl rfl, Tree.agreeOff_tables m _ _ _⟩
        · rw [if_neg hin, if_neg fun h => hin h.2]
          exact ⟨m, rfl, hm.of_held rfl rfl, AgreeOff.refl _ _ _⟩

/-- The pages that one round of a fork writes to. -/
def ForkWrites (w : World) (c : ℕ) (pn : ℕ) : Prop :=
  pn = 0 ∨ ∃ s, w.held (c, s) = some ⟨pn, true⟩

theorem Ref.mapping_writable {L : KernelLayout} {w : World} (hw : w.Wf L) {p i : ℕ} :
    ((Ref.mapping (w.held (p, .page i))).pa ≠ consoleAddr ∧
      (Ref.mapping (w.held (p, .page i))).perm &&& pteW ≠ 0) ↔
      ∃ pn, w.held (p, .page i) = some ⟨pn, true⟩ := by
  cases hr : w.held (p, .page i) with
  | none => simp [Ref.mapping, VaMapping.unmapped]
  | some r =>
      have hne : r.frame * 4096 ≠ consoleAddr := by
        intro heq
        have h184 : r.frame = consolePage := by
          simp only [consoleAddr, consolePage] at heq ⊢
          omega
        rcases hw.page_frame p i r hr with hu | ⟨h0, -⟩
        · exact not_usable_console (h184 ▸ hu)
        · rw [h0] at h184
          cases h184
      rw [← Ref.perm_and_write]
      exact and_iff_right hne

/-- A round of the fork loop installs a reference in the child's page `i`, after it may have filled
a page `pn` that is no table. -/
theorem forkPage_map {p c i : ℕ} (hm : MemSim L m w pt) (hf : Forking L p c i w) (hi : 256 ≤ i)
    (hi' : i < 1024) {m₁ : Memory} (pa pn : ℕ) (r : Option Ref)
    (ha : AgreeOff 4096 (· = pn) m m₁)
    (hpn : ∀ j, pn ≠ L.tables j) (hpn' : ∀ q, w.Live q → ∀ j, pn ≠ w.frames q j)
    (hr : ∀ r', r = some r' → pa = r'.frame * 4096 ∧ r'.frame < 512) :
    ∃ m', virtualMemoryMap m₁ (pt c) (i * 4096) pa 4096 (Ref.perm r) = .ok (m', 0) ∧
      MemSim L m' (w.hold c (.page i) r) pt ∧
      AgreeOff 4096 (fun x => x = pn ∨ ∃ j, x = w.frames c j) m m' ∧
      AgreeOff 4096 (fun x => ∃ j, x = w.frames c j) m₁ m' := by
  have hm₁ : MemSim L m₁ w pt := hm.frame ha (fun j h => hpn j h.symm)
    (fun q hq j h => hpn' q hq j h.symm)
  have hidx : i * 4096 / 4096 % 1024 = i := by omega
  obtain ⟨m', hmap, hm', ha'⟩ := hm₁.map hf.wf (i * 4096) hf.child (by omega) (by omega)
    (by unfold inTree; omega) (by omega) hr
  rw [hidx] at hm'
  exact ⟨m', hmap, hm', (ha.mono fun _ h => Or.inl h).trans (ha'.mono fun _ h => Or.inr h), ha'⟩

theorem zero_ne_tables (j : Fin 5) : 0 ≠ L.tables j := by
  have := L.tables_range j
  omega

theorem World.Wf.zero_ne_frames (hw : w.Wf L) (q : ℕ) (hq : w.Live q) (j : Fin 5) :
    0 ≠ w.frames q j := by
  have := (hw.frames_usable hq j).pos
  omega

/-- What a round of a fork copies, before it writes to the child's tables. -/
def forkCopy (w : World) (p i : ℕ) (m : Memory) : Memory :=
  match w.held (p, .page i) with
  | some ⟨f, true⟩ => memcpy m ((lowestFree w.info).getD 0 * 4096) (f * 4096) 4096
  | _ => m

/-- One round of the page loop of `INT_SYS_FORK`. -/
theorem forkPage_ok {p c i : ℕ} (hm : MemSim L m w pt) (hf : Forking L p c i w) (hc : c < 16)
    (hi : 256 ≤ i) (hi' : i < 1024) :
    ∃ m', forkPage (pt p) (pt c) c (i * 4096) (m, w.info) = .ok (m', (forkSlot p c i w).info) ∧
      MemSim L m' (forkSlot p c i w) pt ∧
      AgreeOff 4096 (ForkWrites (forkSlot p c i w) c) m m' ∧
      AgreeOff 4096 (fun x => ∃ j, x = w.frames c j) (forkCopy w p i m) m' := by
  have hlook := hm.lookup_user hf.wf hf.parent hi hi'
  have htab (j : Fin 5) : w.held (c, .table j) = some ⟨w.frames c j, true⟩ :=
    hf.wf.tables c hf.child j
  have hzero := hf.wf.zero_ne_frames
  have hcond := Ref.mapping_writable hf.wf (p := p) (i := i)
  unfold forkPage
  simp only [hlook, pageSize]
  cases hr : w.held (p, .page i) with
  | none =>
      have hslot : forkSlot p c i w = w := by rw [forkSlot, hr]
      obtain ⟨m', hmap, hm', ha, htables⟩ := forkPage_map hm hf hi hi' (2 ^ 64 - 1) 0 none
        (AgreeOff.refl _ _ _) zero_ne_tables hzero (fun r' h => by cases h)
      rw [hr] at hcond
      rw [if_neg (by rw [hcond]; simp)]
      have hcopy : forkCopy w p i m = m := by rw [forkCopy, hr]
      refine ⟨m', ?_, ?_, ?_, by rwa [hcopy]⟩
      · change (virtualMemoryMap m (pt c) (i * 4096) (2 ^ 64 - 1) 4096 (Ref.perm none) >>= _) = _
        rw [hmap, hslot]
        rfl
      · rw [hslot]
        exact hm'.of_held rfl (by rw [hold_held, ← hf.empty i le_rfl, Function.update_eq_self])
      · rw [hslot]
        exact ha.mono fun x hx => hx.imp_right fun ⟨j, hj⟩ => ⟨.table j, hj ▸ htab j⟩
  | some r =>
      have hlt := hf.wf.frame_lt hr
      rw [hr] at hcond
      obtain ⟨fr, b⟩ := r
      cases b with
      | true =>
          rw [if_pos (hcond.mpr ⟨fr, rfl⟩), allocPageProcess_eq]
          cases hpn : lowestFree w.info with
          | some pn =>
              obtain ⟨-, hpn2, hpn3⟩ := lowestFree_eq_some hpn
              have hslot : forkSlot p c i w = w.give c (.page i) pn := by rw [forkSlot, hr, hpn]
              obtain ⟨m', hmap, hm', ha, htables⟩ := forkPage_map hm hf hi hi' (pn * 4096) pn
                (some ⟨pn, true⟩) (agreeOff_memcpy 4096 m pn (fr * 4096))
                (fun j h => not_usable_tables j (h ▸ hf.wf.lowestFree_usable hpn))
                (fun q hq j h => hf.frames_ne_free hpn3 hq j h.symm)
                (fun r' h => by obtain rfl := Option.some.inj h; exact ⟨rfl, hpn2⟩)
              have hcopy : forkCopy w p i m = memcpy m (pn * 4096) (fr * 4096) 4096 := by
                rw [forkCopy, hr, hpn]
                rfl
              refine ⟨m', ?_, ?_, ?_, by rwa [hcopy]⟩
              · rw [hslot]
                change (virtualMemoryMap (memcpy m (pn * 4096) (fr * 4096) 4096) (pt c) (i * 4096)
                  (pn * 4096) 4096 (Ref.perm (some ⟨pn, true⟩)) >>= _) = _
                rw [hmap, give_info, toInt8_pid hc]
                rfl
              · rw [hslot]
                exact hm'.of_held rfl rfl
              · rw [hslot]
                refine ha.mono fun x hx => Or.inr ?_
                rcases hx with rfl | ⟨j, rfl⟩
                · exact ⟨.page i, by simp⟩
                · exact ⟨.table j, by simp [htab]⟩
          | none =>
              have hslot : forkSlot p c i w = w.hold c (.page i) (some ⟨0, true⟩) := by
                rw [forkSlot, hr, hpn]
              have hcopy := agreeOff_memcpy 4096 m 0 (fr * 4096)
              rw [Nat.zero_mul] at hcopy
              obtain ⟨m', hmap, hm', ha, htables⟩ :=
                forkPage_map hm hf hi hi' 0 0 (some ⟨0, true⟩) hcopy
                zero_ne_tables hzero
                (fun r' h => by obtain rfl := Option.some.inj h; exact ⟨rfl, by norm_num⟩)
              have hcopy' : forkCopy w p i m = memcpy m 0 (fr * 4096) 4096 := by
                rw [forkCopy, hr, hpn]
                simp
              refine ⟨m', ?_, ?_, ?_, by rwa [hcopy']⟩
              · rw [hslot]
                change (virtualMemoryMap (memcpy m 0 (fr * 4096) 4096) (pt c) (i * 4096) 0 4096
                  (Ref.perm (some ⟨0, true⟩)) >>= _) = _
                rw [hmap]
                rfl
              · rw [hslot]
                exact hm'
              · rw [hslot]
                exact ha.mono fun x hx => hx.imp_right fun ⟨j, hj⟩ => ⟨.table j, by simp [hj, htab]⟩
      | false =>
          have hslot : forkSlot p c i w =
              { w.hold c (.page i) (some ⟨fr, false⟩) with info := incRefcount w.info fr } := by
            rw [forkSlot, hr]
          rw [if_neg (by rw [hcond]; simp)]
          obtain ⟨m', hmap, hm', ha, htables⟩ := forkPage_map hm hf hi hi' (fr * 4096) 0
            (some ⟨fr, false⟩) (AgreeOff.refl _ _ _) zero_ne_tables hzero
            (fun r' h => by obtain rfl := Option.some.inj h; exact ⟨rfl, hlt⟩)
          have hcopy : forkCopy w p i m = m := by rw [forkCopy, hr]
          refine ⟨m', ?_, ?_, ?_, by rwa [hcopy]⟩
          · rw [hslot]
            have hpa : (Ref.mapping (some ⟨fr, false⟩)).pa = fr * 4096 := rfl
            have hperm : (Ref.mapping (some ⟨fr, false⟩)).perm = Ref.perm (some ⟨fr, false⟩) := rfl
            have hnum : (Ref.mapping (some ⟨fr, false⟩)).pn = fr := rfl
            rw [hpa, hperm, hnum, hmap, ok_bind]
            simp only [pure, Except.pure]
          · rw [hslot]
            exact hm'.of_held rfl rfl
          · rw [hslot]
            exact ha.mono fun x hx => hx.imp_right fun ⟨j, hj⟩ => ⟨.table j, by simp [hj, htab]⟩

theorem World.forkSlot_held_of_ne {p c i : ℕ} {y : ℕ × Slot} (hy : y ≠ (c, .page i)) :
    (forkSlot p c i w).held y = w.held y := by
  unfold forkSlot
  split
  · rfl
  · split
    · rw [give_held, Function.update_of_ne hy]
    · rw [hold_held, Function.update_of_ne hy]
  · exact Function.update_of_ne hy _ _

theorem World.forkSlot_state (p c i : ℕ) (w : World) :
    (forkSlot p c i w).state = w.state ∧ (forkSlot p c i w).current = w.current := by
  unfold forkSlot
  split
  · exact ⟨rfl, rfl⟩
  · split <;> exact ⟨rfl, rfl⟩
  · exact ⟨rfl, rfl⟩

theorem World.forkSlots_held_of_ne {p c i n : ℕ} {y : ℕ × Slot}
    (hy : ∀ x, i ≤ x → x < i + n → y ≠ (c, .page x)) :
    (forkSlots p c n i w).held y = w.held y := by
  induction n generalizing i w with
  | zero => rfl
  | succ n ih =>
      rw [forkSlots, ih (fun x h1 h2 => hy x (by omega) (by omega)),
        forkSlot_held_of_ne (hy i le_rfl (by omega))]

theorem World.forkSlots_state (p c n i : ℕ) (w : World) :
    (forkSlots p c n i w).state = w.state ∧ (forkSlots p c n i w).current = w.current := by
  induction n generalizing i w with
  | zero => exact ⟨rfl, rfl⟩
  | succ n ih =>
      obtain ⟨h1, h2⟩ := ih (i + 1) (forkSlot p c i w)
      obtain ⟨h3, h4⟩ := forkSlot_state p c i w
      exact ⟨h1.trans h3, h2.trans h4⟩

/-- What the child holds at a round stays with it to the end of the loop. -/
theorem ForkWrites.forkSlots {p c i n : ℕ} (hf : Forking L p c i w) {pn : ℕ}
    (h : ForkWrites w c pn) : ForkWrites (forkSlots p c n i w) c pn := by
  refine h.imp_right fun ⟨s, hs⟩ => ⟨s, ?_⟩
  rw [forkSlots_held_of_ne fun x hx _ heq => ?_, hs]
  obtain ⟨-, rfl⟩ := Prod.mk.inj heq
  rw [hf.empty x hx] at hs
  cases hs

theorem forkLoop_ok {p c i n : ℕ} (hm : MemSim L m w pt) (hf : Forking L p c i w) (hc : c < 16)
    (hi : 256 ≤ i) (hn : i + n ≤ 1024) :
    ∃ m', forkLoop (pt p) (pt c) c n (i * 4096) (m, w.info) =
        .ok (m', (forkSlots p c n i w).info) ∧
      MemSim L m' (forkSlots p c n i w) pt ∧
      AgreeOff 4096 (ForkWrites (forkSlots p c n i w) c) m m' := by
  induction n generalizing i w m with
  | zero => exact ⟨m, rfl, hm, AgreeOff.refl _ _ _⟩
  | succ n ih =>
      obtain ⟨m₁, h₁, hm₁, ha₁, -⟩ := forkPage_ok hm hf hc hi (by omega)
      have hf₁ := hf.next hi (by omega)
      obtain ⟨m', h', hm', ha'⟩ := ih hm₁ hf₁ (by omega) (by omega)
      refine ⟨m', ?_, hm', (ha₁.mono fun pn hpn => hpn.forkSlots hf₁).trans ha'⟩
      rw [forkLoop, h₁, ok_bind]
      simp only [pageSize]
      rw [show i * 4096 + 4096 = (i + 1) * 4096 by omega]
      exact h'

/-- A fresh tree for the child makes it a live process with an empty address space. -/
theorem MemSim.duplicate {m' : Memory} {c : ℕ} (hm : MemSim L m w pt) (hw' : w'.Wf L)
    (hfree : w.state c = .free)
    (hdup : World.duplicate c (w.setState c .runnable) = some w') (hw : w.Wf L)
    (htree : Tree m' (w'.frames c) (fun x => if x < 256 then kernelLeaf x else 0))
    (ha : AgreeOff 4096 (fun pn => ∃ j, pn = w'.frames c j) m m') :
    MemSim L m' w' (Function.update pt c (w'.frames c 0 * 4096)) := by
  have hc : w'.Live c := (duplicate_live hdup c).mpr (Or.inr rfl)
  refine ⟨hm.kernel.frame ha fun j' hj' => ?_, fun q hq => ?_, fun q hq => ?_⟩
  · obtain ⟨j, hj⟩ := hj'
    exact hw'.frames_ne_kernel hc j j' hj.symm
  · by_cases hqc : q = c
    · rw [hqc, Function.update_self]
    · rw [Function.update_of_ne hqc, duplicate_frames_of_ne hdup hqc]
      exact hm.root q (((duplicate_live hdup q).mp hq).resolve_right hqc)
  · by_cases hqc : q = c
    · subst q
      have hleaf : w'.leaf c = fun x => if x < 256 then kernelLeaf x else 0 := by
        funext x
        rw [World.leaf, duplicate_held_page hdup, hw.dead c _ hfree]
        rfl
      rw [hleaf]
      exact htree
    · have hql := ((duplicate_live hdup q).mp hq).resolve_right hqc
      have hleaf : w'.leaf q = w.leaf q := by
        funext x
        rw [World.leaf, World.leaf, duplicate_held_page hdup]
      rw [hleaf, duplicate_frames_of_ne hdup hqc]
      apply (hm.tree q hql).frame ha
      rintro j ⟨j', hj⟩
      rw [← duplicate_frames_of_ne hdup hqc] at hj
      exact hqc (hw'.frames_inj hq hc hj).1

/-- The pages that a fork from `w` may write: page 0, pages that a new process holds for itself, and
free pages if it fails. -/
def ForkTouched (w w' : World) (next : Next) (pn : ℕ) : Prop :=
  pn = 0 ∨ (∃ c s, w.state c = .free ∧ w'.held (c, s) = some ⟨pn, true⟩) ∨
    next = .return ∧ (w.info pn).refcount = 0

theorem Sim.of_parts {k : Kernel} (pt : ℕ → ℕ) (hi : k.pageinfo = w.info) (hs : k.states = w.state)
    (hp : ∀ p, (k.processes p).pid = p) (hc : k.current = w.current)
    (hpt : ∀ p, w.Live p → (k.processes p).pagetable = pt p) (hm : MemSim L k.mem w pt) :
    Sim L k w :=
  ⟨hi, hs, hp, hc, hm.kernel, fun p hl => (hpt p hl).trans (hm.root p hl), hm.tree⟩

/-- Registers and the display flag do not matter. -/
theorem Sim.updateProc {k : Kernel} (h : Sim L k w) (p : ℕ) {f : Proc → Proc}
    (hf : ∀ q, (f q).pid = q.pid ∧ (f q).state = q.state ∧ (f q).pagetable = q.pagetable) :
    Sim L (k.updateProc p f) w := by
  have hproc (q : ℕ) : ((k.updateProc p f).processes q).pid = (k.processes q).pid ∧
      ((k.updateProc p f).processes q).state = (k.processes q).state ∧
      ((k.updateProc p f).processes q).pagetable = (k.processes q).pagetable := by
    rw [Kernel.updateProc_apply]
    split_ifs with hq
    · rw [hq]
      exact hf _
    · exact ⟨rfl, rfl, rfl⟩
  refine Sim.of_parts _ h.info ?_ (fun q => (hproc q).1.trans (h.pid q)) h.current
    (fun q _ => (hproc q).2.2) h.mem
  rw [← h.state]
  funext q
  exact (hproc q).2.1

theorem Sim.setRax {k : Kernel} (h : Sim L k w) (p : ℕ) (v : BitVec 64) :
    Sim L (k.setRax p v) w := h.updateProc p fun _ => ⟨rfl, rfl, rfl⟩

/-- Slot `c` has been filled in; in other slots at most registers have changed. -/
structure SlotWritten (k k' : Kernel) (c : ℕ) (st : ProcState) (pt : ℕ) : Prop where
  current : k'.current = k.current
  pid : ∀ q, (k'.processes q).pid = if q = c then c else (k.processes q).pid
  state : k'.states = Function.update k.states c st
  pagetable : ∀ q, (k'.processes q).pagetable = if q = c then pt else (k.processes q).pagetable

theorem SlotWritten.of_processes {k k' : Kernel} {c pt : ℕ} {st : ProcState} {f : Proc → Proc}
    {v : BitVec 64} (hcur : k'.current = k.current)
    (hf : ∀ q, (f q).pid = c ∧ (f q).state = st ∧ (f q).pagetable = pt)
    (hproc : k'.processes = ((k.updateProc c f).setRax k.current v).processes) :
    SlotWritten k k' c st pt := by
  have hq (q : ℕ) : (k'.processes q).pid = (if q = c then c else (k.processes q).pid) ∧
      (k'.processes q).state = (if q = c then st else (k.processes q).state) ∧
      (k'.processes q).pagetable = (if q = c then pt else (k.processes q).pagetable) := by
    obtain ⟨h1, h2, h3⟩ := hf (k.processes c)
    rw [hproc, Kernel.setRax, Kernel.updateProc_apply, Kernel.updateProc_apply,
      Kernel.updateProc_apply]
    split_ifs <;> simp_all
  refine ⟨hcur, fun q => (hq q).1, ?_, fun q => (hq q).2.2⟩
  funext q
  rw [Function.update_apply]
  exact (hq q).2.1

/-- `INT_SYS_FORK` when it finds the free slot `c` but no memory for its tables. -/
theorem sysFork_fail {k : Kernel} {c : ℕ} {m' : Memory} {info' : PageInfos}
    (hslot : findFreeSlot k.states (nProc - 1) 1 = some c) (hne : k.current ≠ c)
    (hdup : duplicatePagetable k.mem k.pageinfo k.currentProc.pagetable c = .ok (m', info', 0)) :
    ∃ k', sysFork k = .ok (k', .return) ∧ k'.mem = m' ∧ k'.pageinfo = info' ∧
      SlotWritten k k' c .free 0 := by
  have hparent : (k.updateProc c fun q => { q with pid := c, state := .runnable }).currentProc =
      k.currentProc := k.updateProc_of_ne c _ hne
  have hk : ∃ k', sysFork k = .ok (k', .return) ∧ k'.mem = m' ∧ k'.pageinfo = info' := by
    unfold sysFork
    rw [hslot]
    simp only [Kernel.updateProc_mem, Kernel.updateProc_pageinfo]
    rw [hparent, hdup, ok_bind]
    exact ⟨_, rfl, rfl, rfl⟩
  obtain ⟨k', hk', hmem, hinfo⟩ := hk
  refine ⟨k', hk', hmem, hinfo, ?_⟩
  obtain ⟨hcur, ⟨hnone, -⟩ | ⟨c', hc', ⟨pt, hbr, -⟩ | ⟨-, hproc⟩⟩⟩ := sysFork_inv hk'
  · rw [show findFreeSlot k.states 15 1 = some c from hslot] at hnone
    cases hnone
  · cases hbr
  · rw [show findFreeSlot k.states 15 1 = some c from hslot] at hc'
    obtain rfl := Option.some.inj hc'
    exact .of_processes hcur (fun _ => ⟨rfl, rfl, rfl⟩) hproc

theorem sysFork_success {k : Kernel} {c pt : ℕ} {m₁ m' : Memory} {info₁ info' : PageInfos}
    (hslot : findFreeSlot k.states (nProc - 1) 1 = some c) (hne : k.current ≠ c) (hpt : pt ≠ 0)
    (hdup : duplicatePagetable k.mem k.pageinfo k.currentProc.pagetable c = .ok (m₁, info₁, pt))
    (hloop : forkLoop k.currentProc.pagetable pt c userPages procStartAddr (m₁, info₁) =
      .ok (m', info')) :
    ∃ k', sysFork k = .ok (k', .break) ∧ k'.mem = m' ∧ k'.pageinfo = info' ∧
      SlotWritten k k' c .runnable pt ∧
      k'.processes = ((k.updateProc c (childProc c pt k.currentProc.registers)).setRax k.current
        (BitVec.ofNat 64 c)).processes := by
  have hparent : (k.updateProc c fun q => { q with pid := c, state := .runnable }).currentProc =
      k.currentProc := k.updateProc_of_ne c _ hne
  have hk : ∃ k', sysFork k = .ok (k', .break) ∧ k'.mem = m' ∧ k'.pageinfo = info' ∧
      (k'.processes c).pagetable = pt := by
    unfold sysFork
    rw [hslot]
    simp only [Kernel.updateProc_mem, Kernel.updateProc_pageinfo]
    rw [hparent, hdup, ok_bind]
    dsimp only
    rw [if_pos hpt, hloop, ok_bind]
    refine ⟨_, rfl, rfl, rfl, ?_⟩
    simp [Kernel.setRax, Kernel.updateProc, Ne.symm hne]
  obtain ⟨k', hk', hmem, hinfo, hptc⟩ := hk
  refine ⟨k', hk', hmem, hinfo, ?_⟩
  obtain ⟨hcur, ⟨hnone, -⟩ | ⟨c', hc', ⟨pt', -, hproc⟩ | ⟨hret, -⟩⟩⟩ := sysFork_inv hk'
  · rw [show findFreeSlot k.states 15 1 = some c from hslot] at hnone
    cases hnone
  · rw [show findFreeSlot k.states 15 1 = some c from hslot] at hc'
    obtain rfl := Option.some.inj hc'
    obtain rfl : pt' = pt := by
      rw [← hptc, hproc, Kernel.setRax, Kernel.updateProc_of_ne _ _ _ (Ne.symm hne),
        Kernel.updateProc_same]
      rfl
    exact ⟨.of_processes hcur (fun _ => ⟨rfl, rfl, rfl⟩) hproc, hproc⟩
  · cases hret

theorem sysFork_ok {k : Kernel} (h : Sim L k w) (hw : w.Wf L) (hchk : w.Checked L)
    (hrun : w.Live w.current) :
    ∃ k', sysFork k = .ok (k', w.fork.2) ∧ Sim L k' w.fork.1 ∧
      AgreeOff 4096 (ForkTouched w w.fork.1 w.fork.2) k.mem k'.mem := by
  unfold World.fork
  cases hslot : findFreeSlot w.state (nProc - 1) 1 with
  | none =>
      rw [← h.state] at hslot
      exact ⟨k.setRax k.current (-1), by rw [sysFork, hslot], h.setRax _ _, AgreeOff.refl _ _ _⟩
  | some c =>
      obtain ⟨hc1, hc2, hfree, -⟩ := findFreeSlot_some hslot
      rw [← h.state] at hslot
      simp only [nProc] at hc2
      have hc16 : c < 16 := by omega
      have hne : w.current ≠ c := by
        rintro rfl
        exact hrun hfree
      have hne' : k.current ≠ c := by rwa [h.current]
      have hpt : k.currentProc.pagetable = w.frames w.current 0 * 4096 := by
        rw [Kernel.currentProc, h.current]
        exact h.mem.root _ hrun
      dsimp only
      cases hdup : World.duplicate c (w.setState c .runnable) with
      | none =>
          obtain ⟨f, -, hfail⟩ := duplicatePagetable_fail hc16 hdup
          obtain ⟨hd, ha⟩ := hfail k.mem k.currentProc.pagetable
          rw [setState_info, ← h.info] at hd
          obtain ⟨k', hk', hmem, hinfo, hslots⟩ := sysFork_fail hslot hne' hd
          dsimp only
          refine ⟨k', hk', Sim.of_parts (fun q => (k.processes q).pagetable) ?_ ?_
            (fun q => ?_) ?_ (fun q hq => ?_) ?_, ?_⟩
          · rw [hinfo, h.info]
          · rw [hslots.state, h.state, ← hfree, Function.update_eq_self]
          · rw [hslots.pid, h.pid, ite_eq_right_iff]
            exact Eq.symm
          · rw [hslots.current, h.current]
          · have hqc : q ≠ c := by
              rintro rfl
              exact hq hfree
            rw [hslots.pagetable, if_neg hqc]
          · rw [hmem]
            refine (h.mem.frame ha ?_ ?_).of_held rfl rfl
            · rintro j (h0 | ⟨-, hz⟩)
              · exact zero_ne_tables j h0.symm
              · rw [setState_info, hw.kernel _ (not_usable_tables j), pageinfoInit_tables] at hz
                cases hz
            · rintro q hq j (h0 | ⟨-, hz⟩)
              · exact hw.zero_ne_frames q hq j h0.symm
              · exact hchk.tablesCounted q hq j hz
          · rw [hmem]
            exact ha.mono fun pn hpn => hpn.imp_right fun hz => Or.inr ⟨rfl, hz.2⟩
      | some w' =>
          obtain ⟨m₁, hd, htree, ha⟩ := duplicatePagetable_ok (w := w.setState c .runnable) hc16
            (h.mem.tree _ hrun) (w.leaf_kernel _) (hchk.tablesCounted _ hrun) hdup
          rw [setState_info, ← h.info, ← hpt] at hd
          have hf := Forking.of_duplicate hw hchk hrun hfree hc1 hc16 hdup
          have hm₁ := h.mem.duplicate hf.wf hfree hdup hw htree ha
          have hn : 256 + userPages ≤ 1024 := by norm_num
          obtain ⟨m', hl, hm', ha'⟩ := forkLoop_ok hm₁ hf hc16 le_rfl hn
          rw [Function.update_self, Function.update_of_ne hne] at hl
          have hpt0 : w'.frames c 0 * 4096 ≠ 0 := by
            have := (duplicate_fresh hdup 0).1
            omega
          obtain ⟨k', hk', hmem, hinfo, hslots, -⟩ := sysFork_success hslot hne' hpt0 hd
            (by rw [← hl, Kernel.currentProc, h.current])
          obtain ⟨hst, hcur⟩ := World.forkSlots_state w.current c userPages 256 w'
          dsimp only
          rw [show procStartAddr / pageSize = 256 from rfl]
          refine ⟨k', hk', Sim.of_parts _ hinfo ?_ (fun q => ?_) ?_ (fun q hq => ?_)
            (hmem ▸ hm'), ?_⟩
          · rw [hslots.state, h.state, hst, (duplicate_spec hdup).state, setState_state]
          · rw [hslots.pid, h.pid, ite_eq_right_iff]
            exact Eq.symm
          · rw [hslots.current, h.current, hcur, (duplicate_spec hdup).current, setState_current]
          · rw [hslots.pagetable, Function.update_apply]
          · rw [hmem]
            apply (ha.mono _).trans (ha'.mono _)
            · rintro pn ⟨j, rfl⟩
              refine Or.inr (Or.inl ⟨c, .table j, hfree, ?_⟩)
              rw [forkSlots_held_of_ne (by simp), duplicate_held_table hdup]
            · rintro pn (h0 | ⟨s, hs⟩)
              · exact Or.inl h0
              · exact Or.inr (Or.inl ⟨c, s, hfree, hs⟩)

end WeensyOS
