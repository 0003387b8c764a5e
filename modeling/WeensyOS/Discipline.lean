import WeensyOS.Refinement
import WeensyOS.RefCounting
import Mathlib.Algebra.BigOperators.Intervals

/-!
# Disciplined runs

The side conditions under which the kernel's memory management is exact, stated on the kernel's own
state: `page_alloc` only at addresses of the process's range, forks only with enough free pages. In
a run that keeps to them the reference counts tally with the page tables.
-/

namespace WeensyOS
open ByteMemory World

/-- A page-aligned address in `[PROC_START_ADDR, MEMSIZE_VIRTUAL)`. -/
def inUserRange (addr : ℕ) : Prop :=
  addr % pageSize = 0 ∧ procStartAddr ≤ addr ∧ addr < memsizeVirtual

instance (addr : ℕ) : Decidable (inUserRange addr) := inferInstanceAs (Decidable (_ ∧ _ ∧ _))

namespace Kernel

def Unmapped (k : Kernel) (addr : ℕ) : Prop :=
  virtualMemoryLookup k.mem k.currentProc.pagetable addr = VaMapping.unmapped

/-- The number of the caller's writable pages in `[PROC_START_ADDR, MEMSIZE_VIRTUAL)`. -/
def writablePages (k : Kernel) : ℕ :=
  ((Finset.Ico 256 768).filter (fun i =>
    (virtualMemoryLookup k.mem k.currentProc.pagetable (i * pageSize)).perm &&& pteW ≠ 0)).card

/-- A fork that finds a free slot also finds memory for the tables and the copies. -/
def ForkRoom (k : Kernel) : Prop :=
  (findFreeSlot k.states (nProc - 1) 1).isSome →
    5 + k.writablePages ≤ (freePages k.pageinfo).card

end Kernel

variable {T : ℕ → Tally} {L : KernelLayout} {M : Machine} {w : World}

namespace World

/-- What the tallies ask of a trap. -/
structure Regular (T : ℕ → Tally) (w : World) (t : Trap) (addr : ℕ) : Prop where
  range : t = .pageAlloc → inUserRange addr
  lossy : t = .pageAlloc → ∀ r, w.held (w.current, .page (addr / 4096)) = some r →
    (lowestFree w.info).isSome → (T r.frame).Lossy
  room : t = .fork → (findFreeSlot w.state (nProc - 1) 1).isSome →
    5 + writableFrom w w.current userPages 256 ≤ (freePages w.info).card
  safe : t = .fork → (findFreeSlot w.state (nProc - 1) 1).isSome →
    ∀ x pn, w.held (w.current, .page x) = some ⟨pn, false⟩ → (T pn).safe (w.info pn).refcount

/-- Traps other than `page_alloc` and `fork` are always regular. -/
theorem Regular.other {t : Trap} (addr : ℕ) (ht : t ≠ .pageAlloc ∧ t ≠ .fork) :
    w.Regular T t addr :=
  ⟨fun h => absurd h ht.1, fun h => absurd h ht.1, fun h => absurd h ht.2,
    fun h => absurd h ht.2⟩

/-- An exact count cannot lose a reference, so the page that `page_alloc` maps was unmapped. -/
theorem Regular.empty {t : Trap} {addr : ℕ} (h : w.Regular (fun _ => Tally.exact) t addr)
    (ht : t = .pageAlloc) (hfree : (lowestFree w.info).isSome) :
    w.held (w.current, .page (addr / 4096)) = none := by
  cases hr : w.held (w.current, .page (addr / 4096)) with
  | none => rfl
  | some r =>
      have hlost := h.lossy ht r hr hfree 1 0 ⟨rfl, by norm_num⟩
      exact absurd hlost.1 (by norm_num)

/-- The two ledgers differ at most in the current process. -/
structure SameBut (w w' : World) : Prop where
  held : w'.held = w.held
  info : w'.info = w.info
  state : w'.state = w.state

theorem leave_same (w : World) (next : Next) : SameBut w (w.leave next).1 := by
  have hsched : SameBut w w.schedule.1 := by
    unfold World.schedule
    split <;> exact ⟨rfl, rfl, rfl⟩
  unfold World.leave
  split
  · exact ⟨rfl, rfl, rfl⟩
  · exact hsched
  · split_ifs
    · exact ⟨rfl, rfl, rfl⟩
    · exact hsched

namespace Tallied

theorem leave (h : Tallied T L w) (next : Next) : Tallied T L (w.leave next).1 :=
  h.of_same (leave_same w next).held (leave_same w next).info

theorem dispatch {t : Trap} {addr : ℕ} (h : Tallied T L w) (hw : w.Wf L) (hrun : w.Live w.current)
    (hreg : w.Regular T t addr) : Tallied T L (w.dispatch t addr).1 := by
  unfold World.dispatch
  split
  · exact h
  · exact h
  · obtain ⟨-, hlo, hhi⟩ := hreg.range rfl
    exact h.pageAlloc hw.current hlo hhi (hreg.lossy rfl)
  · exact h.fork hw hrun (hreg.safe rfl) (hreg.room rfl)
  · exact h.exit hw hrun
  · exact h.of_same rfl rfl
  · exact h

theorem trap {t : Trap} {addr : ℕ} (h : Tallied T L w) (hw : w.Wf L) (hrun : w.Live w.current)
    (hreg : w.Regular T t addr) : Tallied T L (w.trap t addr).1 :=
  (h.dispatch hw hrun hreg).leave _

/-- Loading has not lost a page, so each one is held once or free. -/
theorem of_booting (T : ℕ → Tally) (hb : Booting L w) (hc : Complete L w) : Tallied T L w := by
  have hplace (x : ℕ × Slot) (r : Ref) (hx : w.held x = some r) : x ∈ places := by
    obtain ⟨p, s⟩ := x
    have hp : p < 16 := by
      by_contra! hge
      rw [hb.wf.dead p s (hb.wf.above p hge)] at hx
      cases hx
    rcases s with j | i
    · exact mem_places_table.mpr hp
    · exact mem_places_page.mpr ⟨hp, (hb.wf.page_range p i r hx).1, hb.low p i r hx⟩
  refine ⟨fun pn hu => ?_, fun x r hx => ⟨hplace x r hx, hb.frame_usable hx⟩,
    fun p s pn hx => hb.counted p s _ hx, hb.wf.kernel⟩
  by_cases hheld : ∃ x r, w.held x = some r ∧ r.frame = pn
  · obtain ⟨x, r, hx, rfl⟩ := hheld
    have hone : w.refs r.frame = 1 := by
      refine le_antisymm (RefLedger.count_le_one fun y z hy hz => ?_)
        (RefLedger.count_pos (hplace x r hx) (frameAt_eq_some.mpr ⟨r, hx, rfl⟩))
      obtain ⟨r₁, hr₁, h₁⟩ := frameAt_eq_some.mp hy
      obtain ⟨r₂, hr₂, h₂⟩ := frameAt_eq_some.mp hz
      exact hb.distinct y z r₁ r₂ hr₁ hr₂ (h₁.trans h₂.symm)
    rw [hb.counted x.1 x.2 r hx, hone]
    exact (T r.frame).one
  · have hzero : w.refs pn = 0 := RefLedger.count_eq_zero fun x _ hx => by
      obtain ⟨r, hr, heq⟩ := frameAt_eq_some.mp hx
      exact hheld ⟨x, r, hr, heq⟩
    have hfree : (w.info pn).refcount = 0 := by
      by_contra hne
      exact hheld (hc pn hu hne)
    rw [hzero, hfree]
    exact (T pn).zero

/-- No page that a process may write is a table. -/
theorem tablesSafe (h : Tallied T L w) (hw : w.Wf L) : w.TablesSafe := by
  intro p i pn hheld q hq j heq
  have hx := h.unique hheld (hw.tables q hq j) heq.symm
  cases (Prod.mk.inj hx).2

/-- A process holds a page at most once: writable pages are held once at all, and read-only ones
always at the same address. -/
theorem inj_process (h : Tallied T L w) (hw : w.Wf L) {p : ℕ} {s t : Slot} {r r' : Ref}
    (hs : w.held (p, s) = some r) (ht : w.held (p, t) = some r') (heq : r.frame = r'.frame) :
    s = t := by
  obtain ⟨f, b⟩ := r
  obtain ⟨f', b'⟩ := r'
  have htable {j : Fin 5} {r : Ref} (hj : w.held (p, .table j) = some r) : r.writable = true := by
    have hp : w.Live p := fun hd => by rw [hw.dead p _ hd] at hj; cases hj
    rw [hw.tables p hp j] at hj
    rw [← Option.some.inj hj]
  dsimp only at heq
  subst f'
  cases b with
  | true => exact (Prod.mk.inj (h.unique hs ht rfl)).2
  | false =>
      cases b' with
      | true => exact (Prod.mk.inj (h.unique ht hs rfl)).2.symm
      | false =>
          rcases s with j | i
          · cases htable hs
          · rcases t with j | i'
            · cases htable ht
            · rw [hw.home p i p i' f hs ht]

theorem refs_le (h : Tallied T L w) (hw : w.Wf L) (pn : ℕ) : w.refs pn ≤ 16 := by
  refine RefLedger.count_le_of_injOn Prod.fst (Finset.range 16) (fun x hx _ => ?_)
    fun x _ y _ hx hy heq => ?_
  · exact (Finset.mem_product.mp hx).1
  · obtain ⟨r, hr, hf⟩ := frameAt_eq_some.mp hx
    obtain ⟨r', hr', hf'⟩ := frameAt_eq_some.mp hy
    obtain ⟨p, s⟩ := x
    obtain ⟨q, t⟩ := y
    obtain rfl : p = q := heq
    rw [h.inj_process hw hr hr' (hf.trans hf'.symm)]

end Tallied

theorem card_writable (w : World) (p n i : ℕ) :
    ((Finset.Ico i (i + n)).filter (fun x => w.writableAt p x = true)).card =
      writableFrom w p n i := by
  induction n generalizing i with
  | zero => simp [writableFrom]
  | succ n ih =>
      rw [writableFrom, ← ih, Finset.card_filter, Finset.card_filter,
        Finset.sum_eq_sum_Ico_succ_bot (by omega), show i + (n + 1) = i + 1 + n by omega]

end World

/-- The writable pages of a sample: its data pages and its stack. -/
theorem SampleWorld.writable_eq {n : ℕ} (hw : SampleWorld L n w) (hn : n ≤ 509) :
    writableFrom w 1 userPages 256 = n + 1 := by
  have hpages : (Finset.Ico 256 768).filter (fun x => w.writableAt 1 x = true) =
      insert 767 (Finset.Ico 258 (258 + n)) := by
    ext x
    rw [Finset.mem_filter, Finset.mem_Ico, Finset.mem_insert, Finset.mem_Ico, writableAt]
    constructor
    · rintro ⟨⟨hx, hx'⟩, hwr⟩
      by_contra! hne
      by_cases hlo : x < 258
      · obtain ⟨f, hf⟩ := hw.code x hx hlo
        rw [hf] at hwr
        cases hwr
      · rw [hw.rest x (hne.2 (by omega)) hne.1] at hwr
        cases hwr
    · rintro (rfl | ⟨hx, hx'⟩)
      · obtain ⟨f, hf⟩ := hw.stack
        rw [hf]
        exact ⟨⟨by norm_num, by norm_num⟩, rfl⟩
      · obtain ⟨f, hf⟩ := hw.data x hx hx'
        rw [hf]
        exact ⟨⟨by omega, by omega⟩, rfl⟩
  have hpn : 256 + userPages = 768 := by norm_num
  rw [← card_writable, hpn, hpages, Finset.card_insert_of_notMem, Nat.card_Ico,
    Nat.add_sub_cancel_left]
  rw [Finset.mem_Ico]
  omega

namespace Represents

variable {addr : ℕ}

theorem lookup (h : Represents L M w) {p i : ℕ} (hp : w.Live p) (hi : 256 ≤ i) (hi' : i < 1024) :
    virtualMemoryLookup M.kernel.mem (M.kernel.processes p).pagetable (i * 4096) =
      Ref.mapping (w.held (p, .page i)) := h.sim.mem.lookup_user h.wf hp hi hi'

theorem lookup_current (h : Represents L M w) (hrun : w.Live w.current) {i : ℕ} (hi : 256 ≤ i)
    (hi' : i < 1024) :
    virtualMemoryLookup M.kernel.mem M.kernel.currentProc.pagetable (i * 4096) =
      Ref.mapping (w.held (w.current, .page i)) := by
  rw [Kernel.currentProc, h.sim.current]
  exact h.lookup hrun hi hi'

theorem unmapped_iff (h : Represents L M w) (hrun : w.Live w.current) (haddr : inUserRange addr) :
    M.kernel.Unmapped addr ↔ w.held (w.current, .page (addr / 4096)) = none := by
  obtain ⟨halign, hlo, hhi⟩ := haddr
  simp only [pageSize, procStartAddr, memsizeVirtual] at halign hlo hhi
  have hlook := h.lookup_current hrun (i := addr / 4096) (by omega) (by omega)
  rw [show addr / 4096 * 4096 = addr by omega] at hlook
  unfold Kernel.Unmapped
  rw [hlook]
  rcases w.held (w.current, .page (addr / 4096)) with _ | ⟨f, _ | _⟩
  · simp [Ref.mapping]
  · simp [Ref.mapping, VaMapping.unmapped, Ref.perm]
  · simp [Ref.mapping, VaMapping.unmapped, Ref.perm]

theorem writablePages_eq (h : Represents L M w) (hrun : w.Live w.current) :
    M.kernel.writablePages = writableFrom w w.current userPages 256 := by
  have hn : 256 + userPages = 768 := by norm_num
  rw [Kernel.writablePages, ← World.card_writable, hn]
  congr 1
  refine Finset.filter_congr fun i hi => ?_
  rw [Finset.mem_Ico] at hi
  rw [pageSize, h.lookup_current hrun hi.1 (by omega), writableAt]
  rcases w.held (w.current, .page i) with _ | ⟨f, _ | _⟩
  · simp [Ref.mapping, VaMapping.unmapped]
  · simp [Ref.mapping, Ref.perm]
  · simp [Ref.mapping, Ref.perm]

theorem room (h : Represents L M w) (hrun : w.Live w.current) (hroom : M.kernel.ForkRoom) :
    (findFreeSlot w.state (nProc - 1) 1).isSome →
      5 + writableFrom w w.current userPages 256 ≤ (freePages w.info).card := by
  unfold Kernel.ForkRoom at hroom
  rwa [h.writablePages_eq hrun, h.sim.state, h.sim.info] at hroom

end Represents

theorem inUserRange.high {addr : ℕ} (h : inUserRange addr) : w.AllocHigh addr := by
  obtain ⟨-, hlo, hhi⟩ := h
  simp only [procStartAddr, memsizeVirtual] at hlo hhi
  intro _ _ _ _
  omega

/-- The steps that keep reference counts exact: stores of user code, and the calls of the kernel
where `page_alloc` gets an unmapped address of the process's range and `fork` has room. (Without a
free page `page_alloc` does nothing, whatever its address.) -/
def Disciplined (M : Machine) : Event → Prop
  | .store _ _ => True
  | .trap cpu t => t.ordinary = true ∧
      (t = .pageAlloc → inUserRange cpu.rdi.toNat ∧
        ((freePages M.kernel.pageinfo).Nonempty → M.kernel.Unmapped cpu.rdi.toNat)) ∧
      (t = .fork → M.kernel.ForkRoom)

/-- Exact reference counts. -/
abbrev World.Exact (L : KernelLayout) (w : World) : Prop := Tallied (fun _ => Tally.exact) L w

theorem World.Tallied.refcount (h : w.Exact L) {pn : ℕ} (hu : usable L pn) :
    (w.info pn).refcount = w.refs pn := (h.count pn hu).1

/-- Sharing never overflows an exact count: a page has at most one reference from each process. -/
theorem World.Tallied.exact_safe (h : w.Exact L) (hw : w.Wf L) {x : ℕ × Slot} {pn : ℕ}
    (hx : w.held x = some ⟨pn, false⟩) : Tally.exact.safe (w.info pn).refcount := by
  have hle := h.refs_le hw pn
  change (w.info pn).refcount < 127
  rw [h.refcount (show usable L pn from (h.place _ _ hx).2)]
  omega

theorem Disciplined.regular {cpu : Cpu} {t : Trap} (hd : Disciplined M (.trap cpu t))
    (h : Represents L M w) (hrun : w.Live w.current) (hex : w.Exact L) :
    w.Regular (fun _ => Tally.exact) t cpu.rdi.toNat := by
  obtain ⟨-, halloc, hfork⟩ := hd
  refine ⟨fun ht => (halloc ht).1, fun ht r hr hsome => ?_, fun ht => h.room hrun (hfork ht),
    fun _ _ x pn hx => hex.exact_safe h.wf hx⟩
  obtain ⟨hrange, hunmapped⟩ := halloc ht
  have hfree : (freePages M.kernel.pageinfo).Nonempty := by
    rwa [h.sim.info, freePages_nonempty]
  rw [(h.unmapped_iff hrun hrange).mp (hunmapped hfree)] at hr
  cases hr

theorem Disciplined.admits {e : Event} (hd : Disciplined M e) (h : Represents L M w)
    (hex : w.Exact L) : w.Admits e := by
  cases e with
  | store va b => exact hex.tablesSafe h.wf
  | trap cpu t => exact ⟨hd.1, fun ht => (hd.2.1 ht).1.high⟩

/-- Along disciplined runs the ledger behind the machine is exact. -/
theorem reach_exact {images : ℕ → ElfImage} {command : Option String}
    {ok : Machine → Event → Prop} (hfit : ImagesFit L images command)
    (hdisj : ImagesDisjoint images command) (hok : ∀ M e, ok M e → Disciplined M e)
    (h : Machine.Reach L images command ok M) : Tracks L (World.Exact L) M := by
  refine reach_represents hfit (fun w hboot hb => ?_) (fun M w e hw hex he => ?_)
    (fun M w cpu t hw hres _ hex he => ?_) h
  · exact Tallied.of_booting _ hb (boot_complete hfit hdisj hboot)
  · exact (hok M e he).admits hw hex
  · exact hex.trap hw.wf (hw.live hres) ((hok M _ he).regular hw (hw.live hres) hex)

end WeensyOS
