import WeensyOS.Discipline

/-!
# Exact reference counts

The counts of `pageinfo` against the page tables as they stand in memory. A page is used as a table
if it can be reached from the root of a live process through present entries, and mapped if a lookup
leads to it. In disciplined runs the count is the number of such uses, so no page is ever lost.
-/

namespace WeensyOS
open ByteMemory World

/-- `pn` is the page of the table at `pt` or of one of the tables below, with `n` table levels below
it. -/
def tablePage (m : Memory) : ℕ → ℕ → ℕ → Prop
  | 0, pt, pn => pt / pageSize = pn
  | n + 1, pt, pn => pt / pageSize = pn ∨ ∃ i < nPagetableEntries, entry m pt i &&& pteP ≠ 0 ∧
      tablePage m n (pteAddr (entry m pt i)) pn

instance decidableTablePage (m : Memory) : ∀ n pt pn, Decidable (tablePage m n pt pn)
  | 0, _, _ => inferInstanceAs (Decidable (_ = _))
  | n + 1, _, _ =>
    have := decidableTablePage m n
    inferInstanceAs (Decidable (_ ∨ ∃ i, i < _ ∧ _))

namespace Kernel

/-- Process `p` uses page `pn` as a page-table page. -/
def usesTable (k : Kernel) (p pn : ℕ) : Prop :=
  k.Live p ∧ tablePage k.mem 3 (k.processes p).pagetable pn

/-- Process `p` maps its virtual page `i` to page `pn`. -/
def maps (k : Kernel) (p i pn : ℕ) : Prop :=
  k.Live p ∧ (virtualMemoryLookup k.mem (k.processes p).pagetable (i * pageSize)).pn = pn

instance (k : Kernel) (p pn : ℕ) : Decidable (k.usesTable p pn) :=
  inferInstanceAs (Decidable (_ ∧ _))

instance (k : Kernel) (p i pn : ℕ) : Decidable (k.maps p i pn) :=
  inferInstanceAs (Decidable (_ ∧ _))

/-- The live processes that use `pn` as a table, and the pairs of a live process and a virtual page
in `[PROC_START_ADDR, MEMSIZE_VIRTUAL)` mapped to it. -/
def references (k : Kernel) (pn : ℕ) : ℕ :=
  ((Finset.range nProc).filter (fun p => k.usesTable p pn)).card +
    ((Finset.range nProc ×ˢ Finset.Ico 256 768).filter (fun x => k.maps x.1 x.2 pn)).card

end Kernel

theorem tablePage_one {m : Memory} {t t' n pn : ℕ} (ht' : t' < 512)
    (he : ∀ i < 512, entry m (t * 4096) i = if i = 0 then t' * 4096 + 7 else 0) :
    tablePage m (n + 1) (t * 4096) pn ↔ t = pn ∨ tablePage m n (t' * 4096) pn := by
  have hpres : (t' * 4096 + 7) &&& pteP ≠ 0 := by
    rw [frame_and_flag (by norm_num) (by norm_num)]
    norm_num
  rw [tablePage, pageSize, Nat.mul_div_cancel _ (by norm_num)]
  apply or_congr_right
  constructor
  · rintro ⟨i, hi, hp, ht⟩
    rw [he i hi] at hp ht
    split_ifs at hp ht
    · rwa [pteAddr_frame (by omega) (by norm_num)] at ht
    · simp at hp
  · intro ht
    refine ⟨0, by norm_num, ?_⟩
    rw [he 0 (by norm_num), if_pos rfl, pteAddr_frame (by omega) (by norm_num)]
    exact ⟨hpres, ht⟩

theorem tablePage_two {m : Memory} {t t₁ t₂ n pn : ℕ} (ht₁ : t₁ < 512) (ht₂ : t₂ < 512)
    (he : ∀ i < 512, entry m (t * 4096) i =
      if i = 0 then t₁ * 4096 + 7 else if i = 1 then t₂ * 4096 + 7 else 0) :
    tablePage m (n + 1) (t * 4096) pn ↔
      t = pn ∨ tablePage m n (t₁ * 4096) pn ∨ tablePage m n (t₂ * 4096) pn := by
  have hpres (x : ℕ) : (x * 4096 + 7) &&& pteP ≠ 0 := by
    rw [frame_and_flag (by norm_num) (by norm_num)]
    norm_num
  rw [tablePage, pageSize, Nat.mul_div_cancel _ (by norm_num)]
  apply or_congr_right
  constructor
  · rintro ⟨i, hi, hp, ht⟩
    rw [he i hi] at hp ht
    split_ifs at hp ht
    · rw [pteAddr_frame (by omega) (by norm_num)] at ht
      exact Or.inl ht
    · rw [pteAddr_frame (by omega) (by norm_num)] at ht
      exact Or.inr ht
    · simp at hp
  · rintro (ht | ht)
    · refine ⟨0, by norm_num, ?_⟩
      rw [he 0 (by norm_num), if_pos rfl, pteAddr_frame (by omega) (by norm_num)]
      exact ⟨hpres t₁, ht⟩
    · refine ⟨1, by norm_num, ?_⟩
      rw [he 1 (by norm_num), if_neg (by norm_num), if_pos rfl,
        pteAddr_frame (by omega) (by norm_num)]
      exact ⟨hpres t₂, ht⟩

theorem Tree.tablePage_iff {m : Memory} {F : Fin 5 → ℕ} {leaf : ℕ → ℕ} (h : Tree m F leaf)
    (pn : ℕ) : tablePage m 3 (F 0 * 4096) pn ↔ ∃ j, F j = pn := by
  have hleaf (t : ℕ) : tablePage m 0 (t * 4096) pn ↔ t = pn := by
    rw [tablePage, pageSize, Nat.mul_div_cancel _ (by norm_num)]
  rw [tablePage_one (h.lt 1) h.l1, tablePage_one (h.lt 2) h.l2,
    tablePage_two (h.lt 3) (h.lt 4) h.l3, hleaf, hleaf, Fin.exists_fin_succ]
  simp [Fin.exists_fin_succ]

/-- References counted by kind. A process has each page at most once among its tables. -/
theorem World.Tallied.refs_eq {T : ℕ → Tally} {L : KernelLayout} {w : World} (h : Tallied T L w)
    (hw : w.Wf L) (pn : ℕ) :
    w.refs pn = ((Finset.range 16).filter (fun p => ∃ j, w.frameAt (p, .table j) = some pn)).card +
      ((Finset.range 16 ×ˢ Finset.Ico 256 768).filter
        (fun x => w.frameAt (x.1, .page x.2) = some pn)).card := by
  set tables := (Finset.range 16).filter (fun p => ∃ j, w.frameAt (p, .table j) = some pn)
  set pages := (Finset.range 16 ×ˢ Finset.Ico 256 768).filter
    (fun x => w.frameAt (x.1, .page x.2) = some pn)
  set H := RefLedger.holders places w.frameAt pn
  have htables : ((H.filter (fun x => ∃ j, x.2 = .table j)).image Prod.fst) = tables := by
    ext p
    simp only [H, tables, Finset.mem_image, Finset.mem_filter, RefLedger.mem_holders,
      Finset.mem_range, Prod.exists, exists_and_right, exists_eq_right]
    constructor
    · rintro ⟨_, ⟨hx, hf⟩, j, rfl⟩
      exact ⟨mem_places_table.mp hx, j, hf⟩
    · rintro ⟨hp, j, hf⟩
      exact ⟨.table j, ⟨mem_places_table.mpr hp, hf⟩, j, rfl⟩
  have hinj : Set.InjOn Prod.fst (H.filter (fun x => ∃ j, x.2 = .table j) : Set (ℕ × Slot)) := by
    rintro ⟨p, s⟩ hx ⟨q, t⟩ hy rfl
    simp only [H, Finset.coe_filter, RefLedger.mem_holders, Set.mem_ofPred_eq] at hx hy
    obtain ⟨r, hr, hf⟩ := frameAt_eq_some.mp hx.1.2
    obtain ⟨r', hr', hf'⟩ := frameAt_eq_some.mp hy.1.2
    rw [h.inj_process hw hr hr' (hf.trans hf'.symm)]
  have hpages : H.filter (fun x => ¬ ∃ j, x.2 = .table j) =
      pages.image (fun x => (x.1, Slot.page x.2)) := by
    ext ⟨p, s⟩
    simp only [H, pages, Finset.mem_image, Finset.mem_filter, RefLedger.mem_holders,
      Finset.mem_product, Finset.mem_range, Finset.mem_Ico, Prod.exists, Prod.mk.injEq]
    constructor
    · rintro ⟨⟨hx, hf⟩, hs⟩
      rcases s with j | i
      · exact absurd ⟨j, rfl⟩ hs
      · obtain ⟨hp, hi⟩ := mem_places_page.mp hx
        exact ⟨p, i, ⟨⟨hp, hi⟩, hf⟩, rfl, rfl⟩
    · rintro ⟨_, i, ⟨⟨hp, hi⟩, hf⟩, rfl, rfl⟩
      exact ⟨⟨mem_places_page.mpr ⟨hp, hi⟩, hf⟩, by simp⟩
  have hpinj : Function.Injective (fun x : ℕ × ℕ => (x.1, Slot.page x.2)) := by
    rintro ⟨p, i⟩ ⟨q, i'⟩ heq
    simp only [Prod.mk.injEq, Slot.page.injEq] at heq
    rw [heq.1, heq.2]
  have hsplit := Finset.card_filter_add_card_filter_not (s := H) (fun x => ∃ j, x.2 = .table j)
  rw [← htables, Finset.card_image_of_injOn hinj, ← Finset.card_image_of_injective pages hpinj,
    ← hpages]
  exact hsplit.symm

section uses
variable {L : KernelLayout} {M : Machine} {w : World}

theorem Represents.usesTable_iff (h : Represents L M w) (p pn : ℕ) :
    M.kernel.usesTable p pn ↔ ∃ j, w.frameAt (p, .table j) = some pn := by
  unfold Kernel.usesTable
  rw [h.sim.live]
  constructor
  · rintro ⟨hp, ht⟩
    rw [h.sim.mem.root p hp, (h.sim.mem.tree p hp).tablePage_iff] at ht
    obtain ⟨j, hj⟩ := ht
    exact ⟨j, frameAt_eq_some.mpr ⟨_, h.wf.tables p hp j, hj⟩⟩
  · rintro ⟨j, hj⟩
    obtain ⟨r, hr, rfl⟩ := frameAt_eq_some.mp hj
    have hp : w.Live p := fun hd => by rw [h.wf.dead p _ hd] at hr; cases hr
    refine ⟨hp, ?_⟩
    rw [h.sim.mem.root p hp, (h.sim.mem.tree p hp).tablePage_iff]
    exact ⟨j, by rw [frames, hr]⟩

theorem Represents.maps_iff (h : Represents L M w) (p pn : ℕ) {i : ℕ} (hi : 256 ≤ i)
    (hi' : i < 768) : M.kernel.maps p i pn ↔ w.frameAt (p, .page i) = some pn := by
  unfold Kernel.maps
  rw [h.sim.live, pageSize, frameAt_eq_some]
  constructor
  · rintro ⟨hp, hm⟩
    rw [h.lookup hp hi (by omega)] at hm
    cases hr : w.held (p, .page i) with
    | none =>
        rw [hr] at hm
        simp [Ref.mapping, VaMapping.unmapped] at hm
    | some r =>
        rw [hr] at hm
        exact ⟨r, rfl, by simpa [Ref.mapping] using hm⟩
  · rintro ⟨r, hr, rfl⟩
    have hp : w.Live p := fun hd => by rw [h.wf.dead p _ hd] at hr; cases hr
    refine ⟨hp, ?_⟩
    rw [h.lookup hp hi (by omega), hr]
    rfl

theorem Represents.references_eq {T : ℕ → Tally} (h : Represents L M w) (ht : Tallied T L w)
    (pn : ℕ) : M.kernel.references pn = w.refs pn := by
  rw [ht.refs_eq h.wf, Kernel.references]
  congr 1
  · congr 1
    exact Finset.filter_congr fun p _ => h.usesTable_iff p pn
  · congr 1
    refine Finset.filter_congr fun x hx => ?_
    rw [Finset.mem_product, Finset.mem_Ico] at hx
    exact h.maps_iff x.1 pn hx.2.1 hx.2.2

end uses

theorem Kernel.references_eq_zero (k : Kernel) (pn : ℕ) : k.references pn = 0 ↔
    (∀ p < nProc, ¬ k.usesTable p pn) ∧
      ∀ p < nProc, ∀ i, 256 ≤ i → i < 768 → ¬ k.maps p i pn := by
  rw [Kernel.references, Nat.add_eq_zero_iff, Finset.card_eq_zero, Finset.card_eq_zero,
    Finset.filter_eq_empty_iff, Finset.filter_eq_empty_iff]
  simp only [Finset.mem_range, Finset.mem_product, Finset.mem_Ico, Prod.forall, and_imp]
  exact and_congr_right fun _ => ⟨fun h p hp i => h p i hp, fun h p i hp => h p hp i⟩

section reach
variable {L : KernelLayout} {images : ℕ → ElfImage} {command : Option String} {M : Machine}

/-- In every state that a disciplined run reaches, the reference count of a page that is neither
reserved nor kernel memory is the number of its uses, and zero just for unused pages. -/
theorem reach_refcount (hfit : ImagesFit L images command) (hdisj : ImagesDisjoint images command)
    (h : Machine.Reach L images command Disciplined M) :
    ∀ pn, usable L pn → (M.kernel.pageinfo pn).refcount = M.kernel.references pn ∧
      ((M.kernel.pageinfo pn).refcount = 0 ↔ (∀ p < nProc, ¬ M.kernel.usesTable p pn) ∧
        ∀ p < nProc, ∀ i, 256 ≤ i → i < 768 → ¬ M.kernel.maps p i pn) := by
  obtain ⟨w, hw, hex⟩ := reach_exact hfit hdisj (fun _ _ he => he) h
  intro pn hu
  have hcount : (M.kernel.pageinfo pn).refcount = M.kernel.references pn := by
    rw [hw.references_eq hex, hw.sim.info, hex.refcount hu]
  refine ⟨hcount, ?_⟩
  rw [hcount, Nat.cast_eq_zero, Kernel.references_eq_zero]

theorem reach_refcount_sample : ∃ M,
    Machine.Reach sampleLayout (sampleImages 3) none Disciplined M ∧
      ∀ pn, usable sampleLayout pn →
        (M.kernel.pageinfo pn).refcount = M.kernel.references pn ∧
        ((M.kernel.pageinfo pn).refcount = 0 ↔ (∀ p < nProc, ¬ M.kernel.usesTable p pn) ∧
          ∀ p < nProc, ∀ i, 256 ≤ i → i < 768 → ¬ M.kernel.maps p i pn) := by
  obtain ⟨M, hM⟩ := sample_boots sampleLayout 3 none (by decide)
  exact ⟨M, .start hM, reach_refcount (sample_fits _ _ _ (by decide)) (sample_disjoint _ _)
    (.start hM)⟩

end reach

/-! Pages that are lost. -/

/-- Some live process has page `pn` as a table or maps it. -/
def Kernel.Referenced (k : Kernel) (pn : ℕ) : Prop :=
  ∃ p, k.usesTable p pn ∨ ∃ i, 256 ≤ i ∧ i < 768 ∧ k.maps p i pn

/-- Every page that is counted as used by a process is used by one. -/
def Kernel.NoLeak (k : Kernel) : Prop :=
  ∀ pn < nPages, (k.pageinfo pn).refcount ≠ 0 → 1 ≤ (k.pageinfo pn).owner → k.Referenced pn

/-- The steps of runs in which `page_alloc` may be given an address that is mapped already: timer
interrupts and the calls `getpid`, `yield`, `page_alloc`, `fork` and `exit`. -/
def Ranged (M : Machine) : Event → Prop
  | .store _ _ => False
  | .trap cpu t => t ∈ [Trap.timer, .getpid, .yield, .pageAlloc, .fork, .exit] ∧
      (t = .pageAlloc → inUserRange cpu.rdi.toNat) ∧ (t = .fork → M.kernel.ForkRoom)

/-- The step is no `page_alloc` that gets a page for an address that the caller has mapped. -/
def NoRemap (M : Machine) : Event → Prop
  | .store _ _ => True
  | .trap cpu t => t = .pageAlloc → (freePages M.kernel.pageinfo).Nonempty →
      M.kernel.Unmapped cpu.rdi.toNat

theorem Ranged.ordinary {M : Machine} {cpu : Cpu} {t : Trap} (h : Ranged M (.trap cpu t)) :
    t.ordinary = true := by
  have ht := h.1
  simp only [List.mem_cons, List.not_mem_nil, or_false] at ht
  rcases ht with rfl | rfl | rfl | rfl | rfl | rfl <;> rfl

theorem Ranged.disciplined {M : Machine} {e : Event} (h : Ranged M e) (hr : NoRemap M e) :
    Disciplined M e := by
  cases e with
  | store va b => trivial
  | trap cpu t => exact ⟨h.ordinary, fun ht => ⟨h.2.1 ht, hr ht⟩, h.2.2⟩

section leaks
variable {L : KernelLayout} {images : ℕ → ElfImage} {command : Option String} {M : Machine}
  {w : World}

theorem Represents.referenced_iff (h : Represents L M w) (hplace : ∀ x r, w.held x = some r →
    x ∈ places) (pn : ℕ) : M.kernel.Referenced pn ↔ ∃ x r, w.held x = some r ∧ r.frame = pn := by
  constructor
  · rintro ⟨p, hp | ⟨i, hi, hi', hm⟩⟩
    · obtain ⟨j, hj⟩ := (h.usesTable_iff p pn).mp hp
      exact ⟨_, frameAt_eq_some.mp hj⟩
    · exact ⟨_, frameAt_eq_some.mp ((h.maps_iff p pn hi hi').mp hm)⟩
  · rintro ⟨⟨p, j | i⟩, r, hr, hf⟩
    · exact ⟨p, Or.inl ((h.usesTable_iff p pn).mpr ⟨j, frameAt_eq_some.mpr ⟨r, hr, hf⟩⟩)⟩
    · obtain ⟨-, hi, hi'⟩ := mem_places_page.mp (hplace _ _ hr)
      exact ⟨p, Or.inr ⟨i, hi, hi', (h.maps_iff p pn hi hi').mpr
        (frameAt_eq_some.mpr ⟨r, hr, hf⟩)⟩⟩

theorem Represents.noLeak (h : Represents L M w) (hex : w.Exact L) : M.kernel.NoLeak := by
  intro pn hlt hr ho
  rw [h.sim.info] at hr ho
  have hu : usable L pn := by
    by_contra hu
    have hneg := pageinfoInit_owner hlt hu
    rw [← hex.kernel pn hu] at hneg
    omega
  rw [hex.refcount hu] at hr
  obtain ⟨x, -, hx⟩ := RefLedger.exists_of_count_pos (show 0 < w.refs pn by omega)
  rw [h.referenced_iff fun x r hx => (hex.place x r hx).1]
  exact ⟨x, frameAt_eq_some.mp hx⟩

/-- As long as no mapped address is allocated again, no page is lost; and when a process exits, the
pages that only it referred to are free. -/
theorem reach_noLeak (hfit : ImagesFit L images command) (hdisj : ImagesDisjoint images command)
    (h : Machine.Reach L images command (fun M e => Ranged M e ∧ NoRemap M e) M) :
    M.kernel.NoLeak ∧ ∀ cpu M', M.step L (.trap cpu .exit) = some M' →
      ∀ pn, usable L pn → (∀ p, p ≠ M.kernel.current → ¬ M.kernel.usesTable p pn ∧
        ∀ i, 256 ≤ i → i < 768 → ¬ M.kernel.maps p i pn) →
        (M'.kernel.pageinfo pn).refcount = 0 := by
  obtain ⟨w, hw, hex⟩ := reach_exact hfit hdisj (fun _ _ he => he.1.disciplined he.2) h
  refine ⟨hw.noLeak hex, fun cpu M' hs pn hu honly => ?_⟩
  have hrun := hw.live (Machine.step_resumed hs)
  obtain ⟨-, -, hw', -, -⟩ := step_refines hw rfl (fun ht => by cases ht) hs
  have hex' := hex.trap hw.wf hrun (Regular.other (t := .exit) cpu.rdi.toNat (by decide))
  rw [hw'.sim.info, hex'.refcount hu, Nat.cast_eq_zero]
  by_contra hne
  obtain ⟨⟨p, s⟩, hx, hf⟩ := RefLedger.exists_of_count_pos (Nat.pos_of_ne_zero hne)
  obtain ⟨r, hr, hrf⟩ := frameAt_eq_some.mp hf
  rw [World.trap, (leave_same _ _).held] at hr
  change w.exit.held (p, s) = some r at hr
  rw [exit_held hw.wf hrun] at hr
  split_ifs at hr with hp
  rw [← hw.sim.current] at hp
  obtain ⟨htable, hmap⟩ := honly p hp
  have hf' := frameAt_eq_some.mpr ⟨r, hr, hrf⟩
  rcases s with j | i
  · exact htable ((hw.usesTable_iff p pn).mpr ⟨j, hf'⟩)
  · obtain ⟨-, hi, hi'⟩ := mem_places_page.mp hx
    exact hmap i hi hi' ((hw.maps_iff p pn hi hi').mpr hf')

theorem reach_noLeak_sample : ∃ M, Machine.Reach sampleLayout (sampleImages 3) none
    (fun M e => Ranged M e ∧ NoRemap M e) M ∧ M.kernel.NoLeak := by
  obtain ⟨M, hM⟩ := sample_boots sampleLayout 3 none (by decide)
  exact ⟨M, .start hM, (reach_noLeak (sample_fits _ _ _ (by decide)) (sample_disjoint _ _)
    (.start hM)).1⟩

/-- A process that allocates its first page anew leaves the old one counted but out of reach. -/
theorem not_noLeak : ¬ ∀ M, Machine.Reach sampleLayout (sampleImages 0) (some "fork") Ranged M →
    M.kernel.NoLeak := by
  intro hall
  obtain ⟨M, hM⟩ := sample_boots sampleLayout 0 (some "fork") (by decide)
  obtain ⟨w, hw, hrep, hres⟩ := sample_world sampleLayout (by norm_num) hM
  have hinit := (card_freePages_init sampleLayout).1
  have hroom := hw.room
  obtain ⟨pn, hpn⟩ := exists_lowestFree (show 0 < (freePages w.info).card by omega)
  obtain ⟨f, hf⟩ := hw.code 256 le_rfl (by norm_num)
  have hinfo := hw.booting.counted _ _ _ hf
  have hrdi : (sampleCpu 0x100000).rdi.toNat = 0x100000 := rfl
  obtain ⟨M', hs, hrep', -⟩ := step_exists (sampleCpu 0x100000) .pageAlloc hrep hres
    (hw.booting.checked hw.complete) rfl trivial fun _ =>
      ⟨fun _ _ => rfl, fun _ _ _ => by rw [hrdi]⟩
  have hranged : Ranged M (.trap (sampleCpu 0x100000) .pageAlloc) :=
    ⟨by simp, fun _ => by rw [hrdi]; exact ⟨rfl, by norm_num, by norm_num⟩, fun ht => by cases ht⟩
  have hreach : Machine.Reach sampleLayout (sampleImages 0) (some "fork") Ranged M' :=
    .next (.start hM) hranged hs
  have hleave := leave_same (w.pageAlloc w.current 0x100000) .break
  rw [hrdi] at hrep'
  change Represents sampleLayout M' ((w.pageAlloc w.current 0x100000).leave .break).1 at hrep'
  rw [hw.current, pageAlloc_give (by norm_num) (by norm_num) hpn] at hrep' hleave
  have hne : f ≠ pn := hw.booting.frame_ne_free hf (lowestFree_eq_some hpn).2.2
  have hold : M'.kernel.pageinfo f = ⟨1, 1⟩ := by
    rw [hrep'.sim.info, hleave.info, give_info, Function.update_of_ne hne]
    exact hinfo
  have hlt : f < 512 := (hw.booting.frame_usable hf).lt
  obtain ⟨p, huse⟩ := hall M' hreach f hlt (by rw [hold]; norm_num) (by rw [hold])
  have hgone (s : Slot) (hheld : ((w.give 1 (.page (0x100000 / 4096)) pn).leave .break).1.frameAt
      (p, s) = some f) : False := by
    obtain ⟨r, hr, hrf⟩ := frameAt_eq_some.mp hheld
    rw [hleave.held, give_held, Function.update_apply] at hr
    split_ifs at hr with hx
    · obtain rfl := Option.some.inj hr
      exact hne hrf.symm
    · exact hx (hw.booting.distinct _ _ _ _ hr hf hrf)
  rcases huse with ht | ⟨i, hi, hi', hm⟩
  · obtain ⟨j, hj⟩ := (hrep'.usesTable_iff p f).mp ht
    exact hgone _ hj
  · exact hgone _ ((hrep'.maps_iff p f hi hi').mp hm)

end leaks

end WeensyOS
