import WeensyOS.ReferenceCounts

/-!
# Where the pages are

Every page that the allocator may hand out is free, one of the five tables of a process, the only
copy of a writable page, or shared read-only, and none is two of these. So the free pages can be
told from what the processes map, and when the last process has gone all pages are back.
-/

namespace WeensyOS
open ByteMemory World RefLedger

namespace Kernel

/-- The processes that exist. -/
def live (k : Kernel) : Finset ℕ := (Finset.range nProc).filter k.Live

/-- How process `x.1` maps its virtual page `x.2`. -/
def pageMapping (k : Kernel) (x : ℕ × ℕ) : VaMapping :=
  virtualMemoryLookup k.mem (k.processes x.1).pagetable (x.2 * pageSize)

/-- The processes with their virtual pages in `[PROC_START_ADDR, MEMSIZE_VIRTUAL)`. -/
def userPlaces (k : Kernel) : Finset (ℕ × ℕ) := k.live ×ˢ Finset.Ico 256 768

def writablePlaces (k : Kernel) : Finset (ℕ × ℕ) :=
  k.userPlaces.filter fun x => (k.pageMapping x).perm &&& pteW ≠ 0

/-- The physical pages that some process maps read-only. -/
def readOnlyPages (k : Kernel) : Finset ℕ :=
  (k.userPlaces.filter fun x => (k.pageMapping x).perm &&& pteP ≠ 0 ∧
    (k.pageMapping x).perm &&& pteW = 0).image fun x => (k.pageMapping x).pn.toNat

end Kernel

variable {L : KernelLayout} {M : Machine} {w : World}

namespace World

/-- The places that hold a page for writing, or for reading only. -/
def holding (w : World) (writable : Bool) : Finset (ℕ × Slot) :=
  places.filter fun x => (w.held x).map Ref.writable = some writable

theorem mem_holding {x : ℕ × Slot} {b : Bool} :
    x ∈ w.holding b ↔ x ∈ places ∧ ∃ pn, w.held x = some ⟨pn, b⟩ := by
  rw [holding, Finset.mem_filter, Option.map_eq_some_iff]
  refine and_congr_right fun _ => ⟨?_, ?_⟩
  · rintro ⟨⟨pn, _⟩, hx, rfl⟩
    exact ⟨pn, hx⟩
  · rintro ⟨pn, hx⟩
    exact ⟨_, hx, rfl⟩

theorem mem_resources_holding {b : Bool} {pn : ℕ} :
    pn ∈ resources (w.holding b) w.frameAt ↔ ∃ x ∈ places, w.held x = some ⟨pn, b⟩ := by
  simp only [mem_resources, mem_holding, frameAt_eq_some]
  constructor
  · rintro ⟨x, ⟨hx, pn', hheld⟩, r, hr, rfl⟩
    obtain rfl := Option.some.inj (hheld.symm.trans hr)
    exact ⟨x, hx, hheld⟩
  · rintro ⟨x, hx, hheld⟩
    exact ⟨x, ⟨hx, pn, hheld⟩, _, hheld, rfl⟩

theorem resources_places : resources places w.frameAt =
    resources (w.holding true) w.frameAt ∪ resources (w.holding false) w.frameAt := by
  ext pn
  rw [Finset.mem_union, mem_resources_holding, mem_resources_holding, mem_resources]
  simp only [frameAt_eq_some]
  constructor
  · rintro ⟨x, hx, ⟨_, b⟩, hheld, rfl⟩
    cases b with
    | true => exact .inl ⟨x, hx, hheld⟩
    | false => exact .inr ⟨x, hx, hheld⟩
  · rintro (⟨x, hx, hheld⟩ | ⟨x, hx, hheld⟩) <;> exact ⟨x, hx, _, hheld, rfl⟩

namespace Tallied

variable {T : ℕ → Tally}

/-- A page that is held writable is held once. -/
theorem card_resources_writable (h : Tallied T L w) :
    (resources (w.holding true) w.frameAt).card = (w.holding true).card := by
  refine card_resources (fun x hx => ?_) (fun x hx y hy heq => ?_)
  · obtain ⟨-, pn, hheld⟩ := mem_holding.mp hx
    rw [frameAt, hheld]
    exact Option.some_ne_none _
  · obtain ⟨-, pn, hheld⟩ := mem_holding.mp hx
    obtain ⟨-, pn', hheld'⟩ := mem_holding.mp hy
    rw [frameAt, frameAt, hheld, hheld'] at heq
    exact h.unique hheld hheld' (Option.some.inj heq).symm

theorem disjoint_resources (h : Tallied T L w) :
    Disjoint (resources (w.holding true) w.frameAt) (resources (w.holding false) w.frameAt) := by
  refine RefLedger.disjoint_resources fun x hx y hy pn hxp hyp => ?_
  obtain ⟨-, _, hx⟩ := mem_holding.mp hx
  obtain ⟨-, _, hy⟩ := mem_holding.mp hy
  obtain ⟨r, hr, rfl⟩ := frameAt_eq_some.mp hxp
  obtain ⟨r', hr', heq⟩ := frameAt_eq_some.mp hyp
  obtain rfl := Option.some.inj (hx.symm.trans hr)
  obtain rfl := h.unique hx hr' heq
  cases hx.symm.trans hy

end Tallied

/-- With exact counts, the free pages are those that nobody holds. -/
theorem freePages_eq (h : w.Exact L) :
    freePages w.info = freePages (pageinfoInit L) \ resources places w.frameAt := by
  ext pn
  rw [Finset.mem_sdiff, freePages, freePages, Finset.mem_filter, Finset.mem_filter, and_assoc]
  refine and_congr_right fun hpn => ?_
  by_cases hu : usable L pn
  · rw [h.refcount hu, pageinfoInit_usable hu, Nat.cast_eq_zero, refs, count_eq_zero_iff]
    exact (and_iff_right rfl).symm
  · rw [h.kernel pn hu, pageinfoInit_refcount (Finset.mem_Ico.mp hpn).2 hu]
    norm_num

theorem resources_free (h : w.Exact L) :
    resources places w.frameAt ⊆ freePages (pageinfoInit L) := by
  refine resources_subset fun x _ pn hpn => ?_
  obtain ⟨r, hr, rfl⟩ := frameAt_eq_some.mp hpn
  have hu := (h.place x r hr).2
  rw [freePages, Finset.mem_filter, Finset.mem_Ico, pageinfoInit_usable hu]
  exact ⟨⟨hu.pos, hu.lt⟩, rfl⟩

theorem card_freePages (h : w.Exact L) : (freePages w.info).card + (w.holding true).card +
    (resources (w.holding false) w.frameAt).card = (freePages (pageinfoInit L)).card := by
  have hcard := Finset.card_sdiff_add_card_eq_card (resources_free h)
  rw [← freePages_eq h, resources_places, Finset.card_union_of_disjoint h.disjoint_resources,
    h.card_resources_writable] at hcard
  omega

end World

/-! The same from the page tables. -/

section uses

theorem Represents.mem_live (h : Represents L M w) {p : ℕ} : p ∈ M.kernel.live ↔ w.Live p := by
  rw [Kernel.live, Finset.mem_filter, Finset.mem_range, h.sim.live]
  exact ⟨And.right, fun hp => ⟨h.wf.live_lt hp, hp⟩⟩

theorem Represents.mem_userPlaces (h : Represents L M w) {p i : ℕ} :
    (p, i) ∈ M.kernel.userPlaces ↔ w.Live p ∧ 256 ≤ i ∧ i < 768 := by
  rw [Kernel.userPlaces, Finset.mem_product, Finset.mem_Ico, h.mem_live]

theorem Represents.pageMapping_eq (h : Represents L M w) {p i : ℕ}
    (hx : (p, i) ∈ M.kernel.userPlaces) :
    M.kernel.pageMapping (p, i) = Ref.mapping (w.held (p, .page i)) := by
  obtain ⟨hp, hi, hi'⟩ := h.mem_userPlaces.mp hx
  rw [Kernel.pageMapping, pageSize]
  exact h.lookup hp hi (by omega)

theorem Ref.mapping_perm (o : Option Ref) :
    ((Ref.mapping o).perm &&& pteW ≠ 0 ↔ ∃ pn, o = some ⟨pn, true⟩) ∧
    ((Ref.mapping o).perm &&& pteP ≠ 0 ∧ (Ref.mapping o).perm &&& pteW = 0 ↔
      ∃ pn, o = some ⟨pn, false⟩) := by
  rcases o with _ | ⟨f, _ | _⟩ <;> simp [Ref.mapping, VaMapping.unmapped, Ref.perm]

/-- Five tables for each process, and its writable pages. -/
theorem Represents.card_holding (h : Represents L M w) (hex : w.Exact L) :
    (w.holding true).card = 5 * M.kernel.live.card + M.kernel.writablePlaces.card := by
  have hdead {p : ℕ} {s : Slot} {r : Ref} (hr : w.held (p, s) = some r) : w.Live p := fun hd => by
    rw [h.wf.dead p _ hd] at hr
    cases hr
  have htable : (w.holding true).filter (fun x => ∃ j, x.2 = .table j) =
      M.kernel.live ×ˢ Finset.univ.image Slot.table := by
    ext ⟨p, s⟩
    rw [Finset.mem_filter, mem_holding, Finset.mem_product, h.mem_live, Finset.mem_image]
    constructor
    · rintro ⟨⟨-, pn, hheld⟩, j, rfl⟩
      exact ⟨hdead hheld, j, Finset.mem_univ _, rfl⟩
    · rintro ⟨hp, j, -, rfl⟩
      exact ⟨⟨(hex.place _ _ (h.wf.tables p hp j)).1, _, h.wf.tables p hp j⟩, j, rfl⟩
  have hpage : (w.holding true).filter (fun x => ¬ ∃ j, x.2 = .table j) =
      M.kernel.writablePlaces.image (fun x => (x.1, Slot.page x.2)) := by
    ext ⟨p, s⟩
    rw [Finset.mem_filter, mem_holding, Finset.mem_image, Kernel.writablePlaces]
    constructor
    · rintro ⟨⟨hx, pn, hheld⟩, hs⟩
      cases s with
      | table j => exact absurd ⟨j, rfl⟩ hs
      | page i =>
          have hmem := h.mem_userPlaces.mpr ⟨hdead hheld, (mem_places_page.mp hx).2⟩
          refine ⟨(p, i), Finset.mem_filter.mpr ⟨hmem, ?_⟩, rfl⟩
          rw [h.pageMapping_eq hmem, (Ref.mapping_perm _).1]
          exact ⟨pn, hheld⟩
    · rintro ⟨⟨q, i⟩, hx, heq⟩
      obtain ⟨rfl, rfl⟩ := Prod.mk.inj heq
      obtain ⟨hmem, hperm⟩ := Finset.mem_filter.mp hx
      rw [h.pageMapping_eq hmem, (Ref.mapping_perm _).1] at hperm
      obtain ⟨pn, hheld⟩ := hperm
      exact ⟨⟨(hex.place _ _ hheld).1, pn, hheld⟩, by simp⟩
  have hinj : Function.Injective (fun x : ℕ × ℕ => (x.1, Slot.page x.2)) := by
    rintro ⟨p, i⟩ ⟨q, i'⟩ heq
    simp only [Prod.mk.injEq, Slot.page.injEq] at heq
    rw [heq.1, heq.2]
  have hfive : (Finset.univ.image Slot.table : Finset Slot).card = 5 := by decide
  rw [← Finset.card_filter_add_card_filter_not (s := w.holding true) (fun x => ∃ j, x.2 = .table j),
    htable, hpage, Finset.card_product, Finset.card_image_of_injective _ hinj, hfive, mul_comm]

theorem Represents.readOnlyPages_eq (h : Represents L M w) (hex : w.Exact L) :
    M.kernel.readOnlyPages = resources (w.holding false) w.frameAt := by
  ext pn
  rw [mem_resources_holding, Kernel.readOnlyPages, Finset.mem_image]
  constructor
  · rintro ⟨⟨p, i⟩, hx, hpn⟩
    obtain ⟨hmem, hperm⟩ := Finset.mem_filter.mp hx
    rw [h.pageMapping_eq hmem] at hpn
    rw [h.pageMapping_eq hmem, (Ref.mapping_perm _).2] at hperm
    obtain ⟨pn', hheld⟩ := hperm
    rw [hheld] at hpn
    obtain rfl : pn' = pn := hpn
    exact ⟨_, (hex.place _ _ hheld).1, hheld⟩
  · rintro ⟨⟨p, s⟩, hx, hheld⟩
    have hp : w.Live p := fun hd => by
      rw [h.wf.dead p _ hd] at hheld
      cases hheld
    cases s with
    | table j =>
        rw [h.wf.tables p hp j] at hheld
        cases hheld
    | page i =>
        have hmem := h.mem_userPlaces.mpr ⟨hp, (mem_places_page.mp hx).2⟩
        refine ⟨(p, i), Finset.mem_filter.mpr ⟨hmem, ?_⟩, ?_⟩
        · rw [h.pageMapping_eq hmem, (Ref.mapping_perm _).2]
          exact ⟨pn, hheld⟩
        · rw [h.pageMapping_eq hmem, hheld]
          rfl

end uses

section reach
variable {images : ℕ → ElfImage} {command : Option String}

/-- In every state that a disciplined run reaches, each page that was free at the start is free,
one of five tables of a process, one writable page of one process, or mapped read-only. Once no
process is left, all of them are free again. -/
theorem reach_accounts (hfit : ImagesFit L images command) (hdisj : ImagesDisjoint images command)
    (h : Machine.Reach L images command Disciplined M) :
    (freePages M.kernel.pageinfo).card + 5 * M.kernel.live.card + M.kernel.writablePlaces.card +
      M.kernel.readOnlyPages.card = (freePages (pageinfoInit L)).card ∧
    (M.kernel.live = ∅ → freePages M.kernel.pageinfo = freePages (pageinfoInit L)) := by
  obtain ⟨w, hw, hex⟩ := reach_exact hfit hdisj (fun _ _ he => he) h
  have hsum : (freePages M.kernel.pageinfo).card + 5 * M.kernel.live.card +
      M.kernel.writablePlaces.card + M.kernel.readOnlyPages.card =
        (freePages (pageinfoInit L)).card := by
    have hcard := card_freePages hex
    rw [hw.card_holding hex, ← hw.readOnlyPages_eq hex, ← hw.sim.info] at hcard
    omega
  refine ⟨hsum, fun hnone => ?_⟩
  have hwritable : M.kernel.writablePlaces = ∅ := by
    rw [Kernel.writablePlaces, Kernel.userPlaces, hnone, Finset.empty_product,
      Finset.filter_empty]
  have hshared : M.kernel.readOnlyPages = ∅ := by
    rw [Kernel.readOnlyPages, Kernel.userPlaces, hnone, Finset.empty_product,
      Finset.filter_empty, Finset.image_empty]
  rw [hnone, hwritable, hshared] at hsum
  refine Finset.eq_of_subset_of_card_le ?_ hsum.ge
  rw [hw.sim.info, freePages_eq hex]
  exact Finset.sdiff_subset

theorem reach_accounts_sample : ∃ M,
    Machine.Reach sampleLayout (sampleImages 3) none Disciplined M ∧
    (freePages M.kernel.pageinfo).card + 5 * M.kernel.live.card + M.kernel.writablePlaces.card +
      M.kernel.readOnlyPages.card = (freePages (pageinfoInit sampleLayout)).card := by
  obtain ⟨M, hM⟩ := sample_boots sampleLayout 3 none (by decide)
  exact ⟨M, .start hM, (reach_accounts (sample_fits _ _ _ (by decide)) (sample_disjoint _ _)
    (.start hM)).1⟩

end reach

end WeensyOS
