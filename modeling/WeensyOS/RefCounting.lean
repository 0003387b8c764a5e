import WeensyOS.TrapRefinement
import Mathlib.Data.Finset.Prod
import Mathlib.Data.Fintype.Basic

/-!
# Reference counting

The counts in `pageinfo` against the references that the ledger records. A `Tally` says how the two
are related for a page: exactly, or only as a bound modulo 256 once references can be overwritten.
Both relations survive the same operations, so the invariant `Tallied` is proved once for an
arbitrary choice of tallies.
-/

namespace WeensyOS
open RefLedger

/-- How a count `r` may relate to the number `n` of references. `safe` is what an increment asks of
the count. -/
structure Tally where
  rel : ℤ → ℕ → Prop
  safe : ℤ → Prop
  zero : rel 0 0
  one : rel 1 1
  single : ∀ n, rel 1 n → n ≤ 1
  free : ∀ n, rel 0 n → n = 0
  inc : ∀ r n, rel r n → safe r → rel (toInt8 (r + 1)) (n + 1)
  dec : ∀ r n, rel r (n + 1) → rel (toInt8 (r - 1)) n

namespace Tally

/-- The count is the number of references. -/
def exact : Tally where
  rel r n := r = n ∧ n ≤ 127
  safe r := r < 127
  zero := ⟨rfl, by norm_num⟩
  one := ⟨rfl, by norm_num⟩
  single n h := by omega
  free n h := by omega
  inc r n h hs := by
    rw [toInt8_eq_self (by omega) (by omega)]
    omega
  dec r n h := by
    rw [toInt8_eq_self (by omega) (by omega)]
    omega

/-- The unsigned value of the count is at least the number of references. -/
def wrapping : Tally where
  rel r n := (n : ℤ) ≤ r % 256 ∧ -128 ≤ r ∧ r ≤ 127
  safe r := r ≠ -1
  zero := by norm_num
  one := by norm_num
  single n h := by omega
  free n h := by omega
  inc r n h hs := by
    unfold toInt8
    omega
  dec r n h := by
    unfold toInt8
    omega

/-- A reference may disappear without being counted down. -/
def Lossy (T : Tally) : Prop := ∀ r n, T.rel r (n + 1) → T.rel r n

theorem wrapping_lossy : wrapping.Lossy := by
  intro r n h
  have hcount := h.1
  push_cast at hcount
  exact ⟨by omega, h.2⟩

end Tally

namespace World

/-- Where pages can be held: tables, and the addresses in `[PROC_START_ADDR, MEMSIZE_VIRTUAL)`. -/
def places : Finset (ℕ × Slot) :=
  Finset.range 16 ×ˢ (Finset.univ.image Slot.table ∪ (Finset.Ico 256 768).image Slot.page)

theorem mem_places_table {p : ℕ} {j : Fin 5} : (p, Slot.table j) ∈ places ↔ p < 16 := by
  simp [places]

theorem mem_places_page {p i : ℕ} : (p, Slot.page i) ∈ places ↔ p < 16 ∧ 256 ≤ i ∧ i < 768 := by
  simp [places]

def frameAt (w : World) (x : ℕ × Slot) : Option ℕ := (w.held x).map Ref.frame

/-- The number of references to page `pn`. -/
def refs (w : World) (pn : ℕ) : ℕ := count places w.frameAt pn

/-- The counts of usable pages tally with the references, and whatever a process holds writable is
its own and used by nobody else. -/
structure Tallied (T : ℕ → Tally) (L : KernelLayout) (w : World) : Prop where
  count : ∀ pn, usable L pn → (T pn).rel (w.info pn).refcount (w.refs pn)
  place : ∀ x r, w.held x = some r → x ∈ places ∧ usable L r.frame
  exclusive : ∀ p s pn, w.held (p, s) = some ⟨pn, true⟩ → w.info pn = ⟨p, 1⟩
  kernel : ∀ pn, ¬ usable L pn → w.info pn = pageinfoInit L pn

variable {T : ℕ → Tally} {L : KernelLayout} {w w' : World} {p c i pn : ℕ} {s : Slot} {r : Ref}

theorem frameAt_hold (w : World) (p : ℕ) (s : Slot) (r : Option Ref) :
    (w.hold p s r).frameAt = Function.update w.frameAt (p, s) (r.map Ref.frame) := by
  funext x
  by_cases hx : x = (p, s)
  · simp [frameAt, hx]
  · simp [frameAt, hx]

theorem refs_fill (hx : (p, s) ∈ places) (hempty : w.held (p, s) = none) (pn : ℕ) :
    (w.hold p s (some r)).refs pn = w.refs pn + if pn = r.frame then 1 else 0 := by
  rw [refs, frameAt_hold]
  exact count_fill r.frame pn hx (by rw [frameAt, hempty]; rfl)

theorem refs_clear (hx : (p, s) ∈ places) (hheld : w.held (p, s) = some r) (pn : ℕ) :
    (w.hold p s none).refs pn + (if pn = r.frame then 1 else 0) = w.refs pn := by
  rw [refs, frameAt_hold]
  exact count_clear hx (by rw [frameAt, hheld]; rfl)

theorem frameAt_eq_some {x : ℕ × Slot} :
    w.frameAt x = some pn ↔ ∃ r, w.held x = some r ∧ r.frame = pn := Option.map_eq_some_iff

/-- `page_alloc` at an address of the process's range, when there is a free page. -/
theorem pageAlloc_give {addr : ℕ} (hlo : 0x100000 ≤ addr) (hhi : addr < 0x300000)
    (hpn : lowestFree w.info = some pn) :
    w.pageAlloc p addr = w.give p (.page (addr / 4096)) pn := by
  rw [World.pageAlloc, hpn]
  dsimp only
  rw [if_pos ⟨hlo, by unfold inTree; omega⟩, show addr / pageSize % 1024 = addr / 4096 by
    simp only [pageSize]; omega]

namespace Tallied

theorem refs_pos (h : Tallied T L w) {x : ℕ × Slot} (hx : w.held x = some r) :
    0 < w.refs r.frame :=
  count_pos (h.place x r hx).1 (by rw [frameAt, hx]; rfl)

theorem counted (h : Tallied T L w) {x : ℕ × Slot} (hx : w.held x = some r) :
    (w.info r.frame).refcount ≠ 0 := by
  intro h0
  have hrel := h.count r.frame (h.place x r hx).2
  rw [h0] at hrel
  have := h.refs_pos hx
  have := (T r.frame).free _ hrel
  omega

theorem frame_ne_free (h : Tallied T L w) {x : ℕ × Slot} (hx : w.held x = some r)
    (hpn : (w.info pn).refcount = 0) : r.frame ≠ pn := by
  rintro rfl
  exact h.counted hx hpn

/-- What a process holds writable is held nowhere else. -/
theorem unique (h : Tallied T L w) {x y : ℕ × Slot} (hx : w.held x = some ⟨pn, true⟩)
    (hy : w.held y = some r) (hr : r.frame = pn) : x = y := by
  obtain ⟨hxp, hu⟩ := h.place x _ hx
  have hrel := h.count pn hu
  rw [h.exclusive x.1 x.2 pn hx] at hrel
  exact unique_of_count_le_one ((T pn).single _ hrel) hxp (by rw [frameAt, hx]; rfl)
    (h.place y r hy).1 (by rw [frameAt, hy, ← hr]; rfl)

theorem usable_of_free (h : Tallied T L w) (hlt : pn < 512) (hfree : (w.info pn).refcount = 0) :
    usable L pn := by
  by_contra hu
  rw [h.kernel pn hu, pageinfoInit_refcount hlt hu] at hfree
  cases hfree

theorem of_same (h : Tallied T L w) (hh : w'.held = w.held) (hi : w'.info = w.info) :
    Tallied T L w' := by
  have hf : w'.frameAt = w.frameAt := by
    funext x
    rw [frameAt, frameAt, hh]
  refine ⟨fun pn hu => ?_, ?_, ?_, ?_⟩
  · rw [hi, refs, hf]
    exact h.count pn hu
  · rw [hh]
    exact h.place
  · rw [hh, hi]
    exact h.exclusive
  · rw [hi]
    exact h.kernel

/-- Handing a free page to an empty place. -/
theorem give (h : Tallied T L w) (hx : (p, s) ∈ places) (hempty : w.held (p, s) = none)
    (hpn : lowestFree w.info = some pn) : Tallied T L (w.give p s pn) := by
  obtain ⟨-, hlt, hfree⟩ := lowestFree_eq_some hpn
  have hu := h.usable_of_free hlt hfree
  have hheld {y : ℕ × Slot} {r : Ref} (hy : (w.give p s pn).held y = some r) :
      (y = (p, s) ∧ r = ⟨pn, true⟩) ∨ w.held y = some r := by
    by_cases hyp : y = (p, s)
    · subst y
      rw [give_held, Function.update_self] at hy
      exact Or.inl ⟨rfl, (Option.some.inj hy).symm⟩
    · rw [give_held, Function.update_of_ne hyp] at hy
      exact Or.inr hy
  refine ⟨fun x hux => ?_, fun y r hy => ?_, fun q t x hy => ?_, fun x hux => ?_⟩
  · have hrefs : (w.give p s pn).refs x = w.refs x + if x = pn then 1 else 0 :=
      refs_fill (r := ⟨pn, true⟩) hx hempty x
    rw [hrefs, give_info]
    by_cases hxp : x = pn
    · subst x
      have hzero := h.count pn hu
      rw [hfree] at hzero
      rw [(T pn).free _ hzero, Function.update_self, if_pos rfl]
      exact (T pn).one
    · rw [Function.update_of_ne hxp, if_neg hxp, Nat.add_zero]
      exact h.count x hux
  · rcases hheld hy with ⟨rfl, rfl⟩ | hy
    · exact ⟨hx, hu⟩
    · exact h.place y r hy
  · rcases hheld hy with ⟨hqt, hr⟩ | hy
    · obtain ⟨rfl, -⟩ := Prod.mk.inj hqt
      obtain ⟨rfl, -⟩ := Ref.mk.inj hr
      rw [give_info, Function.update_self]
    · rw [give_info, Function.update_of_ne (h.frame_ne_free hy hfree)]
      exact h.exclusive q t x hy
  · rw [give_info, Function.update_of_ne, h.kernel x hux]
    rintro rfl
    exact hux hu

/-- Sharing a read-only page with an empty place. -/
theorem share (h : Tallied T L w) (hx : (p, s) ∈ places) (hempty : w.held (p, s) = none)
    {y : ℕ × Slot} (hy : w.held y = some ⟨pn, false⟩) (hsafe : (T pn).safe (w.info pn).refcount) :
    Tallied T L ((w.hold p s (some ⟨pn, false⟩)).setInfo pn
      ⟨(w.info pn).owner, toInt8 ((w.info pn).refcount + 1)⟩) := by
  have hu := (h.place y _ hy).2
  have hold {z : ℕ × Slot} {r : Ref} (hz : (w.hold p s (some ⟨pn, false⟩)).held z = some r) :
      (z = (p, s) ∧ r = ⟨pn, false⟩) ∨ w.held z = some r := by
    by_cases hzp : z = (p, s)
    · subst z
      rw [hold_held, Function.update_self] at hz
      exact Or.inl ⟨rfl, (Option.some.inj hz).symm⟩
    · rw [hold_held, Function.update_of_ne hzp] at hz
      exact Or.inr hz
  refine ⟨fun x hux => ?_, fun z r hz => ?_, fun q t x hz => ?_, fun x hux => ?_⟩
  · have hrefs : ((w.hold p s (some ⟨pn, false⟩)).setInfo pn
        ⟨(w.info pn).owner, toInt8 ((w.info pn).refcount + 1)⟩).refs x =
        w.refs x + if x = pn then 1 else 0 := refs_fill (r := ⟨pn, false⟩) hx hempty x
    rw [hrefs, setInfo_info, hold_info]
    by_cases hxp : x = pn
    · subst x
      rw [Function.update_self, if_pos rfl]
      exact (T pn).inc _ _ (h.count pn hu) hsafe
    · rw [Function.update_of_ne hxp, if_neg hxp, Nat.add_zero]
      exact h.count x hux
  · rcases hold hz with ⟨rfl, rfl⟩ | hz
    · exact ⟨hx, hu⟩
    · exact h.place z r hz
  · rcases hold hz with ⟨-, hr⟩ | hz'
    · cases hr
    · have hne : x ≠ pn := by
        rintro rfl
        rw [← h.unique hz' hy rfl, hz'] at hy
        cases hy
      rw [setInfo_info, Function.update_of_ne hne, hold_info]
      exact h.exclusive q t x hz'
  · rw [setInfo_info, Function.update_of_ne, hold_info, h.kernel x hux]
    rintro rfl
    exact hux hu

/-- Emptying a place, and changing the count of what it held accordingly. -/
theorem clear (h : Tallied T L w) (hheld : w.held (p, s) = some r) (info : PageInfos)
    (hcount : ∀ n, (T r.frame).rel (w.info r.frame).refcount (n + 1) → n + 1 = w.refs r.frame →
      (T r.frame).rel (info r.frame).refcount n)
    (hother : ∀ x, x ≠ r.frame → info x = w.info x)
    (hsame : r.writable = true ∨ ∀ q t, w.held (q, t) = some ⟨r.frame, true⟩ →
      info r.frame = w.info r.frame) :
    Tallied T L { w.hold p s none with info := info } := by
  obtain ⟨hx, hu⟩ := h.place _ _ hheld
  have hold {z : ℕ × Slot} {r' : Ref} (hz : (w.hold p s none).held z = some r') :
      z ≠ (p, s) ∧ w.held z = some r' := by
    by_cases hzp : z = (p, s)
    · subst z
      simp at hz
    · rw [hold_held, Function.update_of_ne hzp] at hz
      exact ⟨hzp, hz⟩
  refine ⟨fun x hux => ?_, fun z r' hz => h.place z r' (hold hz).2, fun q t x hz => ?_,
    fun x hux => ?_⟩
  · have hrefs := refs_clear hx hheld x
    change (T x).rel (info x).refcount ((w.hold p s none).refs x)
    by_cases hxr : x = r.frame
    · subst x
      rw [if_pos rfl] at hrefs
      refine hcount _ ?_ hrefs
      rw [hrefs]
      exact h.count _ hu
    · rw [if_neg hxr, Nat.add_zero] at hrefs
      rw [hother x hxr, hrefs]
      exact h.count x hux
  · obtain ⟨hne, hz⟩ := hold hz
    change info x = ⟨q, 1⟩
    by_cases hxr : x = r.frame
    · subst x
      rcases hsame with hw | hsame
      · have hr : w.held (p, s) = some ⟨r.frame, true⟩ := by rw [hheld, ← hw]
        exact absurd (h.unique hr hz rfl).symm hne
      · rw [hsame q t hz]
        exact h.exclusive q t _ hz
    · rw [hother x hxr]
      exact h.exclusive q t x hz
  · change info x = _
    rw [hother x, h.kernel x hux]
    rintro rfl
    exact hux hu

/-- Losing a reference uncounted. -/
theorem lose (h : Tallied T L w) (hheld : w.held (p, s) = some r) (hlossy : (T r.frame).Lossy) :
    Tallied T L (w.hold p s none) :=
  h.clear hheld w.info (fun n hn _ => hlossy _ n hn) (fun _ _ => rfl) (Or.inr fun _ _ _ => rfl)

/-- What exit does to the only reference to a page: the page is free again. -/
theorem free_owned (h : Tallied T L w) (hheld : w.held (p, s) = some ⟨pn, true⟩) :
    Tallied T L ((w.hold p s none).setInfo pn ⟨0, 0⟩) := by
  refine h.clear hheld (Function.update w.info pn ⟨0, 0⟩) (fun n hn _ => ?_)
    (fun x hx => Function.update_of_ne hx _ _) (Or.inl rfl)
  rw [h.exclusive p s pn hheld] at hn
  have hle := (T pn).single _ hn
  obtain rfl : n = 0 := by omega
  rw [Function.update_self]
  exact (T pn).zero

theorem unshare (h : Tallied T L w) (hheld : w.held (p, s) = some ⟨pn, false⟩) :
    Tallied T L ((w.hold p s none).setInfo pn
      ⟨(w.info pn).owner, toInt8 ((w.info pn).refcount - 1)⟩) := by
  refine h.clear hheld (Function.update w.info pn _) (fun n hn _ => ?_)
    (fun x hx => Function.update_of_ne hx _ _) (Or.inr fun q t hq => ?_)
  · rw [Function.update_self]
    exact (T pn).dec _ n hn
  · have hx := h.unique hq hheld rfl
    rw [hx, hheld] at hq
    cases hq

theorem pageAlloc {addr : ℕ} (h : Tallied T L w) (hp : p < 16) (hlo : 0x100000 ≤ addr)
    (hhi : addr < 0x300000)
    (hlossy : ∀ r, w.held (p, .page (addr / 4096)) = some r → (lowestFree w.info).isSome →
      (T r.frame).Lossy) :
    Tallied T L (w.pageAlloc p addr) := by
  cases hpn : lowestFree w.info with
  | none =>
      rw [World.pageAlloc, hpn]
      exact h
  | some pn =>
      have hx : (p, Slot.page (addr / 4096)) ∈ places :=
        mem_places_page.mpr ⟨hp, by omega, by omega⟩
      rw [pageAlloc_give hlo hhi hpn]
      cases hr : w.held (p, .page (addr / 4096)) with
      | none => exact h.give hx hr hpn
      | some r =>
          have hlost := (h.lose hr (hlossy r hr (by simp [hpn]))).give hx (by simp) hpn
          refine hlost.of_same ?_ rfl
          rw [give_held, give_held, hold_held, Function.update_idem]

theorem takeTables {js : List (Fin 5)} (h : Tallied T L w) (hnd : js.Nodup) (hc : c < 16)
    (hempty : ∀ j ∈ js, w.held (c, .table j) = none) (htake : js.foldlM (takeTable c) w = some w') :
    Tallied T L w' := by
  induction js generalizing w with
  | nil =>
      obtain rfl := Option.some.inj htake
      exact h
  | cons j js ih =>
      obtain ⟨hj, hnd'⟩ := List.nodup_cons.mp hnd
      rw [List.foldlM_cons, Option.bind_eq_bind, Option.bind_eq_some_iff] at htake
      obtain ⟨w₁, h₁, htake⟩ := htake
      obtain ⟨pn, hpn, rfl⟩ := Option.map_eq_some_iff.mp h₁
      refine ih (h.give (mem_places_table.mpr hc) (hempty j (by simp)) hpn) hnd' (fun j' hj' => ?_)
        htake
      have hne : j' ≠ j := by
        rintro rfl
        exact hj hj'
      rw [give_held, Function.update_of_ne (by simp [hne])]
      exact hempty j' (by simp [hj'])

theorem duplicate (h : Tallied T L w) (hc : c < 16) (hempty : ∀ s, w.held (c, s) = none)
    (hdup : World.duplicate c (w.setState c .runnable) = some w') : Tallied T L w' := by
  have h₁ : Tallied T L (w.setState c .runnable) := h.of_same rfl rfl
  exact h₁.takeTables (by decide) hc (fun j _ => hempty (.table j)) hdup

end Tallied

/-! The page loop of a fork takes one free page for each writable page. -/

def writableAt (w : World) (p i : ℕ) : Bool := (w.held (p, .page i)).any Ref.writable

def writableFrom (w : World) (p : ℕ) : ℕ → ℕ → ℕ
  | 0, _ => 0
  | n + 1, i => (if w.writableAt p i then 1 else 0) + writableFrom w p n (i + 1)

theorem writableFrom_congr (n i : ℕ) (h : ∀ x, w'.held (p, .page x) = w.held (p, .page x)) :
    writableFrom w' p n i = writableFrom w p n i := by
  induction n generalizing i with
  | zero => rfl
  | succ n ih => rw [writableFrom, writableFrom, ih, writableAt, writableAt, h]

theorem freePages_update_of_ne_zero {info : PageInfos} {v : PageInfo} (h : (info pn).refcount ≠ 0)
    (hv : v.refcount ≠ 0) : freePages (Function.update info pn v) = freePages info := by
  unfold freePages
  refine Finset.filter_congr fun x _ => ?_
  by_cases hx : x = pn
  · subst x
    simp [h, hv]
  · rw [Function.update_of_ne hx]

theorem incRefcount_usable (info : PageInfos) (hu : usable L pn) :
    incRefcount info pn = Function.update info pn
      ⟨(info pn).owner, toInt8 ((info pn).refcount + 1)⟩ := by
  have := hu.lt
  rw [incRefcount, if_pos (by simp only [nPages]; omega), Int.toNat_natCast]

namespace Tallied

theorem forkSlot (h : Tallied T L w) (hc : c < 16) (hi : 256 ≤ i) (hi' : i < 768)
    (hempty : w.held (c, .page i) = none)
    (hsafe : ∀ pn, w.held (p, .page i) = some ⟨pn, false⟩ → (T pn).safe (w.info pn).refcount)
    (hroom : w.writableAt p i = true → 0 < (freePages w.info).card) :
    Tallied T L (forkSlot p c i w) ∧
      (freePages (World.forkSlot p c i w).info).card + (if w.writableAt p i then 1 else 0) =
        (freePages w.info).card ∧
      ∀ x, (w.info x).refcount ≠ 0 → w.held (p, .page i) ≠ some ⟨x, false⟩ →
        (World.forkSlot p c i w).info x = w.info x := by
  have hx : (c, Slot.page i) ∈ places := mem_places_page.mpr ⟨hc, hi, hi'⟩
  unfold World.forkSlot writableAt
  unfold writableAt at hroom
  rcases hr : w.held (p, .page i) with _ | ⟨pn, _ | _⟩
  · exact ⟨h, rfl, fun _ _ _ => rfl⟩
  · have hu := (h.place _ _ hr).2
    have hshare := h.share hx hempty hr (hsafe pn hr)
    have hinfo := incRefcount_usable w.info hu
    dsimp only
    rw [hinfo]
    refine ⟨hshare, ?_, fun x _ hne => ?_⟩
    · have hcounted : (toInt8 ((w.info pn).refcount + 1)) ≠ 0 := by
        have := hshare.counted (x := (c, .page i)) (r := ⟨pn, false⟩) (by simp)
        simpa using this
      rw [freePages_update_of_ne_zero (h.counted hr) hcounted]
      rfl
    · refine Function.update_of_ne ?_ _ _
      rintro rfl
      exact hne rfl
  · rw [hr] at hroom
    obtain ⟨pn, hpn⟩ := exists_lowestFree (hroom rfl)
    rw [hpn]
    refine ⟨h.give hx hempty hpn, ?_, fun x hx0 _ => ?_⟩
    · exact card_freePages_assign c hpn
    · rw [give_info, Function.update_of_ne]
      rintro rfl
      exact hx0 (lowestFree_eq_some hpn).2.2

theorem forkSlot_shared (h : Tallied T L w) (hr : w.held (p, .page i) = some ⟨pn, false⟩) :
    (World.forkSlot p c i w).info pn =
      ⟨(w.info pn).owner, toInt8 ((w.info pn).refcount + 1)⟩ := by
  unfold World.forkSlot
  rw [hr]
  dsimp only
  rw [incRefcount_usable w.info (h.place _ _ hr).2, Function.update_self]

/-- What the page loop does to the counts of pages in use: those that the parent maps read-only go
up by one. -/
structure Recounted (p i n : ℕ) (w w' : World) : Prop where
  shared : ∀ x pn, i ≤ x → x < i + n → w.held (p, .page x) = some ⟨pn, false⟩ →
    w'.info pn = ⟨(w.info pn).owner, toInt8 ((w.info pn).refcount + 1)⟩
  other : ∀ pn, (w.info pn).refcount ≠ 0 →
    (∀ x, i ≤ x → w.held (p, .page x) ≠ some ⟨pn, false⟩) → w'.info pn = w.info pn

/-- The page loop of a fork of `p` into `c`, about to treat virtual page `i`, as far as the counts
go: the child has nothing yet from there on, and the counts of what is still to be shared can go up.
-/
structure Sharing (T : ℕ → Tally) (L : KernelLayout) (p c i : ℕ) (w : World) : Prop where
  tallied : Tallied T L w
  child : c < 16
  ne : p ≠ c
  empty : ∀ x, i ≤ x → w.held (c, .page x) = none
  home : ∀ x y pn, w.held (p, .page x) = some ⟨pn, false⟩ → w.held (p, .page y) = some ⟨pn, false⟩ →
    x = y
  safe : ∀ x pn, i ≤ x → w.held (p, .page x) = some ⟨pn, false⟩ → (T pn).safe (w.info pn).refcount

namespace Sharing

theorem parent (h : Sharing T L p c i w) (x : ℕ) :
    (World.forkSlot p c i w).held (p, .page x) = w.held (p, .page x) :=
  forkSlot_held_of_ne (by simp [h.ne])

theorem later (h : Sharing T L p c i w) (hi : 256 ≤ i) (hi' : i < 768)
    (hroom : w.writableAt p i = true → 0 < (freePages w.info).card) {x : ℕ} (hx : i < x)
    (hheld : w.held (p, .page x) = some ⟨pn, false⟩) :
    (World.forkSlot p c i w).info pn = w.info pn := by
  apply (h.tallied.forkSlot h.child hi hi' (h.empty i le_rfl) (fun pn => h.safe i pn le_rfl)
    hroom).2.2 pn (h.tallied.counted hheld)
  intro hi'
  have := h.home i x pn hi' hheld
  omega

theorem next (h : Sharing T L p c i w) (hi : 256 ≤ i) (hi' : i < 768)
    (hroom : w.writableAt p i = true → 0 < (freePages w.info).card) :
    Sharing T L p c (i + 1) (World.forkSlot p c i w) := by
  refine ⟨(h.tallied.forkSlot h.child hi hi' (h.empty i le_rfl) (fun pn => h.safe i pn le_rfl)
    hroom).1, h.child, h.ne, fun x hx => ?_, fun x y pn => ?_, fun x pn hx hheld => ?_⟩
  · rw [forkSlot_held_of_ne (by simp; omega)]
    exact h.empty x (by omega)
  · rw [h.parent, h.parent]
    exact h.home x y pn
  · rw [h.parent] at hheld
    rw [h.later hi hi' hroom (by omega) hheld]
    exact h.safe x pn (by omega) hheld

theorem card (h : Sharing T L p c i w) (hi : 256 ≤ i) (hi' : i < 768)
    (hroom : w.writableAt p i = true → 0 < (freePages w.info).card) :
    (freePages (World.forkSlot p c i w).info).card + (if w.writableAt p i then 1 else 0) =
      (freePages w.info).card :=
  (h.tallied.forkSlot h.child hi hi' (h.empty i le_rfl) (fun pn => h.safe i pn le_rfl) hroom).2.1

theorem forkSlots {n : ℕ} (h : Sharing T L p c i w) (hi : 256 ≤ i) (hn : i + n ≤ 768)
    (hroom : writableFrom w p n i ≤ (freePages w.info).card) :
    Tallied T L (forkSlots p c n i w) ∧ Recounted p i n w (World.forkSlots p c n i w) := by
  induction n generalizing i w with
  | zero => exact ⟨h.tallied, fun x pn hx hx' => by omega, fun _ _ _ => rfl⟩
  | succ n ih =>
      rw [writableFrom] at hroom
      have hone (hw : w.writableAt p i = true) : 0 < (freePages w.info).card := by
        rw [if_pos hw] at hroom
        omega
      have hcard := h.card hi (by omega) hone
      have hnext := h.next hi (by omega) hone
      obtain ⟨h₂, hrec⟩ := ih hnext (by omega) (by omega) (by
        rw [writableFrom_congr n (i + 1) h.parent]
        omega)
      refine ⟨h₂, fun x pn hx hx' hheld => ?_, fun pn hpn hnot => ?_⟩
      · by_cases hxi : x = i
        · -- Counted up in this round, and at no other address.
          subst x
          have hlast := hrec.other pn (hnext.tallied.counted ((h.parent i).trans hheld))
            fun y hy hy' => by
              rw [h.parent] at hy'
              have := h.home i y pn hheld hy'
              omega
          rw [World.forkSlots, hlast, h.tallied.forkSlot_shared hheld]
        · rw [World.forkSlots, hrec.shared x pn (by omega) (by omega) ((h.parent x).trans hheld),
            h.later hi (by omega) hone (by omega) hheld]
      · have hsame := (h.tallied.forkSlot h.child hi (by omega) (h.empty i le_rfl)
          (fun pn => h.safe i pn le_rfl) hone).2.2 pn hpn (hnot i le_rfl)
        rw [World.forkSlots, hrec.other pn (by rwa [hsame]) fun x hx => by
          rw [h.parent]; exact hnot x (by omega), hsame]

/-- A page loop with fewer free pages than writable ones maps page 0 into the child. -/
theorem exhausted {n : ℕ} (h : Sharing T L p c i w) (hi : 256 ≤ i) (hn : i + n ≤ 768)
    (hshort : (freePages w.info).card < writableFrom w p n i) :
    ∃ x, i ≤ x ∧ x < i + n ∧ (World.forkSlots p c n i w).held (c, .page x) = some ⟨0, true⟩ := by
  induction n generalizing i w with
  | zero => exact absurd hshort (Nat.not_lt_zero _)
  | succ n ih =>
      rw [writableFrom] at hshort
      by_cases hone : w.writableAt p i = true → 0 < (freePages w.info).card
      · have hcard := h.card hi (by omega) hone
        obtain ⟨x, hx, hx', hheld⟩ := ih (h.next hi (by omega) hone) (by omega) (by omega) (by
          rw [writableFrom_congr n (i + 1) h.parent]
          omega)
        exact ⟨x, by omega, by omega, hheld⟩
      · -- The allocation fails here.
        push Not at hone
        obtain ⟨hwr, hnone⟩ := hone
        refine ⟨i, le_rfl, by omega, ?_⟩
        have hfree : lowestFree w.info = none := by
          rw [← freePages_eq_empty, ← Finset.card_eq_zero]
          omega
        obtain ⟨f, hf⟩ : ∃ f, w.held (p, .page i) = some ⟨f, true⟩ := by
          unfold writableAt at hwr
          rcases hr : w.held (p, .page i) with _ | ⟨f, _ | _⟩
          · rw [hr] at hwr
            cases hwr
          · rw [hr] at hwr
            cases hwr
          · exact ⟨f, rfl⟩
        rw [World.forkSlots, forkSlots_held_of_ne fun y hy _ heq => ?_, World.forkSlot, hf]
        · dsimp only
          rw [hfree]
          simp
        · have := Slot.page.inj (Prod.mk.inj heq).2
          omega

end Sharing

/-- The page loop starts once the child has its tables. -/
theorem sharing (h : Tallied T L w) (hw : Wf L w) (hrun : w.Live w.current)
    (hslot : findFreeSlot w.state (nProc - 1) 1 = some c)
    (hsafe : ∀ x pn, w.held (w.current, .page x) = some ⟨pn, false⟩ →
      (T pn).safe (w.info pn).refcount)
    (hdup : World.duplicate c (w.setState c .runnable) = some w') :
    Sharing T L w.current c 256 w' ∧
      ∀ pn, (w.info pn).refcount ≠ 0 → w'.info pn = w.info pn := by
  obtain ⟨-, hc, hfree, -⟩ := findFreeSlot_some hslot
  simp only [nProc] at hc
  have hne : w.current ≠ c := by
    rintro rfl
    exact hrun hfree
  have hpage (x : ℕ) := duplicate_held_page hdup w.current x
  have hsame (pn : ℕ) (hpn : (w.info pn).refcount ≠ 0) : w'.info pn = w.info pn :=
    duplicate_info hdup hpn
  refine ⟨⟨h.duplicate (by omega) (hw.dead c · hfree) hdup, by omega, hne, fun x _ => ?_,
    fun x y pn hx hy => ?_, fun x pn _ hx => ?_⟩, hsame⟩
  · exact (duplicate_held_page hdup c x).trans (hw.dead c _ hfree)
  · exact hw.home _ x _ y pn ((hpage x).symm.trans hx) ((hpage y).symm.trans hy)
  · rw [hpage] at hx
    rw [hsame pn (h.counted hx)]
    exact hsafe x pn hx

theorem fork_eq (hslot : findFreeSlot w.state (nProc - 1) 1 = some c)
    (hdup : World.duplicate c (w.setState c .runnable) = some w') :
    w.fork = (World.forkSlots w.current c userPages 256 w', .break) := by
  simp only [World.fork, hslot, hdup, procStartAddr, pageSize, Nat.reduceDiv]

/-- A fork that finds a slot and enough memory. -/
theorem fork_into (h : Tallied T L w) (hw : Wf L w) (hrun : w.Live w.current)
    (hslot : findFreeSlot w.state (nProc - 1) 1 = some c)
    (hsafe : ∀ x pn, w.held (w.current, .page x) = some ⟨pn, false⟩ →
      (T pn).safe (w.info pn).refcount)
    (hroom : 5 + writableFrom w w.current userPages 256 ≤ (freePages w.info).card) :
    Tallied T L w.fork.1 ∧ Recounted w.current 256 512 w w.fork.1 := by
  obtain ⟨w', hdup, hcard⟩ := duplicate_some (w := w.setState c .runnable) c
    (by rw [setState_info]; omega)
  rw [setState_info] at hcard
  obtain ⟨hshare, hsame⟩ := h.sharing hw hrun hslot hsafe hdup
  have hpage (x : ℕ) : w'.held (w.current, .page x) = w.held (w.current, .page x) :=
    duplicate_held_page hdup w.current x
  have hn : userPages = 512 := by norm_num
  rw [fork_eq hslot hdup]
  generalize userPages = n at hn hroom ⊢
  obtain ⟨h₂, hrec⟩ := hshare.forkSlots (n := n) le_rfl (by omega) (by
    rw [writableFrom_congr n 256 hpage]
    omega)
  refine ⟨h₂, fun x pn hx hx' hheld => ?_, fun pn hpn hnot => ?_⟩
  · rw [hrec.shared x pn hx (by omega) ((hpage x).trans hheld), hsame pn (h.counted hheld)]
  · have hpn' := hsame pn hpn
    rw [hrec.other pn (by rwa [hpn']) fun x hx => by rw [hpage]; exact hnot x hx, hpn']

/-- A fork that finds memory for the tables but not for all copies leaves the child with page 0. -/
theorem fork_exhausted (h : Tallied T L w) (hw : Wf L w) (hrun : w.Live w.current)
    (hslot : findFreeSlot w.state (nProc - 1) 1 = some c)
    (hsafe : ∀ x pn, w.held (w.current, .page x) = some ⟨pn, false⟩ →
      (T pn).safe (w.info pn).refcount)
    (hfive : 5 ≤ (freePages w.info).card)
    (hshort : (freePages w.info).card < 5 + writableFrom w w.current userPages 256) :
    ∃ x, 256 ≤ x ∧ x < 768 ∧ w.fork.1.held (c, .page x) = some ⟨0, true⟩ := by
  obtain ⟨w', hdup, hcard⟩ := duplicate_some (w := w.setState c .runnable) c
    (by rw [setState_info]; omega)
  rw [setState_info] at hcard
  have hpage (x : ℕ) : w'.held (w.current, .page x) = w.held (w.current, .page x) :=
    duplicate_held_page hdup w.current x
  have hn : userPages = 512 := by norm_num
  rw [fork_eq hslot hdup]
  generalize userPages = n at hn hshort ⊢
  obtain ⟨x, hx, hx', hheld⟩ := (h.sharing hw hrun hslot hsafe hdup).1.exhausted (n := n) le_rfl
    (by omega) (by
      rw [writableFrom_congr n 256 hpage]
      omega)
  exact ⟨x, hx, by omega, hheld⟩

theorem fork (h : Tallied T L w) (hw : Wf L w) (hrun : w.Live w.current)
    (hsafe : (findFreeSlot w.state (nProc - 1) 1).isSome → ∀ x pn,
      w.held (w.current, .page x) = some ⟨pn, false⟩ → (T pn).safe (w.info pn).refcount)
    (hroom : (findFreeSlot w.state (nProc - 1) 1).isSome →
      5 + writableFrom w w.current userPages 256 ≤ (freePages w.info).card) :
    Tallied T L w.fork.1 := by
  cases hslot : findFreeSlot w.state (nProc - 1) 1 with
  | none =>
      rw [World.fork, hslot]
      exact h
  | some c =>
      have hsome : (findFreeSlot w.state (nProc - 1) 1).isSome := by rw [hslot]; rfl
      exact (h.fork_into hw hrun hslot (hsafe hsome) (hroom hsome)).1

theorem releaseTables {js : List (Fin 5)} (h : Tallied T L w) (hnd : js.Nodup)
    (hheld : ∀ j ∈ js, w.held (p, .table j) = some ⟨w.frames p j, true⟩) :
    Tallied T L (js.foldl (releaseTable p) w) := by
  induction js generalizing w with
  | nil => exact h
  | cons j js ih =>
      obtain ⟨hj, hnd'⟩ := List.nodup_cons.mp hnd
      refine ih (h.free_owned (hheld j (by simp))) hnd' fun j' hj' => ?_
      have hne : j' ≠ j := by
        rintro rfl
        exact hj hj'
      have hsame : (releaseTable p w j).held (p, .table j') = w.held (p, .table j') := by
        simp [releaseTable, hne]
      rw [frames, hsame]
      exact hheld j' (by simp [hj'])

theorem releaseSlot {tables : List ℕ} (h : Tallied T L w)
    (htab : ∀ t ∈ tables, (w.info t).refcount = 0) :
    Tallied T L (releaseSlot p tables i w) ∧
      ∀ t ∈ tables, ((World.releaseSlot p tables i w).info t).refcount = 0 := by
  unfold World.releaseSlot releaseRef
  rcases hr : w.held (p, .page i) with _ | ⟨pn, _ | _⟩
  · exact ⟨h, htab⟩
  · have hpos := (h.place _ _ hr).2.pos
    have hcounted := h.counted hr
    have hinfo : (if 0 < pn ∧ (w.info pn).refcount ≠ 0 then Function.update w.info pn
        ⟨(w.info pn).owner, toInt8 ((w.info pn).refcount - 1)⟩ else w.info) =
        Function.update w.info pn ⟨(w.info pn).owner, toInt8 ((w.info pn).refcount - 1)⟩ :=
      if_pos ⟨hpos, hcounted⟩
    simp only [Bool.false_eq_true, if_false, hinfo]
    refine ⟨h.unshare hr, fun t ht => ?_⟩
    rw [Function.update_of_ne, htab t ht]
    rintro rfl
    exact hcounted (htab t ht)
  · have hown := h.exclusive p _ pn hr
    have hpos := (h.place _ _ hr).2.pos
    have hnot : pn ∉ tables := by
      intro ht
      have := htab pn ht
      rw [hown] at this
      cases this
    have hinfo : (if 0 < pn ∧ (w.info pn).owner = p ∧ (w.info pn).refcount ≠ 0 ∧ pn ∉ tables then
        Function.update w.info pn ⟨0, 0⟩ else w.info) = Function.update w.info pn ⟨0, 0⟩ :=
      if_pos ⟨hpos, by rw [hown], by rw [hown]; norm_num, hnot⟩
    simp only [if_true, hinfo]
    refine ⟨h.free_owned hr, fun t ht => ?_⟩
    rw [Function.update_of_ne, htab t ht]
    rintro rfl
    exact hnot ht

theorem releaseSlots {tables : List ℕ} {n : ℕ} (h : Tallied T L w)
    (htab : ∀ t ∈ tables, (w.info t).refcount = 0) :
    Tallied T L (releaseSlots p tables n i w) := by
  induction n generalizing i w with
  | zero => exact h
  | succ n ih =>
      obtain ⟨h₁, htab₁⟩ := h.releaseSlot (p := p) (i := i) htab
      exact ih h₁ htab₁

end Tallied

theorem releaseSlot_held (tables : List ℕ) (w : World) (p i : ℕ) :
    (releaseSlot p tables i w).held = Function.update w.held (p, .page i) none := by
  unfold releaseSlot
  split
  · rename_i hr
    rw [← hr, Function.update_eq_self]
  · rfl

theorem releaseSlots_held (tables : List ℕ) (w : World) (p n i : ℕ) :
    (∀ x, i ≤ x → x < i + n → (releaseSlots p tables n i w).held (p, .page x) = none) ∧
      ∀ y, w.held y = none → (releaseSlots p tables n i w).held y = none := by
  induction n generalizing i w with
  | zero => exact ⟨fun x hx hx' => by omega, fun _ h => h⟩
  | succ n ih =>
      obtain ⟨h1, h2⟩ := ih (releaseSlot p tables i w) (i + 1)
      refine ⟨fun x hx hx' => ?_, fun y hy => ?_⟩
      · by_cases hxi : x = i
        · subst x
          exact h2 _ (by rw [releaseSlot_held, Function.update_self])
        · exact h1 x (by omega) (by omega)
      · apply h2
        rw [releaseSlot_held]
        by_cases hyp : y = (p, .page i)
        · rw [hyp, Function.update_self]
        · rw [Function.update_of_ne hyp, hy]

theorem releaseTables_held (w : World) (p : ℕ) (js : List (Fin 5)) :
    (∀ j ∈ js, (js.foldl (releaseTable p) w).held (p, .table j) = none) ∧
      ∀ y, w.held y = none → (js.foldl (releaseTable p) w).held y = none := by
  induction js generalizing w with
  | nil => exact ⟨by simp, fun _ h => h⟩
  | cons j js ih =>
      obtain ⟨h1, h2⟩ := ih (releaseTable p w j)
      refine ⟨fun j' hj' => ?_, fun y hy => h2 y ?_⟩
      · rcases List.mem_cons.mp hj' with rfl | hj'
        · exact h2 _ (by simp [releaseTable])
        · exact h1 j' hj'
      · by_cases hyp : y = (p, .table j)
        · simp [releaseTable, hyp]
        · simp [releaseTable, hyp, hy]

theorem releaseTables_zero {info : PageInfos} {tables : List ℕ} {t : ℕ}
    (h : t ∈ tables ∨ (info t).refcount = 0) :
    (WeensyOS.releaseTables info tables t).refcount = 0 := by
  unfold WeensyOS.releaseTables
  induction tables generalizing info with
  | nil => exact h.resolve_left (by simp)
  | cons t' tables ih =>
      rw [List.foldl_cons]
      apply ih
      by_cases ht : t = t'
      · right
        rw [ht, Function.update_self]
      · rw [Function.update_of_ne ht]
        exact h.imp_left fun hm => (List.mem_cons.mp hm).resolve_left ht

theorem Tallied.exit (h : Tallied T L w) (hw : Wf L w) (hrun : w.Live w.current) :
    Tallied T L w.exit := by
  have hnd := List.nodup_finRange 5
  have h₁ := h.releaseTables (p := w.current) hnd fun j _ => hw.tables _ hrun j
  obtain ⟨hinfo, -⟩ := releaseTables_info (p := w.current) hnd w
  have htab (t : ℕ) (ht : t ∈ (List.finRange 5).map (w.frames w.current)) :
      (((List.finRange 5).foldl (releaseTable w.current) w).info t).refcount = 0 := by
    rw [hinfo]
    exact releaseTables_zero (Or.inl ht)
  have h₂ := h₁.releaseSlots (p := w.current) (n := userPages) (i := 256) htab
  have hdrop : w.exit = (World.releaseSlots w.current ((List.finRange 5).map (w.frames w.current))
      userPages 256 ((List.finRange 5).foldl (releaseTable w.current) w)).drop w.current := by
    simp only [World.exit, procStartAddr, pageSize, Nat.reduceDiv]
  have hpages := releaseSlots_held ((List.finRange 5).map (w.frames w.current))
    ((List.finRange 5).foldl (releaseTable w.current) w) w.current userPages 256
  have htables := (releaseTables_held w w.current (List.finRange 5)).1
  have hn : 256 + userPages = 768 := by norm_num
  rw [hdrop]
  generalize userPages = n at *
  generalize World.releaseSlots w.current ((List.finRange 5).map (w.frames w.current)) n 256
    ((List.finRange 5).foldl (releaseTable w.current) w) = w₂ at *
  refine h₂.of_same ?_ rfl
  -- Everything the process held is in `places`, so the loops have emptied all of it.
  funext x
  obtain ⟨q, s⟩ := x
  simp only [drop]
  split_ifs with hq
  · subst q
    rcases s with j | i
    · exact (hpages.2 _ (htables j (List.mem_finRange j))).symm
    · cases hr : w₂.held (w.current, .page i) with
      | none => rfl
      | some r =>
          obtain ⟨-, hlo, hhi⟩ := mem_places_page.mp (h₂.place _ _ hr).1
          rw [hpages.1 i hlo (by omega)] at hr
          cases hr
  · rfl

end World

end WeensyOS
