import Mathlib.Data.Finset.Card
import Mathlib.Data.Finset.Option
import Mathlib.Data.Finset.Union
import Mathlib.Logic.Function.Basic
import Mathlib.Tactic.Common

/-!
# Counting the holders of a resource

A ledger maps each of finitely many places to the resource held there, if any. `count` is the number
of places that hold a given resource. Filling an empty place, emptying a place and replacing what a
place holds change the counts in the obvious way, which is what reference counting relies on.
`resources` are the resources that some place holds.
-/

namespace RefLedger

variable {ι κ : Type*} [DecidableEq κ] {U : Finset ι} {held : ι → Option κ}
  {x : ι} {r r' : κ}

def holders (U : Finset ι) (held : ι → Option κ) (r : κ) : Finset ι :=
  U.filter (fun x => held x = some r)

def count (U : Finset ι) (held : ι → Option κ) (r : κ) : ℕ := (holders U held r).card

theorem mem_holders : x ∈ holders U held r ↔ x ∈ U ∧ held x = some r := Finset.mem_filter

section update
variable [DecidableEq ι]

/-- Filling an empty place adds one holder of what it now holds. -/
theorem count_fill (r r' : κ) (hx : x ∈ U) (hempty : held x = none) :
    count U (Function.update held x (some r)) r' = count U held r' + if r' = r then 1 else 0 := by
  by_cases hr : r' = r
  · subst r'
    have hins : holders U (Function.update held x (some r)) r = insert x (holders U held r) := by
      ext y
      by_cases hy : y = x
      · subst y
        simp [mem_holders, hx]
      · simp [mem_holders, hy]
    rw [count, hins, Finset.card_insert_of_notMem (by simp [mem_holders, hempty]),
      if_pos rfl, count]
  · have heq : holders U (Function.update held x (some r)) r' = holders U held r' := by
      ext y
      by_cases hy : y = x
      · subst y
        simp [mem_holders, hempty, Ne.symm hr]
      · simp [mem_holders, hy]
    rw [count, heq, if_neg hr, count, Nat.add_zero]

/-- Emptying a place takes one holder away from what it held. -/
theorem count_clear (hx : x ∈ U) (hheld : held x = some r) :
    count U (Function.update held x none) r' + (if r' = r then 1 else 0) = count U held r' := by
  have hback : Function.update (Function.update held x none) x (some r) = held := by
    rw [Function.update_idem, ← hheld, Function.update_eq_self]
  rw [← count_fill r r' hx (Function.update_self x none held), hback]

end update

theorem count_pos (hx : x ∈ U) (hheld : held x = some r) : 0 < count U held r :=
  Finset.card_pos.mpr ⟨x, mem_holders.mpr ⟨hx, hheld⟩⟩

theorem exists_of_count_pos (h : 0 < count U held r) : ∃ x ∈ U, held x = some r := by
  obtain ⟨x, hx⟩ := Finset.card_pos.mp h
  exact ⟨x, mem_holders.mp hx⟩

theorem count_eq_zero (h : ∀ x ∈ U, held x ≠ some r) : count U held r = 0 :=
  Finset.card_eq_zero.mpr (Finset.filter_eq_empty_iff.mpr fun x hx => h x hx)

theorem count_le_one (h : ∀ x y, held x = some r → held y = some r → x = y) :
    count U held r ≤ 1 :=
  Finset.card_le_one.mpr fun x hx y hy => h x y (mem_holders.mp hx).2 (mem_holders.mp hy).2

/-- A resource counted once has one holder. -/
theorem unique_of_count_le_one (h : count U held r ≤ 1) {y : ι} (hx : x ∈ U)
    (hhx : held x = some r) (hy : y ∈ U) (hhy : held y = some r) : x = y :=
  Finset.card_le_one.mp h x (mem_holders.mpr ⟨hx, hhx⟩) y (mem_holders.mpr ⟨hy, hhy⟩)

/-- Holders that a function tells apart are at most as many as its values. -/
theorem count_le_of_injOn {α : Type*} (f : ι → α) (V : Finset α) (hmem : ∀ x ∈ U,
    held x = some r → f x ∈ V) (hinj : ∀ x ∈ U, ∀ y ∈ U, held x = some r → held y = some r →
      f x = f y → x = y) : count U held r ≤ V.card := by
  apply Finset.card_le_card_of_injOn f
  · intro x hx
    obtain ⟨hxU, hxr⟩ := mem_holders.mp hx
    exact hmem x hxU hxr
  · intro x hx y hy hxy
    obtain ⟨hxU, hxr⟩ := mem_holders.mp hx
    obtain ⟨hyU, hyr⟩ := mem_holders.mp hy
    exact hinj x hxU y hyU hxr hyr hxy

/-- What the places of `U` hold. -/
def resources (U : Finset ι) (held : ι → Option κ) : Finset κ :=
  U.biUnion fun x => (held x).toFinset

theorem mem_resources : r ∈ resources U held ↔ ∃ x ∈ U, held x = some r := by
  simp only [resources, Finset.mem_biUnion, Option.mem_toFinset, Option.mem_def]

theorem count_eq_zero_iff : count U held r = 0 ↔ r ∉ resources U held := by
  rw [mem_resources, count, Finset.card_eq_zero, holders, Finset.filter_eq_empty_iff]
  push Not
  rfl

theorem resources_subset {S : Finset κ} (h : ∀ x ∈ U, ∀ r, held x = some r → r ∈ S) :
    resources U held ⊆ S := by
  intro r hr
  obtain ⟨x, hx, hr⟩ := mem_resources.mp hr
  exact h x hx r hr

theorem disjoint_resources {V : Finset ι}
    (h : ∀ x ∈ U, ∀ y ∈ V, ∀ r, held x = some r → held y ≠ some r) :
    Disjoint (resources U held) (resources V held) := by
  refine Finset.disjoint_left.mpr fun r hr hr' => ?_
  obtain ⟨x, hx, hr⟩ := mem_resources.mp hr
  obtain ⟨y, hy, hr'⟩ := mem_resources.mp hr'
  exact h x hx y hy r hr hr'

/-- Places that hold different resources hold as many as they are. -/
theorem card_resources (hfull : ∀ x ∈ U, held x ≠ none)
    (hinj : ∀ x ∈ U, ∀ y ∈ U, held x = held y → x = y) : (resources U held).card = U.card := by
  classical
  have himage : (resources U held).map Function.Embedding.some = U.image held := by
    ext o
    simp only [Finset.mem_map, mem_resources, Finset.mem_image, Function.Embedding.some_apply]
    constructor
    · rintro ⟨r, ⟨x, hx, hr⟩, rfl⟩
      exact ⟨x, hx, hr⟩
    · rintro ⟨x, hx, rfl⟩
      obtain ⟨r, hr⟩ := Option.ne_none_iff_exists'.mp (hfull x hx)
      exact ⟨r, ⟨x, hx, hr⟩, hr.symm⟩
  rw [← Finset.card_map Function.Embedding.some, himage,
    Finset.card_image_of_injOn fun x hx y hy => hinj x hx y hy]

end RefLedger
