import WeensyOS.DiskImage
import WeensyOS.DepthFirst
import Mathlib.Order.Interval.Set.Infinite
import Mathlib.Order.Interval.Finset.Nat

/-!
# The partition search of `mkbootdisk`

`find_partition` reads a partition table and calls itself for every extended partition in it. Where
the next table is comes from the disk, so the calls need not end: the search goes round in circles
as soon as an entry that it follows leads back to a table that it came through.
-/

namespace WeensyOS
open ByteMemory DepthFirst Relation

def ptableOffset : ℕ := 446
def ptableMagicOffset : ℕ := 510
def ptableMagic1 : UInt8 := 0x55
def ptableMagic2 : UInt8 := 0xAA

def ptypeJosKern : ℕ := 0x27
def ptypeDosExtended : ℕ := 0x05
def ptypeW95Extended : ℕ := 0x0F
def ptypeLinuxExtended : ℕ := 0x85

structure Partitiondesc where
  type : ℕ
  lbaStart : ℕ
  lbaLength : ℕ

def Partitiondesc.Extended (e : Partitiondesc) : Prop :=
  e.type = ptypeDosExtended ∨ e.type = ptypeW95Extended ∨ e.type = ptypeLinuxExtended

instance (e : Partitiondesc) : Decidable e.Extended :=
  inferInstanceAs (Decidable (_ ∨ _ ∨ _))

/-- Entry `i` of the table in `buf`. -/
def ptable (buf : Memory) (i : ℕ) : Partitiondesc where
  type := (buf (ptableOffset + 16 * i + 4)).toNat
  lbaStart := loadLE buf (ptableOffset + 16 * i + 8) 4
  lbaLength := loadLE buf (ptableOffset + 16 * i + 12) 4

def HasMagic (buf : Memory) : Prop :=
  buf ptableMagicOffset = ptableMagic1 ∧ buf (ptableMagicOffset + 1) = ptableMagic2

instance (buf : Memory) : Decidable (HasMagic buf) := inferInstanceAs (Decidable (_ ∧ _))

/-- How the search ends early: `usage()` on a failed read, or a JOS partition with its number, its
start sector and its length. -/
inductive Stop
  | exited
  | found (partition sect length : ℕ)

/-- The loop of `find_partition` over the entries of a table. -/
def searchEntries (next : ℕ → ℕ → ℕ → Option (Option Stop)) (buf : Memory)
    (partitionSect extendedSect partoff : ℕ) : List ℕ → Option (Option Stop)
  | [] => some none
  | i :: rest =>
      let e := ptable buf i
      if e.lbaLength = 0 then searchEntries next buf partitionSect extendedSect partoff rest
      else if e.type = ptypeJosKern then
        some (some (.found (partoff + i + 1) (partitionSect + e.lbaStart) e.lbaLength))
      else if e.Extended then
        let innerSect := if extendedSect = 0 then e.lbaStart else extendedSect
        match next (e.lbaStart + extendedSect) innerSect
            (if partoff ≠ 0 then partoff + 1 else 4) with
        | some none => searchEntries next buf partitionSect extendedSect partoff rest
        | r => r
      else searchEntries next buf partitionSect extendedSect partoff rest

/-- `find_partition`: `none` without enough fuel, `some none` where it returns 0. -/
def findPartition (d : Disk) : ℕ → ℕ → ℕ → ℕ → Option (Option Stop)
  | 0, _, _, _ => none
  | fuel + 1, partitionSect, extendedSect, partoff =>
      match d.readsect partitionSect with
      | none => some (some .exited)
      | some buf =>
          if HasMagic buf then
            searchEntries (findPartition d fuel) buf partitionSect extendedSect partoff
              (List.range 4)
          else some none

/-- A call of `find_partition`, by its two sectors. -/
abbrev Table := ℕ × ℕ

/-- The call made for an extended partition. -/
def Partitiondesc.inner (e : Partitiondesc) (t : Table) : Table :=
  (e.lbaStart + t.2, if t.2 = 0 then e.lbaStart else t.2)

/-- The table of `t` can be read and has a nonempty extended entry for `t'`. -/
def LinksTo (d : Disk) (t t' : Table) : Prop :=
  ∃ buf, d.readsect t.1 = some buf ∧ HasMagic buf ∧ ∃ i < 4,
    (ptable buf i).lbaLength ≠ 0 ∧ (ptable buf i).Extended ∧ (ptable buf i).inner t = t'

/-- The sector is on the disk, and no JOS partition in it. -/
def NoKernel (d : Disk) (t : Table) : Prop :=
  ∃ buf, d.readsect t.1 = some buf ∧
    (HasMagic buf → ∀ i < 4, (ptable buf i).lbaLength ≠ 0 → (ptable buf i).type ≠ ptypeJosKern)

/-- The search ends, and if it comes back with nothing then every chain of extended entries was
followed to its end. -/
def SearchComplete (d : Disk) : Prop :=
  ∃ fuel r, findPartition d fuel 0 0 0 = some r ∧
    (r = none → ∀ t, ReflTransGen (LinksTo d) (0, 0) t → NoKernel d t)

/-! The tables as a graph. -/

def entryItem (buf : Memory) (t : Table) (i : ℕ) : Option (Item Table Stop) :=
  let e := ptable buf i
  if e.lbaLength = 0 then none
  else if e.type = ptypeJosKern then some (.answer (.found (i + 1) (t.1 + e.lbaStart) e.lbaLength))
  else if e.Extended then some (.visit (e.inner t))
  else none

def tableItems (d : Disk) (t : Table) : List (Item Table Stop) :=
  match d.readsect t.1 with
  | none => [.answer .exited]
  | some buf => if HasMagic buf then (List.range 4).filterMap (entryItem buf t) else []

/-- The partition number counts from `partoff`. -/
def Stop.from (partoff : ℕ) : Stop → Stop
  | .exited => .exited
  | .found partition sect length => .found (partoff + partition) sect length

/-- A chain of entries that the search follows comes back to a table it has passed. An entry is
followed if no JOS partition stands before it and the extended entries before it lead to nothing. -/
def LoopFollowed (d : Disk) : Prop :=
  ∃ t, ReflTransGen (Follows (tableItems d)) (0, 0) t ∧ TransGen (Follows (tableItems d)) t t

def nextPartoff (partoff : ℕ) : ℕ := if partoff ≠ 0 then partoff + 1 else 4

def stopOf (r : Option (ℕ × Stop)) : Option Stop := r.map fun s => s.2.from s.1

section search
variable {d : Disk}

theorem searchEntries_eq {next : ℕ → ℕ → ℕ → Option (Option Stop)}
    {next' : Table → Option (Option (ℕ × Stop))} {buf : Memory} {t : Table} {partoff : ℕ}
    (h : ∀ t', next t'.1 t'.2 (nextPartoff partoff) = (next' t').map stopOf) (l : List ℕ) :
    searchEntries next buf t.1 t.2 partoff l =
      (scan next' partoff (l.filterMap (entryItem buf t))).map stopOf := by
  induction l with
  | nil => rfl
  | cons i rest ih =>
      rw [searchEntries, List.filterMap_cons]
      by_cases hlength : (ptable buf i).lbaLength = 0
      · rw [entryItem, if_pos hlength, if_pos hlength]
        exact ih
      by_cases hkernel : (ptable buf i).type = ptypeJosKern
      · rw [entryItem, if_neg hlength, if_pos hkernel, if_neg hlength, if_pos hkernel]
        rfl
      by_cases hextended : (ptable buf i).Extended
      · have hnext := h ((ptable buf i).inner t)
        rw [entryItem, if_neg hlength, if_neg hkernel, if_pos hextended, if_neg hlength,
          if_neg hkernel, if_pos hextended]
        change (match next ((ptable buf i).inner t).1 ((ptable buf i).inner t).2
          (nextPartoff partoff) with
          | some none => searchEntries next buf t.1 t.2 partoff rest
          | r => r) = _
        rw [hnext, scan]
        cases next' ((ptable buf i).inner t) with
        | none => rfl
        | some found =>
            cases found with
            | none => exact ih
            | some found => rfl
      · rw [entryItem, if_neg hlength, if_neg hkernel, if_neg hextended, if_neg hlength,
          if_neg hkernel, if_neg hextended]
        exact ih

/-- `find_partition` is a depth-first search of the tables. -/
theorem findPartition_eq (fuel partoff : ℕ) (t : Table) :
    findPartition d fuel t.1 t.2 partoff =
      (search (tableItems d) nextPartoff fuel partoff t).map stopOf := by
  induction fuel generalizing partoff t with
  | zero => rfl
  | succ fuel ih =>
      rw [findPartition, search, tableItems]
      cases d.readsect t.1 with
      | none => rfl
      | some buf =>
          dsimp only
          split_ifs
          · exact searchEntries_eq (fun t' => ih (nextPartoff partoff) t') _
          · rfl

end search

section barren
variable {d : Disk} {t t' : Table}

theorem mem_tableItems {buf : Memory} (hbuf : d.readsect t.1 = some buf) (hmagic : HasMagic buf)
    {item : Item Table Stop} :
    item ∈ tableItems d t ↔ ∃ i < 4, entryItem buf t i = some item := by
  rw [tableItems, hbuf]
  dsimp only
  rw [if_pos hmagic, List.mem_filterMap]
  simp only [List.mem_range]

theorem LinksTo.visit_mem (h : LinksTo d t t') (hb : Barren (tableItems d) t) :
    .visit t' ∈ tableItems d t := by
  obtain ⟨buf, hbuf, hmagic, i, hi, hlength, hextended, rfl⟩ := h
  obtain ⟨hanswer, -⟩ := hb
  apply (mem_tableItems hbuf hmagic).mpr
  refine ⟨i, hi, ?_⟩
  rw [entryItem, if_neg hlength, if_neg, if_pos hextended]
  intro hkernel
  apply hanswer (.found (i + 1) (t.1 + (ptable buf i).lbaStart) (ptable buf i).lbaLength)
  apply (mem_tableItems hbuf hmagic).mpr
  exact ⟨i, hi, by rw [entryItem, if_neg hlength, if_pos hkernel]⟩

theorem barren_noKernel (h : Barren (tableItems d) t) : NoKernel d t := by
  obtain ⟨hanswer, -⟩ := h
  cases hbuf : d.readsect t.1 with
  | none =>
      refine absurd ?_ (hanswer .exited)
      rw [tableItems, hbuf]
      exact List.mem_singleton_self _
  | some buf =>
      refine ⟨buf, hbuf, fun hmagic i hi hlength hkernel => ?_⟩
      apply hanswer (.found (i + 1) (t.1 + (ptable buf i).lbaStart) (ptable buf i).lbaLength)
      apply (mem_tableItems hbuf hmagic).mpr
      exact ⟨i, hi, by rw [entryItem, if_neg hlength, if_pos hkernel]⟩

/-- A search that comes back with nothing has followed every chain. -/
theorem barren_chain (h : Barren (tableItems d) t) (hchain : ReflTransGen (LinksTo d) t t') :
    Barren (tableItems d) t' := by
  induction hchain with
  | refl => exact h
  | tail _ hlink ih =>
      have hmem := hlink.visit_mem ih
      obtain ⟨-, hvisit⟩ := ih
      exact hvisit _ hmem

end barren

section finite
variable {d : Disk} {t t' : Table}

def Reachable : Set Table := Set.Iio (2 ^ 33) ×ˢ Set.Iio (2 ^ 32)

theorem ptable_lbaStart_lt (buf : Memory) (i : ℕ) : (ptable buf i).lbaStart < 2 ^ 32 :=
  loadLE_lt buf _ 4

theorem follows_reachable (ht : t ∈ Reachable) (h : Follows (tableItems d) t t') :
    t' ∈ Reachable := by
  obtain ⟨before, after, hitems, -⟩ := h
  have hmem : .visit t' ∈ tableItems d t := by
    rw [hitems]
    exact List.mem_append_right _ List.mem_cons_self
  rw [tableItems] at hmem
  cases hbuf : d.readsect t.1 with
  | none => simp [hbuf] at hmem
  | some buf =>
      simp only [hbuf] at hmem
      split_ifs at hmem
      · obtain ⟨i, -, hi⟩ := List.mem_filterMap.mp hmem
        have hstart := ptable_lbaStart_lt buf i
        obtain ⟨-, ht2⟩ := ht
        simp only [Set.mem_Iio] at ht2
        unfold entryItem at hi
        dsimp only at hi
        split_ifs at hi
        · cases hi
        · obtain rfl := Item.visit.inj (Option.some.inj hi)
          constructor
          · simp only [Partitiondesc.inner, Set.mem_Iio]
            omega
          · simp only [Partitiondesc.inner, Set.mem_Iio]
            split_ifs <;> omega
      · simp at hmem

end finite

/-- The search ends exactly if no chain that it follows closes. -/
theorem searchComplete_iff (d : Disk) : SearchComplete d ↔ ¬ LoopFollowed d := by
  have hstart : ((0, 0) : Table) ∈ Reachable := ⟨by simp, by simp⟩
  have hfinite : Reachable.Finite := (Set.finite_Iio _).prod (Set.finite_Iio _)
  have hends : (∃ fuel r, search (tableItems d) nextPartoff fuel 0 (0, 0) = some r) ↔ _ :=
    (search_terminates_iff 0 (0, 0)).trans
      (acc_iff_acyclic hfinite (fun t ht t' => follows_reachable ht) hstart)
  unfold LoopFollowed
  rw [← hends]
  constructor
  · rintro ⟨fuel, r, h, -⟩
    rw [findPartition_eq fuel 0 (0, 0)] at h
    obtain ⟨r', h', -⟩ := Option.map_eq_some_iff.mp h
    exact ⟨fuel, r', h'⟩
  · rintro ⟨fuel, r, h⟩
    refine ⟨fuel, stopOf r, ?_, fun hnone t hchain => ?_⟩
    · rw [findPartition_eq fuel 0 (0, 0), h]
      rfl
    · obtain rfl := Option.map_eq_none_iff.mp hnone
      have hbarren := (search_none_iff 0 (0, 0)).mp ⟨fuel, h⟩
      exact barren_noKernel (barren_chain hbarren hchain)

/-- A disk whose first sector has one extended entry, for sector 0. -/
def loopDisk : Disk where
  size := 1024 * 512
  byte a := if a = 450 then 0x05 else if a = 458 then 1 else if a = 510 then 0x55
    else if a = 511 then 0xAA else 0

theorem not_searchComplete : ¬ ∀ d, SearchComplete d := by
  intro hall
  apply (searchComplete_iff loopDisk).mp (hall loopDisk)
  have hitems : tableItems loopDisk (0, 0) = [.visit (0, 0)] := by
    rfl
  have hself : Follows (tableItems loopDisk) (0, 0) (0, 0) :=
    ⟨[], [], hitems, by simp, by simp⟩
  exact ⟨(0, 0), .refl, .single hself⟩

end WeensyOS
