import Mathlib.Data.Set.Finite.Basic
import Mathlib.Logic.Relation
import Mathlib.Order.WellFounded
import Mathlib.Data.Fintype.Order

/-!
# Depth-first search without marks

A node has a list of items: answers, which end the search, and nodes to search before the next item.
Nothing remembers which nodes were seen, so the search need not end. `σ` is what is passed down from
a node to those below it.
-/

namespace DepthFirst
variable {ν ρ σ : Type*}

inductive Item (ν ρ : Type*)
  | answer (r : ρ)
  | visit (a : ν)

def scan (next : ν → Option (Option (σ × ρ))) (s : σ) : List (Item ν ρ) → Option (Option (σ × ρ))
  | [] => some none
  | .answer r :: _ => some (some (s, r))
  | .visit a :: rest =>
      match next a with
      | some none => scan next s rest
      | found => found

/-- `none` stands for a search that is not over yet, `some none` for one without an answer. -/
def search (items : ν → List (Item ν ρ)) (deeper : σ → σ) :
    ℕ → σ → ν → Option (Option (σ × ρ))
  | 0, _, _ => none
  | fuel + 1, s, a => scan (search items deeper fuel (deeper s)) s (items a)

/-- No answer is to be found below `a`, and there are only finitely many paths to try. -/
inductive Barren (items : ν → List (Item ν ρ)) : ν → Prop
  | intro {a : ν} (hanswer : ∀ r, .answer r ∉ items a)
      (hvisit : ∀ b, .visit b ∈ items a → Barren items b) : Barren items a

/-- The search of `a` gets to `b`: nothing before `b` in the list of `a` ends it. -/
def Follows (items : ν → List (Item ν ρ)) (a b : ν) : Prop :=
  ∃ before after, items a = before ++ .visit b :: after ∧
    (∀ r, .answer r ∉ before) ∧ ∀ c, .visit c ∈ before → Barren items c

variable {items : ν → List (Item ν ρ)} {deeper : σ → σ}

theorem scan_mono {next next' : ν → Option (Option (σ × ρ))} {s : σ}
    (h : ∀ a r, next a = some r → next' a = some r) {l : List (Item ν ρ)}
    {r : Option (σ × ρ)} (hr : scan next s l = some r) : scan next' s l = some r := by
  induction l with
  | nil => exact hr
  | cons item rest ih =>
      cases item with
      | answer => exact hr
      | visit a =>
          cases ha : next a with
          | none => simp [scan, ha] at hr
          | some found =>
              have ha' := h a found ha
              cases found with
              | none =>
                  simp only [scan, ha, ha'] at hr ⊢
                  exact ih hr
              | some found =>
                  simp only [scan, ha, ha'] at hr ⊢
                  exact hr

theorem search_mono {fuel : ℕ} {s : σ} {a : ν} {r : Option (σ × ρ)}
    (h : search items deeper fuel s a = some r) : search items deeper (fuel + 1) s a = some r := by
  induction fuel generalizing s a r with
  | zero => cases h
  | succ fuel ih => exact scan_mono (fun _ _ hb => ih hb) h

theorem search_le {fuel fuel' : ℕ} (hle : fuel ≤ fuel') {s : σ} {a : ν} {r : Option (σ × ρ)}
    (h : search items deeper fuel s a = some r) : search items deeper fuel' s a = some r := by
  induction fuel', hle using Nat.le_induction with
  | base => exact h
  | succ _ _ ih => exact search_mono ih

theorem search_unique {fuel fuel' : ℕ} {s : σ} {a : ν} {r r' : Option (σ × ρ)}
    (h : search items deeper fuel s a = some r) (h' : search items deeper fuel' s a = some r') :
    r = r' := by
  have hm := search_le (le_max_left fuel fuel') h
  have hm' := search_le (le_max_right fuel fuel') h'
  exact Option.some.inj (hm.symm.trans hm')

theorem scan_none {next : ν → Option (Option (σ × ρ))} {s : σ} {l : List (Item ν ρ)} :
    scan next s l = some none ↔
      (∀ r, .answer r ∉ l) ∧ ∀ a, .visit a ∈ l → next a = some none := by
  induction l with
  | nil => simp [scan]
  | cons item rest ih =>
      cases item with
      | answer r =>
          constructor
          · intro h
            cases h
          · intro h
            exact absurd List.mem_cons_self (h.1 r)
      | visit a =>
          cases ha : next a with
          | none => simp [scan, ha]
          | some found =>
              cases found with
              | none => simp [scan, ha, ih]
              | some found => simp [scan, ha]

/-- Finitely many nodes that are each searched with some fuel are searched with one fuel. -/
theorem exists_fuel (s : σ) (l : List (Item ν ρ)) {r : Option (σ × ρ)}
    (h : ∀ a, .visit a ∈ l → ∃ fuel, search items deeper fuel s a = some r) :
    ∃ fuel, ∀ a, .visit a ∈ l → search items deeper fuel s a = some r := by
  induction l with
  | nil => exact ⟨0, fun a ha => absurd ha List.not_mem_nil⟩
  | cons item rest ih =>
      obtain ⟨fuel, hfuel⟩ := ih fun a ha => h a (List.mem_cons_of_mem _ ha)
      cases item with
      | answer =>
          refine ⟨fuel, fun a ha => hfuel a ?_⟩
          simpa using ha
      | visit b =>
          obtain ⟨fuel', hb⟩ := h b List.mem_cons_self
          refine ⟨max fuel fuel', fun a ha => ?_⟩
          rcases List.mem_cons.mp ha with hab | ha
          · obtain rfl := Item.visit.inj hab
            exact search_le (le_max_right _ _) hb
          · exact search_le (le_max_left _ _) (hfuel a ha)

/-- The nodes that are searched without an answer. -/
theorem search_none_iff (s : σ) (a : ν) :
    (∃ fuel, search items deeper fuel s a = some none) ↔ Barren items a := by
  constructor
  · rintro ⟨fuel, h⟩
    induction fuel generalizing s a with
    | zero => cases h
    | succ fuel ih =>
        obtain ⟨hanswer, hvisit⟩ := scan_none.mp h
        exact .intro hanswer fun b hb => ih _ _ (hvisit b hb)
  · intro h
    induction h generalizing s with
    | intro hanswer _ ih =>
        obtain ⟨fuel, hfuel⟩ := exists_fuel (deeper s) _ fun b hb => ih b hb (deeper s)
        exact ⟨fuel + 1, scan_none.mpr ⟨hanswer, hfuel⟩⟩

/-- A scan that ends has ended at every node before the answer. -/
theorem scan_visited {next : ν → Option (Option (σ × ρ))} {s : σ} {r : Option (σ × ρ)}
    {before rest : List (Item ν ρ)} {b : ν} (h : scan next s (before ++ .visit b :: rest) = some r)
    (hanswer : ∀ r, .answer r ∉ before) (hvisit : ∀ c, .visit c ∈ before →
      ∀ r, next c = some r → r = none) : ∃ r, next b = some r := by
  induction before with
  | nil =>
      cases hb : next b with
      | none => simp [scan, hb] at h
      | some found => exact ⟨found, rfl⟩
  | cons item before ih =>
      cases item with
      | answer r => exact absurd List.mem_cons_self (hanswer r)
      | visit c =>
          cases hc : next c with
          | none => simp [scan, hc] at h
          | some found =>
              obtain rfl := hvisit c List.mem_cons_self found hc
              rw [List.cons_append, scan, hc] at h
              exact ih h (fun r hr => hanswer r (List.mem_cons_of_mem _ hr))
                fun c hc => hvisit c (List.mem_cons_of_mem _ hc)

/-- The search ends exactly if no path that it follows is infinite. -/
theorem search_terminates_iff (s : σ) (a : ν) :
    (∃ fuel r, search items deeper fuel s a = some r) ↔ Acc (fun b a => Follows items a b) a := by
  constructor
  · rintro ⟨fuel, r, h⟩
    induction fuel generalizing s a r with
    | zero => cases h
    | succ fuel ih =>
        refine .intro a fun b ⟨before, after, hitems, hanswer, hbarren⟩ => ?_
        rw [search, hitems] at h
        obtain ⟨r', hb⟩ := scan_visited h hanswer fun c hc r' hr' => by
          obtain ⟨fuel', hnone⟩ := (search_none_iff (deeper s) c).mpr (hbarren c hc)
          exact search_unique hr' hnone
        exact ih _ _ _ hb
  · intro h
    induction h generalizing s with
    | intro a _ ih =>
        -- the rest of the list, all nodes before it being barren
        suffices hrest : ∀ before rest, items a = before ++ rest → (∀ r, .answer r ∉ before) →
            (∀ c, .visit c ∈ before → Barren items c) →
            ∃ fuel r, scan (search items deeper fuel (deeper s)) s rest = some r by
          obtain ⟨fuel, r, h⟩ := hrest [] _ rfl (by simp) (by simp)
          exact ⟨fuel + 1, r, h⟩
        intro before rest
        induction rest generalizing before with
        | nil => exact fun _ _ _ => ⟨0, none, rfl⟩
        | cons item rest ihrest =>
            intro hitems hanswer hbarren
            cases item with
            | answer r => exact ⟨0, some (s, r), rfl⟩
            | visit b =>
                obtain ⟨fuel, r, hb⟩ := ih b ⟨before, rest, hitems, hanswer, hbarren⟩ (deeper s)
                cases r with
                | some found => exact ⟨fuel, some found, by rw [scan, hb]⟩
                | none =>
                    have hb' := (search_none_iff (deeper s) b).mp ⟨fuel, hb⟩
                    obtain ⟨fuel', r, hr⟩ := ihrest (before ++ [.visit b])
                      (by rw [hitems, List.append_assoc]; rfl)
                      (by simpa using hanswer)
                      (by
                        intro c hc
                        rcases List.mem_append.mp hc with hc | hc
                        · exact hbarren c hc
                        · obtain rfl := Item.visit.inj (List.mem_singleton.mp hc)
                          exact hb')
                    refine ⟨max fuel fuel', r, ?_⟩
                    rw [scan, search_le (le_max_left _ _) hb]
                    exact scan_mono (fun _ _ hc => search_le (le_max_right _ _) hc) hr

section acyclic
variable {r : ν → ν → Prop} {a b : ν}

theorem acc_of_path (h : Acc (fun b a => r a b) a) (hpath : Relation.ReflTransGen r a b) :
    Acc (fun b a => r a b) b := by
  induction hpath with
  | refl => exact h
  | tail _ hstep ih => exact ih.inv hstep

theorem not_closed_of_acc (h : Acc (fun b a => r a b) a) : ¬ Relation.TransGen r a a := by
  induction h with
  | intro a _ ih =>
      intro hcycle
      obtain ⟨b, hstep, hback⟩ := Relation.TransGen.head'_iff.mp hcycle
      exact ih b hstep (Relation.TransGen.tail' hback hstep)

/-- Among finitely many nodes, the paths from `a` are finite exactly if none of them closes. -/
theorem acc_iff_acyclic {t : Set ν} (ht : t.Finite) (hclosed : ∀ a ∈ t, ∀ b, r a b → b ∈ t)
    (ha : a ∈ t) : Acc (fun b a => r a b) a ↔
      ¬ ∃ b, Relation.ReflTransGen r a b ∧ Relation.TransGen r b b := by
  constructor
  · rintro h ⟨b, hpath, hcycle⟩
    exact not_closed_of_acc (acc_of_path h hpath) hcycle
  · intro h
    have hmem (b : {b // Relation.ReflTransGen r a b}) : b.1 ∈ t := by
      obtain ⟨b, hb⟩ := b
      induction hb with
      | refl => exact ha
      | tail _ hstep ih => exact hclosed _ ih _ hstep
    have := ht.to_subtype
    have : Finite {b // Relation.ReflTransGen r a b} :=
      Finite.of_injective (fun b => (⟨b.1, hmem b⟩ : t)) fun b c hbc =>
        Subtype.ext (congrArg (fun x : t => x.1) hbc)
    let below (c b : {b // Relation.ReflTransGen r a b}) : Prop := Relation.TransGen r b.1 c.1
    have : IsTrans _ below := ⟨fun _ _ _ hcb hba => hba.trans hcb⟩
    have : Std.Irrefl below := ⟨fun b hb => h ⟨b.1, b.2, hb⟩⟩
    have hwf : WellFounded below := Finite.wellFounded_of_trans_of_irrefl below
    suffices hacc : ∀ b : {b // Relation.ReflTransGen r a b}, Acc (fun b a => r a b) b.1 from
      hacc ⟨a, .refl⟩
    intro b
    induction b using hwf.induction with
    | h b ih =>
        refine .intro b.1 fun c hstep => ?_
        exact ih ⟨c, b.2.tail hstep⟩ (Relation.TransGen.single hstep)

end acyclic

end DepthFirst
