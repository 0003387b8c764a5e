import WeensyOS.Consistency

/-!
# `duplicate_pagetable`

With five free pages it builds a tree on them that maps the addresses below `PROC_START_ADDR` as its
source does and nothing else. With fewer it takes what there is, clears those pages and page 0, and
fails.
-/

namespace WeensyOS
open ByteMemory

theorem or_table_flags (t : ℕ) : t * 4096 ||| pteP ||| pteW ||| pteU = t * 4096 + 7 := by
  rw [Nat.or_assoc, Nat.or_assoc]
  exact frame_or_flag (f := 7) (by norm_num)

theorem loadLE_zero {m : Memory} {a n : ℕ} (h : ∀ x, a ≤ x → x < a + n → m x = 0) :
    loadLE m a n = 0 := by
  induction n generalizing a with
  | zero => rfl
  | succ n ih =>
      rw [loadLE, h a le_rfl (by omega), ih (fun x hx hx' => h x (by omega) (by omega))]
      rfl

theorem entry_memset {m : Memory} {t i : ℕ} (hi : i < 512) :
    entry (memset m (t * 4096) 0 4096) (t * 4096) i = 0 := by
  apply loadLE_zero
  intro x hx hx'
  rw [memset_apply, if_pos (by omega)]

/-- A cleared table stays cleared when another page, or the same one, is cleared. -/
theorem entry_memset_of_zero {m : Memory} {t t' i : ℕ} (hi : i < 512)
    (h : entry m (t * 4096) i = 0) : entry (memset m (t' * 4096) 0 4096) (t * 4096) i = 0 := by
  by_cases ht : t = t'
  · subst t'
    exact entry_memset hi
  · rw [← h]
    exact (agreeOff_memset 4096 m t' 0).loadLE_eq ht (by omega)

/-- The four table entries on cleared pages give a tree with empty leaf tables. -/
theorem Tree.of_empty {m : Memory} {T : Fin 5 → ℕ} (hpos : ∀ j, 0 < T j) (hlt : ∀ j, T j < 512)
    (hinj : Function.Injective T) (hzero : ∀ j, ∀ i < 512, entry m (T j * 4096) i = 0) :
    Tree (setEntry (setEntry (setEntry (setEntry m (T 0 * 4096) 0 (T 1 * 4096 + 7))
      (T 1 * 4096) 0 (T 2 * 4096 + 7)) (T 2 * 4096) 0 (T 3 * 4096 + 7))
      (T 2 * 4096) 1 (T 4 * 4096 + 7)) T (fun _ => 0) := by
  have hent (j : Fin 5) : T j * 4096 + 7 < 2 ^ 64 := by have := hlt j; omega
  have hcalc (j : Fin 5) {i : ℕ} (hi : i < 512) :
      entry (setEntry (setEntry (setEntry (setEntry m (T 0 * 4096) 0 (T 1 * 4096 + 7))
        (T 1 * 4096) 0 (T 2 * 4096 + 7)) (T 2 * 4096) 0 (T 3 * 4096 + 7))
        (T 2 * 4096) 1 (T 4 * 4096 + 7)) (T j * 4096) i =
      if j = 2 ∧ i = 1 then T 4 * 4096 + 7 else if j = 2 ∧ i = 0 then T 3 * 4096 + 7
      else if j = 1 ∧ i = 0 then T 2 * 4096 + 7 else if j = 0 ∧ i = 0 then T 1 * 4096 + 7
      else 0 := by
    rw [entry_setEntry _ _ _ (by norm_num) hi (hent 4),
      entry_setEntry _ _ _ (by norm_num) hi (hent 3),
      entry_setEntry _ _ _ (by norm_num) hi (hent 2),
      entry_setEntry _ _ _ (by norm_num) hi (hent 1),
      hzero j i hi]
    simp only [hinj.eq_iff]
  refine ⟨hpos, hlt, hinj, fun i hi => ?_, fun i hi => ?_, fun i hi => ?_, fun i hi => ?_⟩
  · rw [hcalc 0 hi]
    simp
  · rw [hcalc 1 hi]
    simp
  · rw [hcalc 2 hi]
    by_cases h1 : i = 1
    · simp [h1]
    · simp [h1]
  · have hmod : i % 512 < 512 := Nat.mod_lt _ (by norm_num)
    unfold leafTable
    split_ifs
    · rw [hcalc 3 hmod]
      simp
    · rw [hcalc 4 hmod]
      simp

/-- What a copy of a mapping holds for the leaf entry `pe`. -/
def presentEntry (pe : ℕ) : ℕ := if pe &&& pteP ≠ 0 then pe else 0

theorem presentEntry_lt {m : Memory} {S : Fin 5 → ℕ} {leaf : ℕ → ℕ} (hS : Tree m S leaf) {i : ℕ}
    (hi : i < 1024) : presentEntry (leaf i) < 2 ^ 64 := by
  have := hS.leaf_lt hi
  unfold presentEntry
  split_ifs <;> omega

theorem presentEntry_kernelLeaf (i : ℕ) : presentEntry (kernelLeaf i) = kernelLeaf i := by
  refine if_pos ?_
  rw [kernelLeaf, frame_and_flag (by have := kernelPerm_lt i; omega) (by norm_num)]
  exact kernelPerm_present i

/-- Mapping what a lookup has found copies the leaf entry. -/
theorem Tree.map_ofEntry {m : Memory} {T : Fin 5 → ℕ} {leaf : ℕ → ℕ} (h : Tree m T leaf)
    {i pe : ℕ} (hi : i < 1024) (hpe : pe &&& pteP ≠ 0 → pe < 0x200000) :
    virtualMemoryMap m (T 0 * 4096) (i * 4096) (VaMapping.ofEntry pe (i * 4096)).pa 4096
        (VaMapping.ofEntry pe (i * 4096)).perm =
      .ok (setEntry m (leafTable T i * 4096) (i % 512) (presentEntry pe), 0) := by
  have hin : inTree (i * 4096) := by
    unfold inTree
    omega
  have hidx : i * 4096 / 4096 % 1024 = i := by omega
  by_cases hp : pe &&& pteP = 0
  · rw [VaMapping.ofEntry, if_neg (not_not.mpr hp), presentEntry, if_neg (not_not.mpr hp)]
    have hmap := h.map_page (i * 4096) (2 ^ 64 - 1) 0 (by omega) (by omega) (by norm_num)
      fun hc => absurd rfl hc
    rw [if_pos hin, hidx] at hmap
    exact hmap
  · have hlt := hpe hp
    have hpe' : pe / 4096 * 4096 + pe % 4096 = pe := by omega
    have hflag : pe % 4096 &&& pteP = pe &&& pteP := (and_flag_split (by norm_num)).symm
    have hmap := h.map_page (i * 4096) (pe / 4096 * 4096) (pe % 4096) (by omega) (by omega)
      (by omega) fun _ => by omega
    rw [if_pos hin, hidx, newEntry, hflag, if_pos hp, hpe'] at hmap
    rw [VaMapping.ofEntry, if_pos hp, presentEntry, if_pos hp, pageOffset_eq,
      pteAddr_eq (by omega), pteFlags_eq, Nat.mul_mod_left, Nat.add_zero]
    exact hmap

/-- The copy loop, with `n` of the 256 pages left. -/
theorem duplicateLoop_ok {m : Memory} {S T : Fin 5 → ℕ} {leaf : ℕ → ℕ} {i n : ℕ}
    (hS : Tree m S leaf) (hphys : ∀ i < 256, leaf i &&& pteP ≠ 0 → leaf i < 0x200000)
    (hT : Tree m T (fun x => if x < i then presentEntry (leaf x) else 0))
    (hdisj : ∀ j j', T j ≠ S j') (hn : i + n = 256) :
    ∃ m', duplicateLoop (S 0 * 4096) (T 0 * 4096) n (i * 4096) m = .ok m' ∧
      Tree m' T (fun x => if x < 256 then presentEntry (leaf x) else 0) ∧
      AgreeOff 4096 (fun pn => ∃ j, pn = T j) m m' := by
  induction n generalizing m i with
  | zero =>
      obtain rfl : i = 256 := by omega
      exact ⟨m, rfl, hT, AgreeOff.refl _ _ _⟩
  | succ n ih =>
      have hlook := hS.lookup_page (i := i) (by omega)
      have hmap := hT.map_ofEntry (i := i) (by omega) (hphys i (by omega))
      have hi : i < 1024 := by omega
      have hset := hT.setLeaf hi (presentEntry_lt hS hi)
      have hagree : AgreeOff 4096 (fun pn => ∃ j, pn = T j) m
          (setEntry m (leafTable T i * 4096) (i % 512) (presentEntry (leaf i))) :=
        Tree.agreeOff_tables m T i _
      have hS' := hS.frame hagree (fun j' ⟨j, hj⟩ => hdisj j j' hj.symm)
      have hleaf' : Function.update (fun x => if x < i then presentEntry (leaf x) else 0) i
          (presentEntry (leaf i)) = fun x => if x < i + 1 then presentEntry (leaf x) else 0 := by
        funext x
        by_cases hx : x = i
        · subst x
          rw [Function.update_self, if_pos (by omega)]
        · rw [Function.update_of_ne hx]
          exact if_congr (by omega) rfl rfl
      rw [hleaf'] at hset
      obtain ⟨m', hm', htree, ha⟩ := ih hS' hset (by omega)
      refine ⟨m', ?_, htree, hagree.trans ha⟩
      rw [duplicateLoop, hlook]
      simp only [pageSize]
      rw [hmap, ok_bind, show i * 4096 + 4096 = (i + 1) * 4096 by omega]
      exact hm'

theorem toInt8_pid {c : ℕ} (hc : c < 16) : toInt8 c = c := toInt8_eq_self (by omega) (by omega)

namespace World

/-- What `w` becomes when `c` has taken a fresh page for each table in `js`. -/
structure TookTables (c : ℕ) (js : List (Fin 5)) (w w' : World) : Prop where
  state : w'.state = w.state
  current : w'.current = w.current
  other : ∀ x, (∀ j ∈ js, x ≠ (c, .table j)) → w'.held x = w.held x
  held : ∀ j ∈ js, w'.held (c, .table j) = some ⟨w'.frames c j, true⟩
  fresh : ∀ j ∈ js, 1 ≤ w'.frames c j ∧ w'.frames c j < 512 ∧
    (w.info (w'.frames c j)).refcount = 0
  inj : ∀ j ∈ js, ∀ j' ∈ js, w'.frames c j = w'.frames c j' → j = j'
  info : ∀ pn, w'.info pn = if ∃ j ∈ js, pn = w'.frames c j then ⟨c, 1⟩ else w.info pn

theorem takeTables_spec {c : ℕ} {js : List (Fin 5)} {w w' : World} (hnd : js.Nodup)
    (h : js.foldlM (takeTable c) w = some w') : TookTables c js w w' := by
  induction js generalizing w with
  | nil =>
      obtain rfl : w = w' := by simpa using h
      exact ⟨rfl, rfl, fun _ _ => rfl, by simp, by simp, by simp, by simp⟩
  | cons j js ih =>
      obtain ⟨hj, hnd'⟩ := List.nodup_cons.mp hnd
      rw [List.foldlM_cons, Option.bind_eq_bind, Option.bind_eq_some_iff] at h
      obtain ⟨w₁, h₁, h⟩ := h
      unfold takeTable at h₁
      rw [Option.map_eq_some_iff] at h₁
      obtain ⟨pn, hpn, rfl⟩ := h₁
      obtain ⟨hpn1, hpn2, hpn3⟩ := lowestFree_eq_some hpn
      have hrest := ih hnd' h
      have hslot : w'.held (c, .table j) = some ⟨pn, true⟩ := by
        rw [hrest.other _ (fun j' hj' heq => hj (by simp_all))]
        simp
      have hframe : w'.frames c j = pn := by rw [frames, hslot]
      have hne (j' : Fin 5) (hj' : j' ∈ js) : w'.frames c j' ≠ pn := by
        intro heq
        have := (hrest.fresh j' hj').2.2
        rw [heq] at this
        simp at this
      refine ⟨hrest.state, hrest.current, fun x hx => ?_, fun j' hj' => ?_, fun j' hj' => ?_,
        fun j₁ h₁ j₂ h₂ heq => ?_, fun x => ?_⟩
      · rw [hrest.other x (fun j' hj' => hx j' (by simp [hj']))]
        simp [hx j (by simp)]
      · rcases List.mem_cons.mp hj' with rfl | hj'
        · rw [hframe, hslot]
        · exact hrest.held j' hj'
      · rcases List.mem_cons.mp hj' with rfl | hj'
        · rw [hframe]
          exact ⟨hpn1, hpn2, hpn3⟩
        · obtain ⟨a, b, d⟩ := hrest.fresh j' hj'
          rw [give_info, Function.update_of_ne (hne j' hj')] at d
          exact ⟨a, b, d⟩
      · rcases List.mem_cons.mp h₁ with e₁ | m₁ <;> rcases List.mem_cons.mp h₂ with e₂ | m₂
        · rw [e₁, e₂]
        · rw [e₁, hframe] at heq
          exact absurd heq.symm (hne j₂ m₂)
        · rw [e₂, hframe] at heq
          exact absurd heq (hne j₁ m₁)
        · exact hrest.inj j₁ m₁ j₂ m₂ heq
      · rw [hrest.info x, give_info]
        by_cases hx : x = pn
        · subst x
          rw [Function.update_self, ite_self, if_pos ⟨j, by simp, hframe.symm⟩]
        · rw [Function.update_of_ne hx]
          apply if_congr _ rfl rfl
          constructor
          · rintro ⟨j', hj', he⟩
            exact ⟨j', List.mem_cons_of_mem _ hj', he⟩
          · rintro ⟨j', hj', he⟩
            rcases List.mem_cons.mp hj' with rfl | hj'
            · exact absurd (he.trans hframe) hx
            · exact ⟨j', hj', he⟩

theorem mem_tables (j : Fin 5) : j ∈ [(0 : Fin 5), 1, 2, 3, 4] := by fin_cases j <;> simp

theorem duplicate_spec {c : ℕ} {w w' : World} (h : duplicate c w = some w') :
    TookTables c [0, 1, 2, 3, 4] w w' := takeTables_spec (by decide) h

/-- The five allocations one by one, as `duplicate_pagetable` makes them. -/
theorem duplicate_steps {c : ℕ} (hc : c < 16) {w w' : World} (h : duplicate c w = some w') :
    ∃ i₁ i₂ i₃ i₄ : PageInfos,
      allocPageProcess w.info c = (i₁, w'.frames c 0 * 4096) ∧
      allocPageProcess i₁ c = (i₂, w'.frames c 1 * 4096) ∧
      allocPageProcess i₂ c = (i₃, w'.frames c 2 * 4096) ∧
      allocPageProcess i₃ c = (i₄, w'.frames c 3 * 4096) ∧
      allocPageProcess i₄ c = (w'.info, w'.frames c 4 * 4096) := by
  have hstep {w₁ w₂ : World} {j : Fin 5} (ht : takeTable c w₁ j = some w₂) :
      ∃ pn, w₂ = w₁.give c (.table j) pn ∧
        allocPageProcess w₁.info c = (w₂.info, pn * 4096) := by
    unfold takeTable at ht
    rw [Option.map_eq_some_iff] at ht
    obtain ⟨pn, hpn, rfl⟩ := ht
    refine ⟨pn, rfl, ?_⟩
    rw [allocPageProcess_eq, hpn, toInt8_pid hc]
    rfl
  simp only [duplicate, List.foldlM_cons, List.foldlM_nil, Option.bind_eq_bind,
    Option.bind_eq_some_iff, Option.pure_def, Option.some.injEq] at h
  obtain ⟨w₁, h₁, w₂, h₂, w₃, h₃, w₄, h₄, w₅, h₅, rfl⟩ := h
  obtain ⟨p₁, rfl, a₁⟩ := hstep h₁
  obtain ⟨p₂, rfl, a₂⟩ := hstep h₂
  obtain ⟨p₃, rfl, a₃⟩ := hstep h₃
  obtain ⟨p₄, rfl, a₄⟩ := hstep h₄
  obtain ⟨p₅, rfl, a₅⟩ := hstep h₅
  refine ⟨_, _, _, _, a₁.trans ?_, a₂.trans ?_, a₃.trans ?_, a₄.trans ?_, a₅.trans ?_⟩ <;>
    simp [frames]

theorem takeTable_some {c : ℕ} {w : World} (j : Fin 5) (h : 0 < (freePages w.info).card) :
    ∃ w', takeTable c w j = some w' ∧ (freePages w'.info).card + 1 = (freePages w.info).card := by
  obtain ⟨pn, hpn⟩ := exists_lowestFree h
  refine ⟨w.give c (.table j) pn, by rw [takeTable, hpn]; rfl, ?_⟩
  rw [give_info]
  exact card_freePages_assign c hpn

theorem takeTables_some {c : ℕ} {w : World} (js : List (Fin 5))
    (h : js.length ≤ (freePages w.info).card) :
    ∃ w', js.foldlM (takeTable c) w = some w' ∧
      (freePages w'.info).card + js.length = (freePages w.info).card := by
  induction js generalizing w with
  | nil => exact ⟨w, rfl, rfl⟩
  | cons j js ih =>
      rw [List.length_cons] at h
      obtain ⟨w₁, h₁, hc₁⟩ := takeTable_some (c := c) j (show 0 < (freePages w.info).card by omega)
      obtain ⟨w', h', hc'⟩ := ih (w := w₁) (by omega)
      refine ⟨w', ?_, by rw [List.length_cons]; omega⟩
      rw [List.foldlM_cons, h₁]
      exact h'

/-- Five free pages are enough for the tables of a process. -/
theorem duplicate_some {w : World} (c : ℕ) (h : 5 ≤ (freePages w.info).card) :
    ∃ w', duplicate c w = some w' ∧ (freePages w'.info).card + 5 = (freePages w.info).card :=
  takeTables_some [0, 1, 2, 3, 4] h

theorem takeTables_card {c : ℕ} {w w' : World} {js : List (Fin 5)}
    (h : js.foldlM (takeTable c) w = some w') :
    (freePages w'.info).card + js.length = (freePages w.info).card := by
  induction js generalizing w with
  | nil =>
      obtain rfl := Option.some.inj h
      rfl
  | cons j js ih =>
      rw [List.foldlM_cons, Option.bind_eq_bind, Option.bind_eq_some_iff] at h
      obtain ⟨w₁, h₁, h⟩ := h
      obtain ⟨pn, hpn, rfl⟩ := Option.map_eq_some_iff.mp h₁
      have hcard := card_freePages_assign c hpn
      have hrest := ih h
      rw [give_info] at hrest
      rw [List.length_cons]
      omega

theorem duplicate_none {w : World} (c : ℕ) (h : (freePages w.info).card < 5) :
    duplicate c w = none := by
  cases hdup : duplicate c w with
  | none => rfl
  | some w' =>
      have hcard := takeTables_card hdup
      simp only [List.length_cons, List.length_nil] at hcard
      omega

end World

theorem duplicatePagetable_copies {m : Memory} {S : Fin 5 → ℕ} {leaf : ℕ → ℕ} {c : ℕ}
    {w w' : World} (hc : c < 16) (hS : Tree m S leaf)
    (hphys : ∀ i < 256, leaf i &&& pteP ≠ 0 → leaf i < 0x200000)
    (hused : ∀ j, (w.info (S j)).refcount ≠ 0) (hdup : w.duplicate c = some w') :
    ∃ m', duplicatePagetable m w.info (S 0 * 4096) c = .ok (m', w'.info, w'.frames c 0 * 4096) ∧
      Tree m' (w'.frames c) (fun x => if x < 256 then presentEntry (leaf x) else 0) ∧
      AgreeOff 4096 (fun pn => ∃ j, pn = w'.frames c j) m m' := by
  have htook := World.duplicate_spec hdup
  obtain ⟨i₁, i₂, i₃, i₄, a₁, a₂, a₃, a₄, a₅⟩ := World.duplicate_steps hc hdup
  have hfresh (j : Fin 5) := htook.fresh j (World.mem_tables j)
  have hinj : Function.Injective (w'.frames c) :=
    fun j j' heq => htook.inj j (World.mem_tables j) j' (World.mem_tables j') heq
  generalize w'.frames c = T at *
  have hdisj (j j' : Fin 5) : T j ≠ S j' := by
    intro heq
    exact hused j' (heq ▸ (hfresh j).2.2)
  set m₀ := memset (memset (memset (memset (memset m (T 0 * 4096) 0 4096) (T 1 * 4096) 0 4096)
    (T 2 * 4096) 0 4096) (T 3 * 4096) 0 4096) (T 4 * 4096) 0 4096 with hm₀
  have hzero (j : Fin 5) (i : ℕ) (hi : i < 512) : entry m₀ (T j * 4096) i = 0 := by
    fin_cases j
    · exact entry_memset_of_zero hi (entry_memset_of_zero hi (entry_memset_of_zero hi
        (entry_memset_of_zero hi (entry_memset hi))))
    · exact entry_memset_of_zero hi (entry_memset_of_zero hi (entry_memset_of_zero hi
        (entry_memset hi)))
    · exact entry_memset_of_zero hi (entry_memset_of_zero hi (entry_memset hi))
    · exact entry_memset_of_zero hi (entry_memset hi)
    · exact entry_memset hi
  have hclear (j : Fin 5) (m : Memory) :
      AgreeOff 4096 (fun pn => ∃ j, pn = T j) m (memset m (T j * 4096) 0 4096) :=
    (agreeOff_memset 4096 m (T j) 0).mono fun pn hpn => ⟨j, hpn⟩
  have hset (j : Fin 5) (i pe : ℕ) (hi : i < 512) (m : Memory) :
      AgreeOff 4096 (fun pn => ∃ j, pn = T j) m (setEntry m (T j * 4096) i pe) :=
    (agreeOff_storeLE 4096 m (T j) (8 * i) pe 8 (by omega)).mono fun pn hpn => ⟨j, hpn⟩
  have ha₀ : AgreeOff 4096 (fun pn => ∃ j, pn = T j) m m₀ :=
    ((((hclear 0 _).trans (hclear 1 _)).trans (hclear 2 _)).trans (hclear 3 _)).trans (hclear 4 _)
  have htree := Tree.of_empty (fun j => (hfresh j).1) (fun j => (hfresh j).2.1) hinj hzero
  have ha₁ := (((ha₀.trans (hset 0 0 (T 1 * 4096 + 7) (by norm_num) _)).trans
    (hset 1 0 (T 2 * 4096 + 7) (by norm_num) _)).trans
    (hset 2 0 (T 3 * 4096 + 7) (by norm_num) _)).trans
    (hset 2 1 (T 4 * 4096 + 7) (by norm_num) _)
  obtain ⟨m', hm', htree', ha'⟩ := duplicateLoop_ok (i := 0) (n := 256)
    (hS.frame ha₁ (fun j' ⟨j, hj⟩ => hdisj j j' hj.symm)) hphys (by simpa using htree) hdisj rfl
  refine ⟨m', ?_, htree', ha₁.trans ha'⟩
  have hne (j : Fin 5) : T j * 4096 ≠ 0 := by have := (hfresh j).1; omega
  unfold duplicatePagetable
  simp only [a₁, a₂, a₃, a₄, a₅, pageSize, or_table_flags]
  rw [← hm₀, if_pos ⟨hne 0, hne 1, hne 2, hne 3, hne 4⟩]
  rw [Nat.zero_mul] at hm'
  rw [show procStartAddr / 4096 = 256 from rfl, hm']
  rfl

/-- The copy of a table with the usual mappings below `PROC_START_ADDR`. -/
theorem duplicatePagetable_ok {m : Memory} {S : Fin 5 → ℕ} {leaf : ℕ → ℕ} {c : ℕ} {w w' : World}
    (hc : c < 16) (hS : Tree m S leaf) (hleaf : ∀ i < 256, leaf i = kernelLeaf i)
    (hused : ∀ j, (w.info (S j)).refcount ≠ 0) (hdup : w.duplicate c = some w') :
    ∃ m', duplicatePagetable m w.info (S 0 * 4096) c = .ok (m', w'.info, w'.frames c 0 * 4096) ∧
      Tree m' (w'.frames c) (fun x => if x < 256 then kernelLeaf x else 0) ∧
      AgreeOff 4096 (fun pn => ∃ j, pn = w'.frames c j) m m' := by
  obtain ⟨m', hm', htree, ha⟩ := duplicatePagetable_copies hc hS (fun i hi _ => by
    have := kernelPerm_lt i
    rw [hleaf i hi, kernelLeaf]
    omega) hused hdup
  have hcopy : (fun x => if x < 256 then presentEntry (leaf x) else 0) =
      fun x => if x < 256 then kernelLeaf x else 0 := by
    funext x
    split_ifs with hx
    · rw [hleaf x hx, presentEntry_kernelLeaf]
    · rfl
  exact ⟨m', hm', hcopy ▸ htree, ha⟩

/-- The page that an allocation reports: a free one, or page 0 for none. -/
theorem allocPageProcess_page (info : PageInfos) (pid : ℤ) :
    ∃ pn, (allocPageProcess info pid).2 = pn * 4096 ∧
      (pn = 0 ∨ pn < 512 ∧ (info pn).refcount = 0) ∧
      ∀ x, ((allocPageProcess info pid).1 x).refcount = 0 → (info x).refcount = 0 := by
  rw [allocPageProcess_eq]
  cases h : lowestFree info with
  | none => exact ⟨0, rfl, Or.inl rfl, fun _ hx => hx⟩
  | some pn =>
      obtain ⟨h1, h2, h3⟩ := lowestFree_eq_some h
      refine ⟨pn, rfl, Or.inr ⟨h2, h3⟩, fun x hx => ?_⟩
      by_cases hxp : x = pn
      · rw [hxp, h3]
      · simpa [Function.update_of_ne hxp] using hx

theorem World.takeTable_of_alloc {c : ℕ} (hc : c < 16) {w : World} (j : Fin 5)
    (h : (allocPageProcess w.info c).2 ≠ 0) :
    ∃ w₁, takeTable c w j = some w₁ ∧ w₁.info = (allocPageProcess w.info c).1 := by
  rw [allocPageProcess_eq] at h ⊢
  cases hf : lowestFree w.info with
  | none => rw [hf] at h; exact absurd rfl h
  | some pn =>
      refine ⟨w.give c (.table j) pn, ?_, ?_⟩
      · rw [takeTable, hf]
        rfl
      · rw [toInt8_pid hc]
        rfl

/-- Without enough free pages, those that there are get lost and some are cleared. -/
theorem duplicatePagetable_fail {c : ℕ} (hc : c < 16) {w : World} (hnone : w.duplicate c = none) :
    ∃ f, Pointwise f ∧ ∀ m src,
      duplicatePagetable m w.info src c = .ok (f m, World.drain w.info c, 0) ∧
      AgreeOff 4096 (fun pn => pn = 0 ∨ pn < 512 ∧ (w.info pn).refcount = 0) m (f m) := by
  unfold duplicatePagetable World.drain
  simp only [Function.iterate_succ, Function.iterate_zero, Function.comp_apply, id_eq, pageSize]
  generalize hr₁ : allocPageProcess w.info c = r₁
  generalize hr₂ : allocPageProcess r₁.1 c = r₂
  generalize hr₃ : allocPageProcess r₂.1 c = r₃
  generalize hr₄ : allocPageProcess r₃.1 c = r₄
  generalize hr₅ : allocPageProcess r₄.1 c = r₅
  have hfail : ¬ (r₁.2 ≠ 0 ∧ r₂.2 ≠ 0 ∧ r₃.2 ≠ 0 ∧ r₄.2 ≠ 0 ∧ r₅.2 ≠ 0) := by
    rintro ⟨n₁, n₂, n₃, n₄, n₅⟩
    obtain ⟨w₁, t₁, i₁⟩ := World.takeTable_of_alloc hc 0 (by rwa [hr₁])
    rw [hr₁] at i₁
    obtain ⟨w₂, t₂, i₂⟩ := World.takeTable_of_alloc hc (w := w₁) 1 (by rwa [i₁, hr₂])
    rw [i₁, hr₂] at i₂
    obtain ⟨w₃, t₃, i₃⟩ := World.takeTable_of_alloc hc (w := w₂) 2 (by rwa [i₂, hr₃])
    rw [i₂, hr₃] at i₃
    obtain ⟨w₄, t₄, i₄⟩ := World.takeTable_of_alloc hc (w := w₃) 3 (by rwa [i₃, hr₄])
    rw [i₃, hr₄] at i₄
    obtain ⟨w₅, t₅, -⟩ := World.takeTable_of_alloc hc (w := w₄) 4 (by rwa [i₄, hr₅])
    simp [World.duplicate, t₁, t₂, t₃, t₄, t₅] at hnone
  simp only [if_neg hfail]
  obtain ⟨p₁, e₁, f₁, b₁⟩ := allocPageProcess_page w.info c
  obtain ⟨p₂, e₂, f₂, b₂⟩ := allocPageProcess_page r₁.1 c
  obtain ⟨p₃, e₃, f₃, b₃⟩ := allocPageProcess_page r₂.1 c
  obtain ⟨p₄, e₄, f₄, b₄⟩ := allocPageProcess_page r₃.1 c
  obtain ⟨p₅, e₅, f₅, -⟩ := allocPageProcess_page r₄.1 c
  rw [hr₁] at e₁ b₁
  rw [hr₂] at e₂ b₂
  rw [hr₃] at e₃ b₃
  rw [hr₄] at e₄ b₄
  rw [hr₅] at e₅
  have hclear (pn : ℕ) (h : pn = 0 ∨ pn < 512 ∧ (w.info pn).refcount = 0) (m : Memory) :
      AgreeOff 4096 (fun pn => pn = 0 ∨ pn < 512 ∧ (w.info pn).refcount = 0) m
        (memset m (pn * 4096) 0 4096) :=
    (agreeOff_memset 4096 m pn 0).mono fun x hx => hx ▸ h
  rw [e₁, e₂, e₃, e₄, e₅]
  refine ⟨_, ((((pointwise_memset _ _ _).comp (pointwise_memset _ _ _)).comp
    (pointwise_memset _ _ _)).comp (pointwise_memset _ _ _)).comp (pointwise_memset _ _ _),
    fun m src => ⟨rfl, ?_⟩⟩
  refine ((((hclear p₁ f₁ _).trans (hclear p₂ ?_ _)).trans (hclear p₃ ?_ _)).trans
    (hclear p₄ ?_ _)).trans (hclear p₅ ?_ _)
  · exact f₂.imp_right fun h => ⟨h.1, b₁ _ h.2⟩
  · exact f₃.imp_right fun h => ⟨h.1, b₁ _ (b₂ _ h.2)⟩
  · exact f₄.imp_right fun h => ⟨h.1, b₁ _ (b₂ _ (b₃ _ h.2))⟩
  · exact f₅.imp_right fun h => ⟨h.1, b₁ _ (b₂ _ (b₃ _ (b₄ _ h.2)))⟩

end WeensyOS
