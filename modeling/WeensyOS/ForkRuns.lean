import WeensyOS.ForkProgram

/-!
# Four processes from one

The kernel starts p-fork.c as process 1. The two forks, by the first process and by its first child,
make processes 2, 3 and 4 in some order, and no more. What is counted is the number of processes
that each process stands for: four before its first fork, two before its second, itself after that.
-/

namespace WeensyOS.Fork
open ByteMemory World Runs UserProgram

/-- The processes that one process becomes. -/
def weight : Stage → ℕ
  | .first => 4
  | .second => 2
  | _ => 1

/-- The answers of the forks among processes 1 to `k`, as process `p` knows them. -/
def Told (k p : ℕ) (s : State) : Prop :=
  match s.stage with
  | .first => p = 1
  | .second => if p = 1 then ∃ c, 1 < c ∧ c ≤ k ∧ s.p1 = BitVec.ofNat 32 c else s.p1 = 0
  | .check => if p = 1 then ∃ c d, 1 < c ∧ c < d ∧ d ≤ k ∧ s.p1 = BitVec.ofNat 32 c ∧
      s.p2 = BitVec.ofNat 32 d else s.p1 = 0 ∨ s.p2 = 0
  | .main => True
  | .failed => False

/-- Processes 1 to `k` exist, and stand for four. -/
structure Family (k : ℕ) (S : System) (control : ℕ → State) : Prop where
  alive : ∀ p, S.process p ≠ none ↔ 1 ≤ p ∧ p ≤ k
  total : ∑ p ∈ Finset.Icc 1 k, weight (control p).stage = 4
  told : ∀ p, 1 ≤ p → p ≤ k → Told k p (control p)

theorem weight_eq_one {s : State} (h : act s ≠ .fork) : weight s.stage = 1 := by
  cases hstage : s.stage with
  | first => exact absurd (by rw [act, hstage]) h
  | second => exact absurd (by rw [act, hstage]) h
  | _ => rfl

theorem weight_pos (s : Stage) : 1 ≤ weight s := by
  cases s <;> decide

theorem Told.mono {k p : ℕ} {s : State} (h : Told k p s) : Told (k + 1) p s := by
  unfold Told at h ⊢
  split at h
  case h_2 =>
    split_ifs at h ⊢
    · obtain ⟨c, h1, hk, hp⟩ := h
      exact ⟨c, h1, by omega, hp⟩
    · exact h
  case h_3 =>
    split_ifs at h ⊢
    · obtain ⟨c, d, h1, hcd, hk, hp⟩ := h
      exact ⟨c, d, h1, hcd, by omega, hp⟩
    · exact h
  all_goals exact h

/-- Process numbers are small. -/
theorem toInt_ofNat {c : ℕ} (h : c < 16) : 0 ≤ (BitVec.ofNat 32 c).toInt := by
  interval_cases c <;> decide

theorem ofNat_inj {c d : ℕ} (hc : c < 16) (hd : d < 16) :
    BitVec.ofNat 32 c = BitVec.ofNat 32 d ↔ c = d := by
  rw [← BitVec.toNat_inj, BitVec.toNat_ofNat, BitVec.toNat_ofNat]
  omega

namespace Family

variable {k : ℕ} {S S' : System} {control : ℕ → State} {e : Event} {o : Outcome} {cpu : Cpu}

theorem le_four (h : Family k S control) {p : ℕ} (h1 : 1 ≤ p) (hk : p ≤ k) :
    weight (control p).stage + (k - 1) ≤ 4 := by
  have hp : p ∈ Finset.Icc 1 k := Finset.mem_Icc.mpr ⟨h1, hk⟩
  have hsplit := Finset.add_sum_erase (Finset.Icc 1 k) (fun p => weight (control p).stage) hp
  have hrest : ((Finset.Icc 1 k).erase p).card • 1 ≤
      ∑ q ∈ (Finset.Icc 1 k).erase p, weight (control q).stage :=
    Finset.card_nsmul_le_sum _ _ 1 fun q _ => weight_pos _
  rw [Finset.card_erase_of_mem hp, Nat.card_Icc, smul_eq_mul, mul_one] at hrest
  have htotal := h.total
  omega

/-- When nobody is going to fork any more, there are four. -/
theorem eq_four (h : Family k S control)
    (hdone : ∀ p, 1 ≤ p → p ≤ k → weight (control p).stage = 1) : k = 4 := by
  have htotal := h.total
  rw [Finset.sum_congr rfl fun p hp => hdone p (Finset.mem_Icc.mp hp).1 (Finset.mem_Icc.mp hp).2,
    Finset.sum_const, Nat.card_Icc, smul_eq_mul, mul_one] at htotal
  omega

/-- The slot that a fork finds. -/
theorem firstFree_iff (h : Family k S control) (hk : k < 15) (c : ℕ) :
    S.FirstFree c ↔ c = k + 1 := by
  have hfree (p : ℕ) : S.process p = none ↔ ¬ (1 ≤ p ∧ p ≤ k) := by
    rw [← h.alive, not_not]
  constructor
  · rintro ⟨h1, -, hnone, hbelow⟩
    have hc := (hfree c).mp hnone
    by_contra hne
    have hlast := (h.alive (k + 1)).mp (hbelow (k + 1) (by omega) (by omega))
    omega
  · rintro rfl
    simp only [System.FirstFree, nProc]
    refine ⟨by omega, by omega, (hfree _).mpr (by omega), fun q h1 hq => (h.alive q).mpr ?_⟩
    omega

/-- The current process goes on, and nobody comes or goes. -/
theorem stay (h : Family k S control) {control' : ℕ → State}
    (halive : ∀ p, S'.process p ≠ none ↔ S.process p ≠ none) {c : ℕ} {s : State}
    (hcontrol : ∀ p, S.process p ≠ none → control' p = if p = c then s else control p)
    (hweight : weight s.stage = weight (control c).stage) (htold : Told k c s) :
    Family k S' control' := by
  have heq {p : ℕ} (h1 : 1 ≤ p) (hk : p ≤ k) := hcontrol p ((h.alive p).mpr ⟨h1, hk⟩)
  refine ⟨fun p => (halive p).trans (h.alive p), ?_, fun p h1 hk => ?_⟩
  · rw [← h.total]
    refine Finset.sum_congr rfl fun p hp => ?_
    obtain ⟨h1, hk⟩ := Finset.mem_Icc.mp hp
    rw [heq h1 hk]
    split_ifs with hpc
    · rw [hweight, hpc]
    · rfl
  · rw [heq h1 hk]
    split_ifs with hpc
    · rw [hpc]
      exact htold
    · exact h.told p h1 hk

/-- The current process `c` forks into `s`, and its child starts as `t`. -/
theorem grow (h : Family k S control) {control' : ℕ → State}
    (halive : ∀ p, S'.process p ≠ none ↔ p = k + 1 ∨ S.process p ≠ none) {c : ℕ} {s t : State}
    (h1 : 1 ≤ c) (hk : c ≤ k) (hchild : control' (k + 1) = t)
    (hcontrol : ∀ p, S.process p ≠ none → control' p = if p = c then s else control p)
    (hweight : weight s.stage + weight t.stage = weight (control c).stage)
    (hs : Told (k + 1) c s) (ht : Told (k + 1) (k + 1) t) : Family (k + 1) S' control' := by
  have heq {p : ℕ} (h1 : 1 ≤ p) (hk : p ≤ k) := hcontrol p ((h.alive p).mpr ⟨h1, hk⟩)
  refine ⟨fun p => (halive p).trans ?_, ?_, fun p h1 hp => ?_⟩
  · rw [h.alive]
    omega
  · have hc : c ∈ Finset.Icc 1 k := Finset.mem_Icc.mpr ⟨h1, hk⟩
    have hold := Finset.add_sum_erase (Finset.Icc 1 k) (fun p => weight (control p).stage) hc
    have hnew := Finset.add_sum_erase (Finset.Icc 1 k) (fun p => weight (control' p).stage) hc
    have hrest : ∑ p ∈ (Finset.Icc 1 k).erase c, weight (control' p).stage =
        ∑ p ∈ (Finset.Icc 1 k).erase c, weight (control p).stage := by
      refine Finset.sum_congr rfl fun p hp => ?_
      obtain ⟨hne, hp⟩ := Finset.mem_erase.mp hp
      obtain ⟨h1, hk⟩ := Finset.mem_Icc.mp hp
      rw [heq h1 hk, if_neg hne]
    have htotal := h.total
    rw [Finset.sum_Icc_succ_top (by omega), hchild]
    rw [hrest, heq h1 hk, if_pos rfl] at hnew
    omega
  · rcases Nat.lt_or_eq_of_le hp with hlt | rfl
    · rw [heq h1 (by omega)]
      split_ifs with hpc
      · rw [hpc]
        exact hs
      · exact (h.told p h1 (by omega)).mono
    · rw [hchild]
      exact ht

end Family

/-! What the forks tell. -/

section told
variable {k p : ℕ} {s : State}

theorem setWidth_ofNat (c : ℕ) : (BitVec.ofNat 64 c).setWidth 32 = BitVec.ofNat 32 c :=
  BitVec.setWidth_ofNat_of_le (by norm_num) c

theorem resume_first (h : s.stage = .first) {c : ℕ} (hc : c < 16) :
    program.resume s (BitVec.ofNat 64 c) =
      { s with p1 := BitVec.ofNat 32 c, stage := .second } := by
  rw [resume_eq, resume, h]
  dsimp only
  rw [setWidth_ofNat, State.assert, if_pos (toInt_ofNat hc)]

theorem resume_second (h : s.stage = .second) {c : ℕ} (hc : c < 16) :
    program.resume s (BitVec.ofNat 64 c) =
      { s with p2 := BitVec.ofNat 32 c, stage := .check } := by
  rw [resume_eq, resume, h]
  dsimp only
  rw [setWidth_ofNat, State.assert, if_pos (toInt_ofNat hc)]

/-- A fork returns the number of the child, and zero in the child. -/
theorem Told.fork (h : Told k p s) (hact : act s = .fork) (hp : p ≤ k) (hk : 1 ≤ k)
    (hk' : k < 15) :
    Told (k + 1) p (program.resume s (BitVec.ofNat 64 (k + 1))) ∧
    Told (k + 1) (k + 1) (program.resume s (BitVec.ofNat 64 0)) ∧
    weight (program.resume s (BitVec.ofNat 64 (k + 1))).stage +
      weight (program.resume s (BitVec.ofNat 64 0)).stage = weight s.stage := by
  have hne : k + 1 ≠ 1 := by omega
  rcases act_fork hact with hstage | hstage
  · rw [resume_first hstage (by omega), resume_first hstage (by omega), hstage]
    rw [Told, hstage] at h
    refine ⟨?_, ?_, rfl⟩
    · simp only [Told]
      rw [if_pos h]
      exact ⟨k + 1, by omega, le_rfl, rfl⟩
    · simp only [Told]
      rw [if_neg hne]
      rfl
  · rw [resume_second hstage (by omega), resume_second hstage (by omega), hstage]
    rw [Told, hstage] at h
    dsimp only at h
    refine ⟨?_, ?_, rfl⟩
    · simp only [Told]
      split_ifs at h ⊢
      · obtain ⟨c, h1, hck, hc⟩ := h
        exact ⟨c, k + 1, h1, by omega, le_rfl, hc, rfl⟩
      · exact .inl h
    · simp only [Told]
      rw [if_neg hne]
      exact .inr rfl

/-- The answers pass the check. -/
theorem Told.answersOk (h : Told k p s) (hstage : s.stage = .check) (hp : p < 16) (hk : k < 16) :
    answersOk (BitVec.ofNat 32 p) s.p1 s.p2 := by
  rw [Told, hstage] at h
  dsimp only at h
  have hone : BitVec.ofNat 32 p = 1 ↔ p = 1 := ofNat_inj hp (by norm_num)
  unfold Fork.answersOk
  simp only [hone]
  split_ifs at h ⊢
  · obtain ⟨c, d, h1, hcd, hdk, hc, hd⟩ := h
    rw [hc, hd]
    refine ⟨fun h0 => ?_, fun h0 => ?_, fun heq => ?_⟩
    · have := (ofNat_inj (d := 0) (by omega) (by norm_num)).mp h0
      omega
    · have := (ofNat_inj (d := 0) (by omega) (by norm_num)).mp h0
      omega
    · have := (ofNat_inj (by omega) (by omega)).mp heq
      omega
  · exact h

theorem resume_check (h : Told k p s) (hstage : s.stage = .check) (hp : p < 16) (hk : k < 16) :
    program.resume s (BitVec.ofNat 64 p) = { s with stage := .main } := by
  rw [resume_eq, resume, hstage]
  dsimp only
  rw [setWidth_ofNat, State.assert, if_pos (h.answersOk hstage hp hk)]

/-- Everything else leaves the process with what it knows. -/
theorem Told.quiet (h : Told k p s) (hact : act s ≠ .fork) (hp : p < 16) (hk : k < 16)
    {v : BitVec 64} (hv : s.stage = .check → v = BitVec.ofNat 64 p) :
    weight (program.resume s v).stage = weight s.stage ∧ Told k p (program.resume s v) := by
  cases hstage : s.stage with
  | first => exact absurd (by rw [act, hstage]) hact
  | second => exact absurd (by rw [act, hstage]) hact
  | check =>
      rw [hv hstage, resume_check h hstage hp hk]
      exact ⟨rfl, trivial⟩
  | main =>
      rw [resume_main hstage, Told, hstage]
      exact ⟨rfl, trivial⟩
  | failed =>
      rw [Told, hstage] at h
      exact h.elim

end told

namespace Family

variable {k : ℕ} {S S' : System} {control : ℕ → State} {e : Event} {o : Outcome} {cpu : Cpu}

/-- A step that is neither a fork nor an exit. -/
theorem same_alive (hcur : S.process S.current ≠ none)
    (hs : S.Step e S' o) (hfork : ∀ cpu, e ≠ .trap cpu .fork) (hexit : ∀ cpu, e ≠ .trap cpu .exit)
    (p : ℕ) : S'.process p ≠ none ↔ S.process p ≠ none := by
  refine ⟨fun hp hnone => hp (hs.dead hfork hnone ?_), fun hp => hs.alive hp ?_⟩
  · rintro rfl
    exact hcur hnone
  · exact fun cpu heq => absurd heq (hexit cpu)

theorem proceed_current (p : ℕ) (hp : S.process p ≠ none) : program.proceed S S' control p =
    if p = S.current then program.resume (control S.current) (S'.result S.current)
    else control p := by
  rw [proceed_alive hp]
  split_ifs with hcur
  · rw [hcur]
  · rfl

/-- An action of the current program. -/
theorem act (h : Family k S control) (hcur : S.process S.current ≠ none)
    (he : (program.act (control S.current)).event cpu = some e) (hs : S.Step e S' o) :
    ∃ k', Family k' S' (program.proceed S S' control) := by
  obtain ⟨h1, hk⟩ := (h.alive _).mp hcur
  have htold := h.told _ h1 hk
  have hfour := h.le_four h1 hk
  have hpos := weight_pos (control S.current).stage
  by_cases hfork : program.act (control S.current) = .fork
  · have hweight : 2 ≤ weight (control S.current).stage := by
      rcases act_fork hfork with hstage | hstage <;> rw [hstage] <;> decide
    rw [hfork] at he
    obtain rfl := Option.some.inj he
    rcases hs.fork_cases with hnone | ⟨c, hc, halive, hparent, hchild⟩
    · exact absurd ((h.firstFree_iff (by omega) (k + 1)).mpr rfl) (hnone _)
    · obtain rfl := (h.firstFree_iff (by omega) c).mp hc
      obtain ⟨hs₁, ht, hsum⟩ := htold.fork hfork hk (by omega) (by omega)
      refine ⟨k + 1, h.grow halive h1 hk ?_ (fun p hp => proceed_current p hp) ?_ ?_ ht⟩
      · rw [proceed_new hc.2.2.1 ((halive _).mpr (.inl rfl)), hchild]
        rfl
      · rw [hparent]
        exact hsum
      · rw [hparent]
        exact hs₁
  · have hne (cpu' : Cpu) : e ≠ .trap cpu' .fork := by
      rintro rfl
      exact hfork ((act_of_trap (act_event_trap he)).1 rfl)
    have hnexit (cpu' : Cpu) : e ≠ .trap cpu' .exit := by
      rintro rfl
      exact act_ne_exit _ ((act_of_trap (act_event_trap he)).2.1 rfl)
    have hpid (hcheck : (control S.current).stage = .check) :
        S'.result S.current = BitVec.ofNat 64 S.current := by
      rw [act_check hcheck] at he
      obtain rfl := Option.some.inj he
      exact hs.result_getpid
    obtain ⟨hweight, htold'⟩ := htold.quiet hfork (by omega) (by omega) hpid
    exact ⟨k, h.stay (same_alive hcur hs hne hnexit) (fun p hp => proceed_current p hp) hweight
      htold'⟩

end Family

/-! Runs. -/

variable {L : KernelLayout} {images : ℕ → ElfImage} {control : ℕ → State}
  {R R' : Running State} {h : Happening}

/-- The kernel starts p-fork.c, as image 4. -/
def Starts (images : ℕ → ElfImage) (control : ℕ → State) : Prop :=
  (images 4).segments ≠ [] ∧ ∃ rsp, Allocator.stackAddr < rsp ∧ rsp ≤ memsizeVirtual ∧
    control 1 = start (images 4).endAddr rsp

theorem setups_fork : setups (some "fork") = [(1, 4)] := if_pos rfl

theorem Starts.rest (hstart : Starts images control) :
    Allocator.Starts images (some "fork") fun p => (control p).rest := by
  obtain ⟨hne, rsp, hlo, hhi, hcontrol⟩ := hstart
  intro s hs
  rw [setups_fork, List.mem_singleton] at hs
  subst s
  exact ⟨hne, rsp, hlo, hhi, congrArg State.rest hcontrol⟩

theorem Starts.inv (hfit : ImagesFit L images (some "fork")) (hstart : Starts images control)
    {s : ℕ × ℕ} (hs : s ∈ setups (some "fork")) {memory : ℕ → Option Cell}
    (hm : (images s.2).Loads memory) : Inv s.1 (control s.1) memory := by
  refine ⟨hstart.rest.inv hfit hs hm, fun _ => ?_⟩
  obtain ⟨-, rsp, -, -, hcontrol⟩ := hstart
  rw [setups_fork, List.mem_singleton] at hs
  rw [hs, hcontrol]
  rfl

/-- A process that has just been forked, or has just forked, has not begun to allocate. -/
theorem resume_fork {s : State} (hact : act s = .fork) (v : BitVec 64) :
    (program.resume s v).stage ≠ .main := by
  rw [resume_eq, resume]
  rcases act_fork hact with hstage | hstage
  all_goals
    rw [hstage]
    dsimp only [State.assert]
    split_ifs <;> decide

/-- A process that has given up has its whole heap, or no page is free any more. -/
def Spent (info : PageInfos) (s : State) : Prop :=
  s.stage = .main → s.rest.pc = .done →
    s.rest.heapTop = s.rest.stackBottom ∨ freePages info = ∅

theorem Spent.act {M M' : Machine} {w : World} {e : Event} {cpu : Cpu} {p : ℕ} {s : State}
    {memory : ℕ → Option Cell} (hold : Spent M.kernel.pageinfo s) (hw : Represents L M w)
    (hex : w.Exact L) (hd : Disciplined M e) (hs : M.step L e = some M')
    (he : (program.act s).event cpu = some e) (h : Inv p s memory) :
    Spent M'.kernel.pageinfo (program.resume s (M'.kernel.system.result M.kernel.current)) := by
  intro hmain hdone
  by_cases hbefore : s.stage = .main
  · have hact : program.act s = Allocator.act s.rest := by
      change Fork.act s = _
      rw [Fork.act, hbefore]
    rw [hact] at he
    rw [resume_main hbefore] at hdone ⊢
    exact Allocator.spent_resume hw hex hd hs he (hold hbefore) hdone
  · have hpc := h.waiting hbefore
    rw [resume_rest hbefore, hpc] at hdone
    cases hdone

section runs
variable (hfit : ImagesFit L images (some "fork")) (hdisj : ImagesDisjoint images (some "fork"))
  (hstart : Starts images control)
  (hR : program.Reach L images (some "fork") control program.Careful R)

include hfit hdisj hstart hR

theorem reach_sound :
    Sound L images (some "fork") Inv R ∧ R.machine.outcome.resumed = true :=
  (keeps _).reach hfit hdisj (fun _ hs _ hm => hstart.inv hfit hs hm) (fun _ _ hh => hh) hR

theorem reach_current :
    ∃ q, R.machine.kernel.system.process R.machine.kernel.current = some q := by
  obtain ⟨hsound, hres⟩ := reach_sound hfit hdisj hstart hR
  obtain ⟨w, hw, -⟩ := reach_owned hfit hdisj hsound.reach
  exact ⟨_, hw.current_process (hw.live hres)⟩

theorem reach_family : ∃ k, Family k R.machine.kernel.system R.control := by
  induction hR with
  | @start R hboot =>
      obtain ⟨hM, hcontrol⟩ := hboot
      have hlive (p : ℕ) : R.machine.kernel.system.process p = none ↔ p ∉ started (some "fork") :=
        boots_process_none hfit hM
      have hfirst : (R.control 1).stage = .first := by
        obtain ⟨-, rsp, -, -, hone⟩ := hstart
        rw [hcontrol, hone]
        rfl
      refine ⟨1, fun p => ?_, ?_, fun p h1 hp => ?_⟩
      · rw [Ne, hlive, not_not, started, setups_fork]
        simp only [List.map_cons, List.map_nil, List.mem_singleton]
        omega
      · rw [Finset.Icc_self, Finset.sum_singleton, hfirst]
        rfl
      · obtain rfl : p = 1 := by omega
        rw [Told, hfirst]
  | @next R R' h hR hh hs ih =>
      obtain ⟨k, hk⟩ := ih
      obtain ⟨hsound, -⟩ := reach_sound hfit hdisj hstart hR
      obtain ⟨q, hq⟩ := reach_current hfit hdisj hstart hR
      have hcur := ne_of_eq_of_ne hq (Option.some_ne_none q)
      obtain ⟨e, he, hnext, -, -, hsys⟩ := hsound.system_step (keeps _) hfit hdisj hh hs
      have hquiet (hcontrol : R'.control = R.control) (hfork : ∀ cpu, e ≠ .trap cpu .fork)
          (hexit : ∀ cpu, e ≠ .trap cpu .exit) :
          ∃ k, Family k R'.machine.kernel.system R'.control := by
        have halive := Family.same_alive hcur hsys hfork hexit
        rw [hcontrol]
        exact ⟨k, fun p => (halive p).trans (hk.alive p), hk.total, hk.told⟩
      cases h with
      | act cpu =>
          obtain ⟨k', hk'⟩ := hk.act hcur he hsys
          rw [hnext]
          exact ⟨k', hk'⟩
      | own va b =>
          rw [event] at he
          split_ifs at he
          obtain rfl := Option.some.inj he
          exact hquiet ((congrArg Running.control hnext).trans rfl)
            (fun _ heq => by cases heq) (fun _ heq => by cases heq)
      | timer cpu =>
          obtain rfl := Option.some.inj he
          exact hquiet ((congrArg Running.control hnext).trans rfl)
            (fun _ heq => by cases heq) (fun _ heq => by cases heq)

/-- No check fails. -/
theorem reach_passed {p : ℕ} {q : Process} (hq : R.machine.kernel.system.process p = some q) :
    (R.control p).stage ≠ .failed := by
  obtain ⟨k, hk⟩ := reach_family hfit hdisj hstart hR
  obtain ⟨h1, hp⟩ := (hk.alive p).mp (ne_of_eq_of_ne hq (Option.some_ne_none q))
  have htold := hk.told p h1 hp
  intro hfailed
  rw [Told, hfailed] at htold
  exact htold

/-- In a run whose forks find room, no check of p-fork.c fails, and no more than four processes come
into being; when each has made its forks there are exactly four, and what each then allocates stays
its own. -/
theorem forks_run : R.machine.outcome.resumed = true ∧
    (∃ k ≤ 4, (∀ p, (∃ q, R.machine.kernel.system.process p = some q) ↔ 1 ≤ p ∧ p ≤ k) ∧
      ((∀ p, 1 ≤ p → p ≤ k → act (R.control p) ≠ .fork) → k = 4)) ∧
    (∀ p q, R.machine.kernel.system.process p = some q → q.runnable = true ∧
      (R.control p).stage ≠ .failed ∧ ((R.control p).rest.pc ≠ .getpid → ∀ x,
        Allocator.heapStart (R.control p).rest ≤ x * pageSize →
        x * pageSize < (R.control p).rest.heapTop →
        q.memory (x * pageSize) = some ⟨true, UInt8.ofNat p⟩)) ∧
    (∀ cpu, program.Careful R (.act cpu) → (∀ addr,
      act (R.control R.machine.kernel.current) = .pageAlloc addr → cpu.rdi.toNat = addr) →
      ∃ R', program.step L R (.act cpu) = some R') ∧
    ∀ cpu, ∃ R', program.step L R (.timer cpu) = some R' := by
  obtain ⟨hsound, hres⟩ := reach_sound hfit hdisj hstart hR
  obtain ⟨k, hk⟩ := reach_family hfit hdisj hstart hR
  obtain ⟨q₀, hq₀⟩ := reach_current hfit hdisj hstart hR
  refine ⟨hres, ⟨k, ?_, fun p => Option.ne_none_iff_exists'.symm.trans (hk.alive p),
    fun hdone => ?_⟩, fun p q hq => ?_, fun cpu hcareful haddr => ?_, fun cpu => ?_⟩
  · obtain ⟨h1, hp⟩ := (hk.alive _).mp (ne_of_eq_of_ne hq₀ (Option.some_ne_none q₀))
    have hfour := hk.le_four h1 hp
    have hpos := weight_pos (R.control R.machine.kernel.current).stage
    change weight (R.control R.machine.kernel.current).stage + (k - 1) ≤ 4 at hfour
    omega
  · exact hk.eq_four fun p h1 hp => weight_eq_one (hdone p h1 hp)
  · obtain ⟨hrun, hinv⟩ := hsound.holds p q hq
    exact ⟨hrun, reach_passed hfit hdisj hstart hR hq, fun hpc => (hinv.rest.ready hpc).marked⟩
  · exact hsound.act_exists (keeps _) hfit hdisj hres hcareful haddr fun hpanic =>
      reach_passed hfit hdisj hstart hR hq₀ (act_panic hpanic)
  · exact hsound.timer_exists (keeps _) hfit hdisj hres cpu

theorem reach_spent {p : ℕ} {q : Process} (hq : R.machine.kernel.system.process p = some q) :
    Spent R.machine.kernel.pageinfo (R.control p) := by
  induction hR generalizing q with
  | @start R hboot =>
      obtain ⟨hM, hcontrol⟩ := hboot
      have hp : p ∈ started (some "fork") := by
        by_contra hp
        have hnone : R.machine.kernel.system.process p = none :=
          (boots_process_none hfit hM).mpr hp
        rw [hnone] at hq
        cases hq
      rw [started, setups_fork, List.map_singleton, List.mem_singleton] at hp
      obtain ⟨-, rsp, -, -, hone⟩ := hstart
      rw [hcontrol, hp, hone]
      intro hmain
      cases hmain
  | @next R R' h hR hh hs ih =>
      obtain ⟨hsound, -⟩ := reach_sound hfit hdisj hstart hR
      obtain ⟨q₀, hq₀⟩ := reach_current hfit hdisj hstart hR
      obtain ⟨e, he, hnext, hd, hstep, hsys⟩ := hsound.system_step (keeps _) hfit hdisj hh hs
      obtain ⟨w, hw, hex, -⟩ := reach_owned hfit hdisj hsound.reach
      have hold (hfork : ∀ cpu, e ≠ .trap cpu .fork) :
          R.machine.kernel.system.process p ≠ none := fun hnone => by
        refine Option.some_ne_none q (hq.symm.trans (hsys.dead hfork hnone ?_))
        rintro rfl
        exact Option.some_ne_none q₀ (hq₀.symm.trans hnone)
      have hsame (hcontrol : R'.control p = R.control p)
          (halive : R.machine.kernel.system.process p ≠ none) :
          Spent R'.machine.kernel.pageinfo (R'.control p) := by
        obtain ⟨q, hq⟩ := Option.ne_none_iff_exists'.mp halive
        rw [hcontrol]
        intro hmain hdone
        exact (ih hq hmain hdone).imp_right <| Allocator.free_empty hw hex hd.1 hstep fun _ hc =>
          act_ne_exit _ (event_exit (hc ▸ he))
      cases h with
      | own va b =>
          rw [event] at he
          split_ifs at he
          obtain rfl := Option.some.inj he
          exact hsame ((congrArg (Running.control · p) hnext).trans rfl)
            (hold fun _ heq => by cases heq)
      | timer cpu =>
          obtain rfl := Option.some.inj he
          exact hsame ((congrArg (Running.control · p) hnext).trans rfl)
            (hold fun _ heq => by cases heq)
      | act cpu =>
          have hcontrol : R'.control p = program.proceed R.machine.kernel.system
              R'.machine.kernel.system R.control p := congrArg (Running.control · p) hnext
          by_cases hlive : R.machine.kernel.system.process p = none
          · have hfork : ∃ cpu, e = .trap cpu .fork := by
              by_contra hne
              exact hold (fun cpu hc => hne ⟨cpu, hc⟩) hlive
            obtain ⟨cpu', rfl⟩ := hfork
            rw [hcontrol, proceed_new hlive (ne_of_eq_of_ne hq (Option.some_ne_none q))]
            exact fun hmain => absurd hmain (resume_fork (event_fork he) _)
          · rw [Family.proceed_current p hlive] at hcontrol
            split_ifs at hcontrol with hcur
            · subst hcur
              rw [hcontrol]
              exact Spent.act (ih hq₀) hw hex hd.1 hstep he (hsound.holds _ _ hq₀).2
            · exact hsame hcontrol hlive

end runs

/-! Every process finishes. -/

/-- A bound on the turns that a process still takes. -/
noncomputable def rank (s : State) : ℕ :=
  match s.stage with
  | .first => 512 * Allocator.turn + 3
  | .second => 512 * Allocator.turn + 2
  | .check => 512 * Allocator.turn + 1
  | .main => Allocator.rank s.rest
  | .failed => 0

section rank
variable {s : State}

theorem rank_first (h : s.stage = .first) : rank s = 512 * Allocator.turn + 3 := by rw [rank, h]
theorem rank_second (h : s.stage = .second) : rank s = 512 * Allocator.turn + 2 := by rw [rank, h]
theorem rank_check (h : s.stage = .check) : rank s = 512 * Allocator.turn + 1 := by rw [rank, h]
theorem rank_main (h : s.stage = .main) : rank s = Allocator.rank s.rest := by rw [rank, h]
theorem rank_failed (h : s.stage = .failed) : rank s = 0 := by rw [rank, h]

theorem rank_assert (s : State) (c : Prop) [Decidable c] (next : Stage) :
    rank (s.assert c next) ≤ rank { s with stage := next } := by
  unfold State.assert
  split_ifs
  · exact le_rfl
  · rw [rank_failed rfl]
    exact Nat.zero_le _

theorem rank_resume {p : ℕ} {memory : ℕ → Option Cell} (h : Inv p s memory) (h1 : 1 ≤ p)
    (h16 : p < 16) (hrank : rank s ≠ 0) {v : BitVec 64}
    (hv : act s = .getpid → v = BitVec.ofNat 64 p) : rank (program.resume s v) < rank s := by
  cases hstage : s.stage with
  | first =>
      rw [resume_eq, resume, hstage, rank_first hstage]
      refine (rank_assert _ _ _).trans_lt ?_
      rw [rank_second rfl]
      exact Nat.lt_succ_self _
  | second =>
      rw [resume_eq, resume, hstage, rank_second hstage]
      refine (rank_assert _ _ _).trans_lt ?_
      rw [rank_check rfl]
      exact Nat.lt_succ_self _
  | check =>
      have hpc := h.waiting (by rw [hstage]; decide)
      rw [resume_eq, resume, hstage, rank_check hstage]
      refine (rank_assert _ _ _).trans_lt ?_
      rw [rank_main rfl, Allocator.rank_getpid hpc]
      exact Nat.lt_succ_self _
  | main =>
      rw [rank_main hstage] at hrank ⊢
      have hdone : s.rest.pc ≠ .done := fun hdone => hrank (Allocator.rank_done hdone)
      have hmain : (program.resume s v).stage = .main := by
        rw [resume_main hstage]
        exact hstage
      rw [rank_main hmain, resume_main hstage]
      refine Allocator.rank_resume h.rest h1 h16 hdone fun hget => hv ?_
      rw [act, hstage]
      dsimp only
      rw [Allocator.act, hget]
  | failed => exact absurd (rank_failed hstage) hrank

theorem rank_eq_zero {p : ℕ} {memory : ℕ → Option Cell} (h : Inv p s memory) (hrank : rank s = 0) :
    s.stage = .failed ∨ s.stage = .main ∧ s.rest.pc = .done := by
  cases hstage : s.stage with
  | failed => exact .inl rfl
  | main =>
      refine .inr ⟨rfl, ?_⟩
      rw [rank_main hstage] at hrank
      by_contra hpc
      exact (Allocator.rank_pos h.rest hpc).ne' hrank
  | first => rw [rank_first hstage] at hrank; omega
  | second => rw [rank_second hstage] at hrank; omega
  | check => rw [rank_check hstage] at hrank; omega

theorem rank_le {p : ℕ} {memory : ℕ → Option Cell} (h : Inv p s memory) (h1 : 1 ≤ p)
    (h16 : p < 16) : rank s ≤ 512 * Allocator.turn + 3 := by
  cases hstage : s.stage with
  | first => rw [rank_first hstage]
  | second => rw [rank_second hstage]; omega
  | check => rw [rank_check hstage]; omega
  | main =>
      have := Allocator.rank_le h.rest h1 h16
      rw [rank_main hstage]
      omega
  | failed => rw [rank_failed hstage]; exact Nat.zero_le _

/-- Nothing changes any more in the end. -/
theorem resume_of_rank {p : ℕ} {memory : ℕ → Option Cell} (h : Inv p s memory) (hrank : rank s = 0)
    (v : BitVec 64) : program.resume s v = s := by
  rcases rank_eq_zero h hrank with hstage | ⟨hstage, hdone⟩
  · rw [resume_eq, resume, hstage]
  · rw [resume_main hstage, Allocator.resume_done hdone]

end rank

section finish
variable (hfit : ImagesFit L images (some "fork")) (hdisj : ImagesDisjoint images (some "fork"))
  (hstart : Starts images control)

include hfit hdisj hstart

/-- One step of a run: no process goes away, and a turn costs the process some of its rank. -/
theorem rank_step (hR : program.Reach L images (some "fork") control program.Careful R)
    (hh : program.Careful R h) (hs : program.step L R h = some R') {p : ℕ}
    (hp : R.machine.kernel.system.process p ≠ none) :
    R'.machine.kernel.system.process p ≠ none ∧ (rank (R'.control p) ≠ 0 →
      rank (R'.control p) + (if R.machine.kernel.current = p ∧ h.isAct then 1 else 0) ≤
        rank (R.control p)) := by
  obtain ⟨hsound, -⟩ := reach_sound hfit hdisj hstart hR
  obtain ⟨k, hk⟩ := reach_family hfit hdisj hstart hR
  obtain ⟨e, he, hnext, -, -, hsys⟩ := hsound.system_step (keeps _) hfit hdisj hh hs
  obtain ⟨q, hq⟩ := Option.ne_none_iff_exists'.mp hp
  refine ⟨hsys.alive hp fun _ hc => absurd (event_exit (hc ▸ he)) (act_ne_exit _), fun hrank => ?_⟩
  have hkeep (hcontrol : R'.control p = R.control p)
      (hidle : ¬ (R.machine.kernel.current = p ∧ h.isAct)) :
      rank (R'.control p) + (if R.machine.kernel.current = p ∧ h.isAct then 1 else 0) ≤
        rank (R.control p) := by
    rw [hcontrol, if_neg hidle, add_zero]
  cases h with
  | own va b | timer cpu =>
      exact hkeep ((congrArg (Running.control · p) hnext).trans rfl) (by simp [Happening.isAct])
  | act cpu =>
      have hcontrol : R'.control p = _ := (congrArg (Running.control · p) hnext).trans
        (proceed_alive hp)
      split_ifs at hcontrol with hcur
      · obtain ⟨h1, hle⟩ := (hk.alive p).mp hp
        have hfour := hk.le_four h1 hle
        have hpos := weight_pos (R.control p).stage
        obtain ⟨-, hinv⟩ := hsound.holds p q hq
        have hbefore : rank (R.control p) ≠ 0 := fun hzero => by
          rw [hcontrol, resume_of_rank hinv hzero] at hrank
          exact hrank hzero
        have hpid (hget : act (R.control p) = .getpid) :
            R'.machine.kernel.system.result p = BitVec.ofNat 64 p := by
          change (act (R.control R.machine.kernel.system.current)).event cpu = _ at he
          rw [← hcur, hget] at he
          obtain rfl := Option.some.inj he
          rw [hcur]
          exact hsys.result_getpid
        have hlt := rank_resume hinv h1 (by omega) hbefore hpid
        rw [hcontrol]
        split_ifs <;> omega
      · exact hkeep hcontrol fun hc => hcur hc.1.symm

/-- A process that has had enough turns since it came into being is in its last loop, with its whole
heap or with no page free any more. -/
theorem forks_finish {R : ℕ → Running State} {h : ℕ → Happening} {n : ℕ}
    (hR : program.Reach L images (some "fork") control program.Careful (R 0))
    (hrun : IsRun (program.step L) R h n) (hcareful : ∀ i < n, program.Careful (R i) (h i)) {p : ℕ}
    (hp : ∃ q, (R 0).machine.kernel.system.process p = some q) :
    turns R h p n < 512 * Allocator.turn + 3 ∨
    ((R n).control p).stage = .main ∧ ((R n).control p).rest.pc = .done ∧
      (((R n).control p).rest.heapTop = ((R n).control p).rest.stackBottom ∨
        freePages (R n).machine.kernel.pageinfo = ∅) := by
  have hreach := hrun.reachable hR hcareful
  have halive : ∀ i ≤ n, (R i).machine.kernel.system.process p ≠ none :=
    hrun.invariant (Option.ne_none_iff_exists'.mpr hp) fun i hi hs ih =>
      (rank_step hfit hdisj hstart (hreach i hi.le) (hcareful i hi) hs ih).1
  obtain ⟨q, hq⟩ := Option.ne_none_iff_exists'.mp (halive n le_rfl)
  by_cases hend : rank ((R n).control p) = 0
  · have hinv := ((reach_sound hfit hdisj hstart (hreach n le_rfl)).1.holds p q hq).2
    rcases rank_eq_zero hinv hend with hfailed | ⟨hmain, hdone⟩
    · exact absurd hfailed (reach_passed hfit hdisj hstart (hreach n le_rfl) hq)
    · exact .inr ⟨hmain, hdone, reach_spent hfit hdisj hstart (hreach n le_rfl) hq hmain hdone⟩
  · left
    obtain ⟨q₀, hq₀⟩ := hp
    obtain ⟨k, hk⟩ := reach_family hfit hdisj hstart hR
    obtain ⟨h1, hle⟩ := (hk.alive p).mp (ne_of_eq_of_ne hq₀ (Option.some_ne_none q₀))
    have hfour := hk.le_four h1 hle
    have hpos := weight_pos ((R 0).control p).stage
    have hbound := rank_turns (fun i hi => (rank_step hfit hdisj hstart (hreach i hi.le)
      (hcareful i hi) (hrun i hi) (halive i hi.le)).2) hend
    have hfirst := rank_le ((reach_sound hfit hdisj hstart hR).1.holds p q₀ hq₀).2 h1 (by omega)
    omega

end finish

/-! The first fork. -/

def sampleControl (_ : ℕ) : State := start (sampleImages 0 4).endAddr memsizeVirtual

theorem sample_starts : Starts (sampleImages 0) sampleControl :=
  ⟨by simp [sample_segments], memsizeVirtual, by norm_num, le_rfl, rfl⟩

theorem sample_reach : ∃ R, Machine.Boots sampleLayout (sampleImages 0) (some "fork") R.machine ∧
    program.Reach sampleLayout (sampleImages 0) (some "fork") sampleControl program.Careful R ∧
    R.machine.kernel.current = 1 ∧ R.control = sampleControl ∧
    program.Careful R (.act (sampleCpu 0)) := by
  obtain ⟨M, hM⟩ := sample_boots sampleLayout 0 (some "fork") (by decide)
  obtain ⟨w, hw, hrep, hres⟩ := sample_world sampleLayout (by norm_num) hM
  obtain ⟨-, -, hroom⟩ := sample_fork_disciplined hw (by norm_num) hrep hres
  exact ⟨⟨M, sampleControl⟩, hM, .start ⟨hM, rfl⟩, hrep.sim.current.trans hw.current, rfl,
    fun _ _ => hroom rfl⟩

theorem forks_run_sample : ∃ R R',
    Machine.Boots sampleLayout (sampleImages 0) (some "fork") R.machine ∧
    program.step sampleLayout R (.act (sampleCpu 0)) = some R' := by
  obtain ⟨R, hM, hR, hcur, hcontrol, hcareful⟩ := sample_reach
  obtain ⟨-, -, -, hact, -⟩ := forks_run (sample_fits _ _ _ (by decide)) (sample_disjoint _ _)
    sample_starts hR
  obtain ⟨R', hR'⟩ := hact (sampleCpu 0) hcareful fun addr haddr => by
    rw [hcontrol] at haddr
    cases haddr
  exact ⟨R, R', hM, hR'⟩

theorem forks_finish_sample : ∃ (R : ℕ → Running State) (h : ℕ → Happening),
    Machine.Boots sampleLayout (sampleImages 0) (some "fork") (R 0).machine ∧
    IsRun (program.step sampleLayout) R h 1 ∧
    (turns R h 1 1 < 512 * Allocator.turn + 3 ∨ ((R 1).control 1).stage = .main) := by
  have hfit := sample_fits sampleLayout 0 (some "fork") (by decide)
  have hdisj := sample_disjoint 0 (some "fork")
  obtain ⟨R₀, hM, hR, hcur, hcontrol, hcareful⟩ := sample_reach
  obtain ⟨hsound, hres⟩ := reach_sound hfit hdisj sample_starts hR
  have hevent : program.event R₀ (.act (sampleCpu 0)) = some (.trap (sampleCpu 0) .fork) := by
    rw [event, hcontrol]
    rfl
  obtain ⟨R₁, hR₁⟩ := hsound.progress (keeps _) hfit hdisj hres hcareful
    (fun _ _ heq => by cases heq) hevent (fun _ heq => by cases heq)
  have hrun : IsRun (program.step sampleLayout) (fun i => if i = 0 then R₀ else R₁)
      (fun _ => .act (sampleCpu 0)) 1 := fun i hi => by
    obtain rfl : i = 0 := by omega
    exact hR₁
  have halive := Option.ne_none_iff_exists'.mp (hsound.alive 1 (one_mem_started _))
  refine ⟨_, _, hM, hrun, ?_⟩
  exact (forks_finish hfit hdisj sample_starts hR hrun (fun i hi => by
    obtain rfl : i = 0 := by omega
    exact hcareful) halive).imp_right And.left

end WeensyOS.Fork
