import WeensyOS.ForkExitProgram
import WeensyOS.AllocatorRuns

/-!
# Runs of p-forkexit.c

Processes fork and exit in any order, and the kernel's own checks never fail as long as forks find
memory. Slots and pages of processes that have exited are used again.
-/

namespace WeensyOS.ForkExit
open ByteMemory World Runs UserProgram
open Allocator (stackAddr)

variable {L : KernelLayout} {images : ℕ → ElfImage} {control : ℕ → State} {R : Running State}

/-- The kernel starts p-forkexit.c, as image 5. -/
def Starts (images : ℕ → ElfImage) (control : ℕ → State) : Prop :=
  (images 5).segments ≠ [] ∧ ∃ rsp, stackAddr < rsp ∧ rsp ≤ memsizeVirtual ∧
    control 1 = start (images 5).endAddr rsp

theorem setups_forkexit : setups (some "forkexit") = [(1, 5)] := by
  rw [setups, if_neg (by simp), if_pos rfl]

theorem Starts.inv (hfit : ImagesFit L images (some "forkexit")) (hstart : Starts images control)
    {s : ℕ × ℕ} (hs : s ∈ setups (some "forkexit")) {memory : ℕ → Option Cell}
    (hm : (images s.2).Loads memory) : Inv (started (some "forkexit")) s.1 (control s.1) memory := by
  obtain ⟨hne, rsp, hlo, hhi, hcontrol⟩ := hstart
  have hs' := hs
  rw [setups_forkexit, List.mem_singleton] at hs'
  have hstarts : Allocator.Starts images (some "forkexit")
      fun _ => Allocator.start (images 5).endAddr rsp := fun s hs => by
    rw [setups_forkexit, List.mem_singleton] at hs
    rw [hs]
    exact ⟨hne, rsp, hlo, hhi, rfl⟩
  obtain ⟨hrsp, hheap, -, -, -, hfree⟩ := hstarts.inv hfit hs hm
  rw [hs', hcontrol]
  refine Inv.spin ⟨hrsp, ⟨hheap.1, le_rfl, hheap.2, ?_, fun va h1 h2 => ?_, hfree⟩, nofun, nofun,
    fun _ hne => absurd rfl hne⟩ rfl
  · exact Allocator.heapStart_aligned (Allocator.start (images 5).endAddr rsp)
  · exact absurd h2 (not_lt.mpr h1)

section runs
variable (hfit : ImagesFit L images (some "forkexit"))
  (hdisj : ImagesDisjoint images (some "forkexit")) (hstart : Starts images control)
  (hR : program.Reach L images (some "forkexit") control program.Careful R)

include hfit hdisj hstart hR

theorem reach_sound : Sound L images (some "forkexit") (Inv (started (some "forkexit"))) R ∧
    R.machine.outcome.resumed = true :=
  (keeps _).reach hfit hdisj (fun _ hs _ hm => hstart.inv hfit hs hm) (fun _ _ hh => hh) hR

/-- In a run whose forks find room, the machine never stops and no assertion of the kernel fails;
the first process stays, in its first loop; every other process knows its number and can write to
all of its heap, whatever processes exit and whatever slots and pages are used again. -/
theorem forkexit_run : R.machine.outcome.resumed = true ∧
    (∃ q, R.machine.kernel.system.process 1 = some q) ∧
    ((R.control 1).pc = .spawn ∨ (R.control 1).pc = .idle) ∧
    (∀ p q, R.machine.kernel.system.process p = some q → q.runnable = true ∧
      ((R.control p).pc.early = false →
        ((R.control p).pc ≠ .renumber → (R.control p).p = BitVec.ofNat 32 p) ∧
        ∀ va, heapStart (R.control p) ≤ va → va < (R.control p).heapTop →
          ∃ b, q.memory va = some ⟨true, b⟩)) ∧
    (∀ cpu, program.Careful R (.act cpu) → (∀ addr,
      act (R.control R.machine.kernel.current) = .pageAlloc addr → cpu.rdi.toNat = addr) →
      ∃ R', program.step L R (.act cpu) = some R') ∧
    ∀ cpu, ∃ R', program.step L R (.timer cpu) = some R' := by
  obtain ⟨hsound, hres⟩ := reach_sound hfit hdisj hstart hR
  have hfirst := one_mem_started (some "forkexit")
  obtain ⟨q₁, hq₁⟩ := Option.ne_none_iff_exists'.mp (hsound.alive 1 hfirst)
  refine ⟨hres, ⟨q₁, hq₁⟩, ?_, fun p q hq => ?_, fun cpu hcareful haddr => ?_, fun cpu => ?_⟩
  · by_contra hpc
    obtain ⟨hspawn, hidle⟩ := not_or.mp hpc
    exact (hsound.holds 1 q₁ hq₁).2.child hspawn hidle hfirst
  · obtain ⟨hrun, hinv⟩ := hsound.holds p q hq
    refine ⟨hrun, fun hearly => ⟨(hinv.ready hearly).pid, fun va hlo hhi => ?_⟩⟩
    refine hinv.heap.mapped va hlo (hhi.trans_le ?_)
    rw [bound, if_neg (by rw [hearly]; decide)]
    split_ifs
    · exact Nat.le_add_right _ _
    · exact le_rfl
  · exact hsound.act_exists (keeps _) hfit hdisj hres hcareful haddr (act_ne_panic _)
  · exact hsound.timer_exists (keeps _) hfit hdisj hres cpu

end runs

/-! The first process alone. -/

def sampleControl (_ : ℕ) : State := start (sampleImages 0 5).endAddr memsizeVirtual

theorem sample_starts : Starts (sampleImages 0) sampleControl :=
  ⟨by simp [sample_segments], memsizeVirtual, by norm_num, le_rfl, rfl⟩

theorem forkexit_run_sample : ∃ R R',
    Machine.Boots sampleLayout (sampleImages 0) (some "forkexit") R.machine ∧
    program.step sampleLayout R (.timer (sampleCpu 0)) = some R' := by
  obtain ⟨M, hM⟩ := sample_boots sampleLayout 0 (some "forkexit") (by decide)
  have hR : program.Reach sampleLayout (sampleImages 0) (some "forkexit") sampleControl
      program.Careful ⟨M, sampleControl⟩ := .start ⟨hM, rfl⟩
  obtain ⟨-, -, -, -, -, htimer⟩ := forkexit_run (sample_fits _ _ _ (by decide))
    (sample_disjoint _ _) sample_starts hR
  obtain ⟨R', hR'⟩ := htimer (sampleCpu 0)
  exact ⟨_, R', hM, hR'⟩

end WeensyOS.ForkExit
