import WeensyOS.Arch

/-!
# Page-table walks and mappings

The functions of `vm.c` over physical memory: `virtualMemoryLookup`, `lookupL4Pagetable` and
`virtualMemoryMap`, and next to them `walk`, the four-level translation that the processor itself
performs for a load or a store. A kernel panic, which the kernel does not survive, is an error of
the `Except` monad.
-/

namespace WeensyOS
open ByteMemory

inductive Panic where
  | assertion
  | kernelPageFault
  | sysPanic
  | unexpectedException
  deriving DecidableEq, Repr

def assert (c : Prop) [Decidable c] : Except Panic Unit :=
  if c then .ok () else .error .assertion

structure VaMapping where
  pn : ℤ
  pa : ℕ
  perm : ℕ
  deriving DecidableEq, Repr

def VaMapping.unmapped : VaMapping := ⟨-1, 2 ^ 64 - 1, 0⟩

/-- The loop of `virtual_memory_lookup`: `n` levels remain, starting with level `i`. -/
def lookupLevels (m : Memory) (va : ℕ) : ℕ → ℕ → ℕ → ℕ → ℕ
  | 0, _, _, pe => pe
  | n + 1, i, pt, pe =>
    if pe &&& pteP ≠ 0 then
      let next := entry m pt (pageindex va i) &&& lnot64 (pe &&& (pteW ||| pteU))
      lookupLevels m va n (i + 1) (pteAddr next) next
    else pe

def virtualMemoryLookup (m : Memory) (pagetable va : ℕ) : VaMapping :=
  let pe := lookupLevels m va 4 0 pagetable (pteW ||| pteU ||| pteP)
  if pe &&& pteP ≠ 0 then ⟨pageNumber pe, pteAddr pe + pageOffset va, pteFlags pe⟩
  else VaMapping.unmapped

/-- The loop of `lookup_l4pagetable`. The null pointer is address 0. -/
def lookupL4Levels (m : Memory) (va perm : ℕ) : ℕ → ℕ → ℕ → Except Panic ℕ
  | 0, _, pt => .ok pt
  | n + 1, i, pt =>
    let pe := entry m pt (pageindex va i)
    if pe &&& pteP = 0 then .ok 0
    else do
      assert (pteAddr pe < memsizePhysical)
      assert (perm &&& pteW = 0 ∨ pe &&& pteW ≠ 0)
      assert (perm &&& pteU = 0 ∨ pe &&& pteU ≠ 0)
      lookupL4Levels m va perm n (i + 1) (pteAddr pe)

def lookupL4Pagetable (m : Memory) (pagetable va perm : ℕ) : Except Panic ℕ :=
  lookupL4Levels m va perm 3 0 pagetable

/-- The leaf table for `va`: looked up again only when the table index has changed. -/
def cachedL4Pagetable (m : Memory) (pagetable va perm : ℕ) (cur last : ℤ) (l4 : ℕ) :
    Except Panic ℕ :=
  if cur ≠ last then lookupL4Pagetable m pagetable va perm else .ok l4

/-- The loop of `virtual_memory_map` over the `n` pages that remain. `last` and `l4` are the cached
`last_index123` and `l4pagetable`. -/
def mapPages (pagetable perm : ℕ) :
    ℕ → Memory → ℕ → ℕ → ℤ → ℕ → Except Panic (Memory × ℤ)
  | 0, m, _, _, _, _ => .ok (m, 0)
  | n + 1, m, va, pa, last, l4 => do
    let cur := toInt32 (va >>> (12 + 9))
    let l4 ← cachedL4Pagetable m pagetable va perm cur last l4
    let va' := (va + pageSize) % 2 ^ 64
    let pa' := (pa + pageSize) % 2 ^ 64
    if perm &&& pteP ≠ 0 ∧ l4 ≠ 0 then
      mapPages pagetable perm n (setEntry m l4 (pageindex va 3) (pa + perm)) va' pa' cur l4
    else if l4 ≠ 0 then
      mapPages pagetable perm n (setEntry m l4 (pageindex va 3) perm) va' pa' cur l4
    else if perm &&& pteP ≠ 0 then .ok (m, -1)
    else mapPages pagetable perm n m va' pa' cur l4

def virtualMemoryMap (m : Memory) (pagetable va pa sz perm : ℕ) : Except Panic (Memory × ℤ) := do
  assert (va % pageSize = 0)
  assert (sz % pageSize = 0)
  assert ((va + sz) % 2 ^ 64 ≥ va ∨ (va + sz) % 2 ^ 64 = 0)
  if perm &&& pteP ≠ 0 then
    assert (pa % pageSize = 0)
    assert ((pa + sz) % 2 ^ 64 ≥ pa)
    assert ((pa + sz) % 2 ^ 64 ≤ memsizePhysical)
  assert (perm < 0x1000)
  assert (pagetable % pageSize = 0)
  mapPages pagetable perm (sz / pageSize) m va pa (-1) 0

/-- What the processor's own page walk yields for an address. -/
structure Translation where
  pa : ℕ
  writable : Bool
  user : Bool
  deriving DecidableEq, Repr

def walkLevels (m : Memory) (va : ℕ) : ℕ → ℕ → ℕ → Bool → Bool → Option Translation
  | 0, _, pt, w, u => some ⟨pt + pageOffset va, w, u⟩
  | n + 1, i, pt, w, u =>
    let pe := entry m pt (pageindex va i)
    if pe &&& pteP = 0 then none
    else walkLevels m va n (i + 1) (pteAddr pe) (w && pe &&& pteW ≠ 0) (u && pe &&& pteU ≠ 0)

/-- The hardware translation of `va` under the page table at `cr3`: every level must be present,
and an access right holds only when all four levels grant it. -/
def walk (m : Memory) (cr3 va : ℕ) : Option Translation := walkLevels m va 4 0 cr3 true true

@[simp] theorem assert_eq_ok {c : Prop} [Decidable c] {u : Unit} : assert c = .ok u ↔ c := by
  unfold assert
  split_ifs <;> simp_all

theorem assert_true {c : Prop} [Decidable c] (h : c) : assert c = .ok () := if_pos h

theorem assert_false {c : Prop} [Decidable c] (h : ¬ c) : assert c = .error .assertion := if_neg h

/-- Taking a successful computation apart at its first step. -/
theorem bind_eq_ok {α β : Type} {x : Except Panic α} {f : α → Except Panic β} {b : β} :
    x >>= f = .ok b ↔ ∃ a, x = .ok a ∧ f a = .ok b := by
  cases x with
  | error e => exact ⟨fun h => (by cases h), fun ⟨_, h, _⟩ => (by cases h)⟩
  | ok a => exact ⟨fun h => ⟨a, rfl, h⟩, fun ⟨_, h, h'⟩ => by cases h; exact h'⟩

@[simp] theorem ok_bind {α β : Type} (a : α) (f : α → Except Panic β) :
    ((Except.ok a : Except Panic α) >>= f) = f a := rfl

@[simp] theorem error_bind {α β : Type} (e : Panic) (f : α → Except Panic β) :
    ((Except.error e : Except Panic α) >>= f) = .error e := rfl

end WeensyOS
