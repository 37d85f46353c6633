import Mcpq.Lib.Paging
import Mathlib.Logic.Function.Basic

/-!
# The memory manager of the simulator

The class `MemoryManager` of the simulator: an array of pages, searched by address, with a page
replacement policy that chooses the page to evict when the array is full.

* `MemoryPage` and `Heap`: the pages, and the clock of the `Coordinator` that stamps them. The disk
  holds the only page object of each address, so that a page is known by its address;
* `IPageReplacementPolicy`: the interface of a policy, whose state is of type `σ`. A policy may
  write the pages;
* `MemoryManager.access`: an access, with its outcome, which the method of the program does not
  return.
-/

namespace Mcpq.Simulator

/-- A reference to a page object: its address. -/
abbrev PageRef := ℤ

/-- A page. -/
structure MemoryPage where
  love : ℤ := 0
  time : ℕ := 0
  referenced : Bool := false
  /-- The chain the page is on. -/
  link : ℤ := -1
  next : Option PageRef := none
  prev : Option PageRef := none
  /-- The counters `HIT`, `MISS` and `EVICT` of `stats`, which wrap around. -/
  hit : Int32 := 0
  miss : Int32 := 0
  evict : Int32 := 0
  deriving DecidableEq, Repr

namespace MemoryPage

/-- A miss is counted, and the page is stamped. -/
def updateLoadStats (p : MemoryPage) (clock : LogicalClock) : MemoryPage :=
  { p with miss := p.miss + 1, time := clock.generate.current }

/-- A hit is counted, and the page is stamped. -/
def updateRefStats (p : MemoryPage) (clock : LogicalClock) : MemoryPage :=
  { p with hit := p.hit + 1, time := clock.generate.current, referenced := true }

/-- An eviction is counted. -/
def updateEvictStats (p : MemoryPage) : MemoryPage := { p with evict := p.evict + 1 }

end MemoryPage

/-- The page objects and the clock. -/
structure Heap where
  page : PageRef → MemoryPage := fun _ => {}
  /-- The keys of the map `disk`: the page objects that exist. -/
  disk : List PageRef := []
  clock : LogicalClock := {}

namespace Heap

/-- Update the page `r`. -/
def modify (h : Heap) (r : PageRef) (f : MemoryPage → MemoryPage) : Heap :=
  { h with page := Function.update h.page r (f (h.page r)) }

/-- The times of the pages. -/
def time (h : Heap) (r : PageRef) : ℕ := (h.page r).time

/-- `Coordinator.nextSequence()`. -/
def tick (h : Heap) : Heap := { h with clock := h.clock.generate }

/-- `page.updateLoadStats()`. -/
def updateLoadStats (h : Heap) (r : PageRef) : Heap :=
  (h.modify r (·.updateLoadStats h.clock)).tick

/-- `page.updateRefStats()`. -/
def updateRefStats (h : Heap) (r : PageRef) : Heap :=
  (h.modify r (·.updateRefStats h.clock)).tick

/-- `page.updateEvictStats()`. -/
def updateEvictStats (h : Heap) (r : PageRef) : Heap := h.modify r (·.updateEvictStats)

variable (h : Heap) (r q : PageRef) (f : MemoryPage → MemoryPage)

theorem modify_page : (h.modify r f).page q = if q = r then f (h.page r) else h.page q :=
  Function.update_apply ..

@[simp] theorem modify_page_self : (h.modify r f).page r = f (h.page r) := by
  rw [modify_page, if_pos rfl]

theorem modify_page_of_ne {r q : PageRef} (hq : q ≠ r) : (h.modify r f).page q = h.page q := by
  rw [modify_page, if_neg hq]

@[simp] theorem modify_disk : (h.modify r f).disk = h.disk := rfl
@[simp] theorem modify_clock : (h.modify r f).clock = h.clock := rfl
@[simp] theorem tick_page : h.tick.page = h.page := rfl
@[simp] theorem tick_disk : h.tick.disk = h.disk := rfl
@[simp] theorem tick_clock : h.tick.clock = h.clock.generate := rfl

end Heap

/-- A page replacement policy with states `σ`. -/
structure IPageReplacementPolicy (σ : Type) where
  findPageToEvict : σ → Heap → List (Option PageRef) → Java (Option PageRef × Heap × σ)
  love : σ → Heap → Option PageRef → ℤ → Java (Heap × σ)
  lovePin : σ → Heap → Option PageRef → ℤ → Bool → Java (Heap × σ)
  hate : σ → Heap → Option PageRef → Java (Heap × σ)
  hateLevel : σ → Heap → Option PageRef → ℤ → Java (Heap × σ)

/-- The memory of a manager whose policy has the state `σ`. -/
structure MemoryManager (σ : Type) where
  policy : σ
  size : ℕ
  memory : List (Option PageRef)
  memoryPointer : ℕ := 0
  heap : Heap

namespace MemoryManager

variable {σ : Type}

/-- `new MemoryManager(policy, size)`, on a clock that may have ticked before. -/
def make (policy : σ) (size : ℕ) (clock : LogicalClock) : MemoryManager σ where
  policy
  size
  memory := List.replicate size none
  heap := { clock }

variable (P : IPageReplacementPolicy σ) (m : MemoryManager σ)

/-- The page of an address, created if it is not on the disk. -/
def getFromDisk (address : ℤ) : MemoryManager σ × PageRef :=
  if address ∈ m.heap.disk then (m, address)
  else
    ({ m with heap := { m.heap with
        page := Function.update m.heap.page address {}
        disk := address :: m.heap.disk } }, address)

/-- The page of an address, or `null` if it is not in memory. -/
def getFromMemory (address : ℤ) : Option PageRef :=
  (m.memory.find? (· == some address)).join

/-- The position of a page in memory. -/
def evict (page : PageRef) : ℤ :=
  match m.memory.findIdx? (· == some page) with
  | some i => i
  | none => -1

/-- All slots have been filled once. -/
def isFull : Bool := m.memory.length ≤ m.memoryPointer

def capacity : ℕ := m.size

/-- A position for a page, and the page evicted if memory is full. -/
def freePosition : Java (MemoryManager σ × ℤ × Option PageRef) :=
  if m.isFull then do
    let (page, heap, policy) ← P.findPageToEvict m.policy m.heap m.memory
    let page ← deref page
    let m := { m with heap := heap.updateEvictStats page, policy }
    pure (m, m.evict page, some page)
  else .ok ({ m with memoryPointer := m.memoryPointer + 1 }, m.memoryPointer, none)

/-- Load the page of an address to a position. -/
def loadTo (position : ℤ) (address : ℤ) : Java (MemoryManager σ) := do
  let (m, page) := m.getFromDisk address
  let heap := (m.heap.updateLoadStats page).updateRefStats page
  let memory ← arraySet m.memory position (some page)
  pure { m with heap, memory }

/-- Access the page of an address. -/
def access (address : ℤ) : Java (MemoryManager σ × Outcome ℤ) :=
  match m.getFromMemory address with
  | none => do
    let (m, position, evicted) ← m.freePosition P
    let m ← m.loadTo position address
    pure (m, .fault evicted)
  | some page => .ok ({ m with heap := m.heap.updateRefStats page }, .hit)

/-- `love`, which is left to the policy. -/
def love (page : ℤ) (l : ℤ) : Java (MemoryManager σ) := do
  let (heap, policy) ← P.love m.policy m.heap (m.getFromMemory page) l
  pure { m with heap, policy }

/-- `love` with a pin, which is left to the policy. -/
def lovePin (page : ℤ) (l : ℤ) (pin : Bool) : Java (MemoryManager σ) := do
  let (heap, policy) ← P.lovePin m.policy m.heap (m.getFromMemory page) l pin
  pure { m with heap, policy }

/-- The exception of a page that is not in memory is caught. -/
def hate (page : ℤ) (l : ℤ) : Java (MemoryManager σ) :=
  match P.hateLevel m.policy m.heap (m.getFromMemory page) l with
  | .ok (heap, policy) => .ok { m with heap, policy }
  | .error .nullPointer => .ok m
  | .error e => .error e

end MemoryManager

end Mcpq.Simulator
