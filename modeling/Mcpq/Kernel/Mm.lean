import Mcpq.Kernel.Page

/-!
# The memory of the kernel

Memory chains, the collections of chains of the tasks, and the LRU lists of a zone (`mm_types.h`,
`mmzone.h`, `mm_inline.h`), with the primitive updates of the memory.

A list threaded through pages is the list of these pages, from the head of the list on; `list_add`
adds at the head. `mlock.c` is a parameter (`Mlock`), which may do anything to a page but link it or
reference it.
-/

namespace Mcpq.Kernel

/-- The attributes of a chain. -/
structure MemoryChainAttr where
  maxLinks : ℤ
  isBounded : Bool
  isAnchored : Bool
  deriving DecidableEq, Repr

/-- A memory chain. -/
structure MemoryChain where
  id : ℕ
  attributes : Option MemoryChainAttr := none
  nrLinks : ℤ := 0
  links : List PageRef := []
  anchor : Option PageRef := none
  /-- `ref_counter`, as the sum of what has been added to it. -/
  refCounter : ℤ := 0
  delegate : Option PageRef := none
  evictCnt : ℤ := 0
  deriving DecidableEq, Repr

/-- The value of `ref_counter`, an `atomic_t`, which wraps around. -/
def MemoryChain.counter (m : MemoryChain) : ℤ := Int.bmod m.refCounter (2 ^ 32)

/-- The chain as it is in the memory of the kernel. -/
def MemoryChain.fields (m : MemoryChain) : MemoryChain := { m with refCounter := m.counter }

/-- `MEMORY_CHAIN_IS_FULL`. -/
def MemoryChain.isFull (m : MemoryChain) : Bool :=
  match m.attributes with
  | some attributes => attributes.isBounded && decide (attributes.maxLinks ≤ m.nrLinks)
  | none => false

/-- The collection of the chains of a task. -/
structure MemoryChainCollection where
  count : ℤ
  capacity : ℕ
  chains : List (Option ChainRef)
  deriving DecidableEq, Repr

/-- The LRU lists of a zone, and their lengths as counted by the zone: `nr l` is the counter
    `NR_LRU_BASE + l`. A list is given by its index in `enum lru_list`. -/
structure Zone where
  list : ℕ → List PageRef := fun _ => []
  nr : ℕ → ℤ := fun _ => 0

/-- The functions of `mlock.c`. -/
class Mlock where
  mlockVmaPage : Page → Page
  munlockVmaPage : Page → Page
  mlock_chain : ∀ p, (mlockVmaPage p).chain = p.chain
  mlock_referenced : ∀ p, (mlockVmaPage p).referenced = p.referenced
  munlock_chain : ∀ p, (munlockVmaPage p).chain = p.chain
  munlock_referenced : ∀ p, (munlockVmaPage p).referenced = p.referenced

attribute [simp] Mlock.mlock_chain Mlock.mlock_referenced Mlock.munlock_chain
  Mlock.munlock_referenced

/-- Pages are locked by the flag `PG_mlocked`. -/
@[reducible] def Mlock.flag : Mlock where
  mlockVmaPage p := p.setBit .mlocked
  munlockVmaPage p := p.clearBit .mlocked
  mlock_chain _ := rfl
  mlock_referenced _ := rfl
  munlock_chain _ := rfl
  munlock_referenced _ := rfl

/-- The memory: the pages of a zone, the chains that are allocated, the collection each task points
    to, and the LRU lists of the zone. A page that is not `allocated` is with the page allocator. -/
structure Mm where
  page : PageRef → Page := fun _ => {}
  allocated : PageRef → Bool := fun _ => false
  chain : ChainRef → Option MemoryChain := fun _ => none
  mcc : TaskRef → Option MemoryChainCollection := fun _ => none
  zone : Zone := {}

namespace Mm

variable (s : Mm) (p q : PageRef) (c d : ChainRef)

def modifyPage (f : Page → Page) : Mm :=
  { s with page := Function.update s.page p (f (s.page p)) }

def setChain (m : Option MemoryChain) : Mm := { s with chain := Function.update s.chain c m }

/-- The chain a pointer that is not `NULL` points to. -/
def derefChain : Result MemoryChain := (s.chain c).elim (.error .useAfterFree) .ok

/-- Update the chain of a pointer that is not `NULL`. -/
def modifyChain (f : MemoryChain → MemoryChain) : Result Mm := do
  let m ← s.derefChain c
  pure (s.setChain c (some (f m)))

variable {s p q c d}

@[simp] theorem modifyPage_self (f : Page → Page) : (s.modifyPage p f).page p = f (s.page p) :=
  Function.update_self ..

theorem modifyPage_of_ne (f : Page → Page) (h : q ≠ p) : (s.modifyPage p f).page q = s.page q :=
  Function.update_of_ne h ..

@[simp] theorem modifyPage_chain (f : Page → Page) : (s.modifyPage p f).chain = s.chain := rfl

@[simp] theorem modifyPage_allocated (f : Page → Page) :
    (s.modifyPage p f).allocated = s.allocated := rfl

@[simp] theorem setChain_self (m : Option MemoryChain) : (s.setChain c m).chain c = m :=
  Function.update_self ..

theorem setChain_of_ne (m : Option MemoryChain) (h : d ≠ c) :
    (s.setChain c m).chain d = s.chain d :=
  Function.update_of_ne h ..

@[simp] theorem setChain_page (m : Option MemoryChain) : (s.setChain c m).page = s.page := rfl

@[simp] theorem setChain_allocated (m : Option MemoryChain) :
    (s.setChain c m).allocated = s.allocated := rfl

theorem derefChain_eq_ok {m : MemoryChain} : s.derefChain c = .ok m ↔ s.chain c = some m := by
  rw [derefChain]
  cases s.chain c <;> simp

theorem modifyChain_eq {m : MemoryChain} (h : s.chain c = some m) (f : MemoryChain → MemoryChain) :
    s.modifyChain c f = .ok (s.setChain c (some (f m))) := by
  rw [modifyChain, derefChain_eq_ok.2 h]
  rfl

end Mm

/-! ## LRU lists -/

/-- `LRU_BASE`. -/
def lruBase : ℕ := 0
/-- `LRU_ACTIVE`, what is added for an active list. -/
def lruActive : ℕ := 1
/-- `LRU_LINKED`, what is added for the list of linked pages. -/
def lruLinked : ℕ := 2
/-- `LRU_FILE`, what is added for the list of the pages of files. -/
def lruFile : ℕ := 4
/-- `LRU_INACTIVE_ANON`. -/
def lruInactiveAnon : ℕ := lruBase
/-- `LRU_INACTIVE_FILE`. -/
def lruInactiveFile : ℕ := lruBase + lruFile
/-- `LRU_UNEVICTABLE`. -/
def lruUnevictable : ℕ := 8
/-- `NR_LRU_LISTS`. -/
def nrLruLists : ℕ := 9

namespace Page

/-- `page_is_file_cache`. -/
def isFileCache (p : Page) : Bool := !p.testBit .swapbacked

/-- `page_lru_base_type`: the inactive list that the page should be on. -/
def lruBaseType (p : Page) : ℕ :=
  let l := if p.linked then lruLinked else lruBase
  if p.isFileCache then lruInactiveFile + l else lruInactiveAnon + l

/-- `page_lru`: the list that the page should be on. -/
def lruList (p : Page) : ℕ :=
  if p.testBit .unevictable then lruUnevictable
  else if p.testBit .active then p.lruBaseType + lruActive else p.lruBaseType

end Page

namespace Zone

/-- `__mod_zone_page_state` of the counter of the list `l`. -/
def modState (z : Zone) (l : ℕ) (delta : ℤ) : Zone :=
  { z with nr := Function.update z.nr l (z.nr l + delta) }

/-- `list_del(&page->lru)`: the page is deleted from the list it is on. -/
def listDel (z : Zone) (p : PageRef) : Zone := { z with list := fun l => (z.list l).erase p }

/-- `add_page_to_lru_list`: the page comes first, and is counted. -/
def addPageToLruList (z : Zone) (p : PageRef) (l : ℕ) : Zone :=
  { z with list := Function.update z.list l (p :: z.list l) }.modState l 1

/-- `del_page_from_lru_list`: the page is charged to the list that is given. -/
def delPageFromLruList (z : Zone) (p : PageRef) (l : ℕ) : Zone := (z.listDel p).modState l (-1)

end Zone

namespace Mm

/-- `activate_page`: an inactive page is moved to the active list. -/
def activatePage (s : Mm) (p : PageRef) : Mm :=
  let page := s.page p
  if page.testBit .lru && !page.testBit .active && !page.testBit .unevictable then
    let lru := page.lruBaseType
    let s := { s with zone := s.zone.delPageFromLruList p lru }
    let s := s.modifyPage p (·.setBit .active)
    { s with zone := s.zone.addPageToLruList p (lru + lruActive) }
  else s

/-! ## References -/

/-- `PageReferenced`: the bit of the page, or else the counter of its chain. -/
def pageReferenced (s : Mm) (p : PageRef) : Result ℤ :=
  if (s.page p).referenced then .ok 1
  else match (s.page p).chain with
    | none => .ok 0
    | some c => do
      let m ← s.derefChain c
      pure m.counter

/-- `SetPageReferenced`: the counter of the chain goes up, whether the bit was set or not. -/
def setPageReferenced (s : Mm) (p : PageRef) : Result Mm :=
  let s := s.modifyPage p (·.setBit .referenced)
  match (s.page p).chain with
  | none => .ok s
  | some c => s.modifyChain c fun m => { m with refCounter := m.refCounter + 1 }

/-- `ClearPageReferenced`: the counter of the chain goes down if the bit was set. -/
def clearPageReferenced (s : Mm) (p : PageRef) : Result Mm :=
  let isSet := (s.page p).referenced
  let s := s.modifyPage p (·.clearBit .referenced)
  match (s.page p).chain with
  | none => .ok s
  | some c =>
    if isSet then s.modifyChain c fun m => { m with refCounter := m.refCounter - 1 } else .ok s

/-- `TestClearPageReferenced`, with the value returned: not zero if the bit was set, or the counter
    of the chain is not zero. -/
def testClearPageReferenced (s : Mm) (p : PageRef) : Result (Mm × Bool) :=
  let v := (s.page p).referenced
  let s := s.modifyPage p (·.clearBit .referenced)
  match (s.page p).chain with
  | none => .ok (s, v)
  | some c => do
    let s ← (if v then s.modifyChain c fun m => { m with refCounter := m.refCounter - 1 }
      else .ok s)
    let m ← s.derefChain c
    pure (s, v || decide (m.counter ≠ 0))

/-- The first statement of `mark_page_accessed`. -/
def resetCounter (s : Mm) (p : PageRef) : Result Mm :=
  match (s.page p).chain with
  | none => .ok s
  | some c => s.modifyChain c fun m => { m with refCounter := m.nrLinks, delegate := some p }

/-- `mark_page_accessed`: the counter of the chain is set first. -/
def markPageAccessed (s : Mm) (p : PageRef) : Result Mm := do
  let s ← s.resetCounter p
  let r ← s.pageReferenced p
  let page := s.page p
  if !page.testBit .active && !page.testBit .unevictable && decide (r ≠ 0) && page.testBit .lru then
    let s ← (if page.linked && !page.referenced then s.setPageReferenced p else .ok s)
    (s.activatePage p).clearPageReferenced p
  else if !page.referenced then s.setPageReferenced p
  else .ok s

end Mm

end Mcpq.Kernel
