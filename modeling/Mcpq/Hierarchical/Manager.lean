import Mcpq.Hierarchical.MemoryChain
import Mcpq.Hierarchical.Memory
import Mcpq.Lib.Paging

/-!
# The hierarchical memory manager

The class `HierarchicalMemoryManager`: the frames, the page table and the swap space, and the
memory chains its resident pages are on — three system chains, and the chains the user creates.

Chain objects are known by their identifiers, which the manager gives out in order; the system
chain of a queue is the one whose identifier is the ordinal of the queue. The map of the user
chains is the list `usrChains` of its keys; the order in which an iteration over it goes is a
parameter of the methods that iterate.

`evict` and `access` return what they did (the page evicted, the `Outcome` of the access), which
the methods of the program do not.
-/

namespace Mcpq.Hierarchical

/-- The system chains, in the order of their identifiers. -/
inductive SystemQueue
  | hated
  | spillover
  | default
  deriving DecidableEq, Repr

/-- `q.ordinal()`. -/
def SystemQueue.ordinal : SystemQueue → ℤ
  | .hated => 0
  | .spillover => 1
  | .default => 2

/-- The manager, with the objects it owns. -/
structure HierarchicalMemoryManager where
  /-- The memory capacity. -/
  size : ℕ
  /-- The identifier of the next chain. -/
  chainId : ℤ
  /-- The chain objects. -/
  chains : ℤ → MemoryChain
  /-- The keys of the map of the user chains. -/
  usrChains : List ℤ
  /-- The physical memory. -/
  memory : Memory
  pageTable : PageTable
  /-- The swap space. -/
  swap : ℤ → Option PageRef
  heap : Heap

namespace HierarchicalMemoryManager

/-- `new HierarchicalMemoryManager(size)`, on a clock that may have ticked before. -/
def make (size : ℕ) (clock : LogicalClock) (draws : ℕ → ℕ) : HierarchicalMemoryManager where
  size
  chainId := 3
  chains id := .unbounded id .random
  usrChains := []
  memory := .empty size
  pageTable := {}
  swap _ := none
  heap := { clock, draws }

/-- `is_sys_mem_chain`: the identifiers of the system chains are those of the enumeration. -/
def isSysMemChain (chain : ℤ) : Bool :=
  SystemQueue.hated.ordinal ≤ chain ∧ chain ≤ SystemQueue.default.ordinal

/-- `is_usr_mem_chain`, of any other identifier, whether there is such a chain or not. -/
def isUsrMemChain (chain : ℤ) : Bool := !isSysMemChain chain

variable (s : HierarchicalMemoryManager)

/-- `usr_chains.get(id)`, dereferenced. -/
def usrChain (id : ℤ) : Java ℤ := if id ∈ s.usrChains then .ok id else .error .nullPointer

/-- The chain of an identifier, among the system chains or the user chains. -/
def chainOf (id : ℤ) : Java ℤ := if isSysMemChain id then .ok id else s.usrChain id

/-- A chain and the heap after a method of the chain. -/
def setChain (id : ℤ) (h : Heap) (c : MemoryChain) : HierarchicalMemoryManager :=
  { s with heap := h, chains := Function.update s.chains id c }

/-- `chain.unlink(page)`. -/
def chainUnlink (id : ℤ) (page : Option PageRef) : HierarchicalMemoryManager :=
  let (h, c) := (s.chains id).unlink s.heap page
  s.setChain id h c

/-- `chain.link(page)`. -/
def chainLink (id : ℤ) (page : PageRef) : Java (Option PageRef × HierarchicalMemoryManager) := do
  let (evicted, h, c) ← (s.chains id).link s.heap page
  pure (evicted, s.setChain id h c)

/-- `chain.anchor(page)`. -/
def chainAnchor (id : ℤ) (page : PageRef) :
    Java (Option PageRef × HierarchicalMemoryManager) := do
  let (evicted, h, c) ← (s.chains id).anchorPage s.heap page
  pure (evicted, s.setChain id h c)

/-- `chain.timestamp()`. -/
def chainTimestamp (id : ℤ) : Java (ℕ × HierarchicalMemoryManager) := do
  let (timestamp, c) ← (s.chains id).getTimestamp s.heap
  pure (timestamp, s.setChain id s.heap c)

/-- `page.assigned = id`. -/
def assign (page : PageRef) (id : ℤ) : HierarchicalMemoryManager :=
  { s with heap := s.heap.modify page ({ · with assigned := id }) }

/-- The page of an address on a page fault: from the swap space, or a new one. -/
def load (address : ℤ) : HierarchicalMemoryManager × PageRef :=
  match s.swap address with
  | some page => (s, page)
  | none =>
    let (heap, page) := s.heap.newPage address
    ({ s with heap }, page)

/-- The choice of a victim so far: the least timestamp, a page and its chain. -/
structure Candidate where
  minimum : ℕ
  page : Option PageRef := none
  chain : Option ℤ := none
  deriving DecidableEq, Repr

/-- An iteration of the loop over the user chains. -/
def considerChain (best : HierarchicalMemoryManager × Candidate) (id : ℤ) :
    Java (HierarchicalMemoryManager × Candidate) := do
  let (s, best) := best
  if (s.chains id).size > 0 then
    let (timestamp, s) ← s.chainTimestamp id
    if timestamp < best.minimum then
      let page ← (s.chains id).victim s.heap
      let (minimum, s) ← s.chainTimestamp id
      pure (s, { minimum, page, chain := some id })
    else pure (s, best)
  else pure (s, best)

/-- The first phase of `evict`: the choice of the page to evict, and of its chain. -/
def selectVictim (order : List ℤ) : Java (HierarchicalMemoryManager × Candidate) :=
  let minimum := s.heap.clock.current + 1
  let stamp := fun p => (s.heap.page p).timestamp
  let hated := s.chains SystemQueue.hated.ordinal
  let spillover := s.chains SystemQueue.spillover.ordinal
  if hated.size > 0 then
    .ok (s, { minimum, page := hated.tail, chain := SystemQueue.hated.ordinal })
  else if spillover.size > 0 then do
    let pages ← spillover.iterate s.heap
    let (minimum, page) := pages.foldl (keepLeast stamp) (minimum, none)
    pure (s, { minimum, page, chain := SystemQueue.spillover.ordinal })
  else do
    let pages ← (s.chains SystemQueue.default.ordinal).iterate s.heap
    let (minimum, page) := pages.foldl (keepLeast stamp) (minimum, none)
    let chain := page.map fun _ => SystemQueue.default.ordinal
    order.foldlM considerChain (s, { minimum, page, chain })

/-- Evict a page. -/
def evict (order : List ℤ) : Java (HierarchicalMemoryManager × PageRef) := do
  let (s, victim) ← s.selectVictim order
  let chain ← deref victim.chain
  let s := s.chainUnlink chain victim.page
  let page ← deref victim.page
  let (memory, heap) ← s.memory.store s.heap none (s.heap.page page).frame
  let address := (heap.page page).address
  pure ({ s with
    memory, heap
    pageTable := s.pageTable.remove address
    swap := Function.update s.swap address (some page) }, page)

/-- A frame for the page that faults, with the page evicted if memory was full. -/
def allocFrame (order : List ℤ) : Java (HierarchicalMemoryManager × ℤ × Option PageRef) :=
  let frame := s.memory.freeFrame
  if frame = -1 then do
    let (s, victim) ← s.evict order
    pure (s, s.memory.freeFrame, some victim)
  else .ok (s, frame, none)

/-- Re-establish externally broken links. -/
def relink (page : PageRef) : Java HierarchicalMemoryManager := do
  let assigned := (s.heap.page page).assigned
  let id ← if assigned ≠ -1 then s.chainOf assigned else .ok SystemQueue.default.ordinal
  let (_, s) ← s.chainLink id page
  pure s

/-- Load the page of an address that is not in memory. -/
def pageFault (order : List ℤ) (address : ℤ) :
    Java (HierarchicalMemoryManager × PageRef × Option PageRef) := do
  let (s, frame, victim) ← s.allocFrame order
  let (s, page) := s.load address
  let (memory, heap) ← s.memory.store ((s.heap.loadPage page).refPage page) (some page) frame
  let pageTable := s.pageTable.add (heap.page page).address frame
  let s ← { s with memory, heap, pageTable }.relink page
  pure (s, page, victim)

/-- The representative of a user chain after an access to one of its pages. -/
def represent (page : PageRef) : Java HierarchicalMemoryManager :=
  let id := (s.heap.page page).resides
  if isUsrMemChain id then do
    let id ← s.usrChain id
    pure (s.setChain id s.heap ((s.chains id).setRepresentative s.heap page))
  else .ok s

/-- Access the page of an address. -/
def access (order : List ℤ) (address : ℤ) : Java (HierarchicalMemoryManager × Outcome ℤ) := do
  let frame := s.pageTable.lookup address
  if frame = -1 then
    let (s, page, victim) ← s.pageFault order address
    let s ← s.represent page
    pure (s, .fault (victim.map fun p => (s.heap.page p).address))
  else
    let page ← deref (← s.memory.load frame)
    let s ← { s with heap := s.heap.refPage page }.represent page
    pure (s, .hit)

def addChain (c : MemoryChain) : HierarchicalMemoryManager :=
  { s with
    chainId := s.chainId + 1
    chains := Function.update s.chains c.id c
    usrChains := c.id :: s.usrChains }

/-- `createMemoryChain(policy)`; the identifier returned is the one given out next. -/
def createMemoryChain (policy : EvictionPolicy) : HierarchicalMemoryManager :=
  s.addChain (.unbounded s.chainId policy)

/-- `createMemoryChain(policy, capacity)`: the capacity is stored, but the chain is not bounded by it. -/
def createBoundedMemoryChain (policy : EvictionPolicy) (capacity : ℤ) :
    HierarchicalMemoryManager :=
  s.addChain (.bounded' s.chainId policy capacity)

/-- The third overload of `createMemoryChain`. -/
def createAnchoredMemoryChain (_policy : EvictionPolicy) (_capacity : ℤ) (_anchored : Bool) :
    Java HierarchicalMemoryManager :=
  .error .unsupportedOperation

/-- The page in memory of an address, dereferenced. -/
def pageAt (address : ℤ) : Java PageRef := do
  deref (← s.memory.load (s.pageTable.lookup address))

/-- What becomes of the page a bounded chain evicted when it was full. -/
def spill : Option PageRef → Java HierarchicalMemoryManager
  | none => .ok s
  | some page => do
    let (_, s) ← s.chainLink SystemQueue.spillover.ordinal page
    pure (s.assign page SystemQueue.default.ordinal)

/-- `link`: the page, which is to be in memory, leaves its chain, if that is another one, and joins the
    chain. -/
def link (chain address : ℤ) : Java HierarchicalMemoryManager := do
  let page ← s.pageAt address
  let resides := (s.heap.page page).resides
  let s ←
    if resides = -1 then .ok s
    else if isSysMemChain resides then .ok (s.chainUnlink resides (some page))
    else if chain ≠ resides then do
      let id ← s.usrChain resides
      .ok (s.chainUnlink id (some page))
    else .ok s
  let (evicted, s) ← (s.assign page chain).chainLink chain page
  s.spill evicted

/-- `anchor`: the page joins the chain, as its anchor. -/
def anchor (chain address : ℤ) : Java HierarchicalMemoryManager := do
  let page ← s.pageAt address
  let resides := (s.heap.page page).resides
  let s ←
    if isSysMemChain resides then .ok (s.chainUnlink resides (some page))
    else if resides ≠ -1 ∧ chain ≠ resides then do
      let id ← s.usrChain resides
      .ok (s.chainUnlink id (some page))
    else .ok s
  let (evicted, s) ← (s.assign page chain).chainAnchor chain page
  s.spill evicted

/-- Move the page of an address to the hated chain. -/
def unlink (address : ℤ) : Java HierarchicalMemoryManager :=
  let frame := s.pageTable.lookup address
  if frame ≠ -1 then do
    let page ← deref (← s.memory.load frame)
    let id ← s.chainOf (s.heap.page page).resides
    if id ≠ SystemQueue.hated.ordinal then do
      let s := (s.chainUnlink id (some page)).assign page SystemQueue.default.ordinal
      let (_, s) ← s.chainLink SystemQueue.hated.ordinal page
      pure s
    else pure s
  else .ok s

/-- Move a page removed from a chain to the hated chain. -/
def hatePage (s : HierarchicalMemoryManager) (page : Option PageRef) :
    Java HierarchicalMemoryManager := do
  let page ← deref page
  let (_, s) ← (s.assign page SystemQueue.default.ordinal).chainLink
    SystemQueue.hated.ordinal page
  pure s

/-- `breakMemoryChain`: the pages of the chain go to the hated chain, and the chain stays. -/
def breakMemoryChain (chain : ℤ) : Java HierarchicalMemoryManager := do
  let (pages, h, c) ← (s.chains chain).unchain s.heap
  pages.foldlM hatePage (s.setChain chain h c)

/-- `releaseMemoryChain`: the chain is broken and leaves the map of the user chains. -/
def releaseMemoryChain (chain : ℤ) : Java HierarchicalMemoryManager := do
  let s ← s.breakMemoryChain chain
  pure { s with usrChains := s.usrChains.erase chain }

end HierarchicalMemoryManager

end Mcpq.Hierarchical
