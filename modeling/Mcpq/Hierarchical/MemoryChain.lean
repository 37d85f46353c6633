import Mcpq.Hierarchical.Page
import Mcpq.Lib.Extremum

/-!
# Memory chains

The class `MemoryChain`: a doubly linked list of pages, most recently linked first, with a local
eviction policy, an anchor, and the *representative* of the chain, the member whose timestamp
stands for all.

A method reads the heap and its chain, and returns them as it leaves them. The loops of `lru`,
`mru`, `getTimestamp` and `victim` go through the chain from both ends at once (`scan`); a loop
that is not over after as many iterations as there are pages never ends.
-/

namespace Mcpq.Hierarchical

/-- The policies of a chain. -/
inductive EvictionPolicy
  | lru
  | mru
  | fifo
  | random
  deriving DecidableEq, Repr

/-- The fields of a chain; its pages are linked through the heap. -/
structure MemoryChain where
  id : ℤ
  size : ℤ := 0
  capacity : ℤ := 2147483647
  bounded : Bool := false
  /-- Whether the last access time is updated on eviction of a page. -/
  anchored : Bool := false
  /-- The last page to be evicted from the chain. -/
  anchor : Option PageRef := none
  head : Option PageRef := none
  tail : Option PageRef := none
  /-- The chain's timestamp, valid if there is a representative. -/
  timestamp : ℕ := 0
  representative : Option PageRef := none
  policy : EvictionPolicy := .lru
  deriving DecidableEq, Repr

namespace MemoryChain

/-- `Integer.MAX_VALUE`. -/
def maxValue : ℤ := 2147483647

/-- The constructor all the others call. It leaves `bounded` to `false`. -/
def make (id : ℤ) (policy : EvictionPolicy) (capacity : ℤ) (_bounded anchored : Bool) :
    MemoryChain where
  id
  policy
  capacity
  bounded := false
  anchored

/-- `new MemoryChain(id, policy)`. -/
def unbounded (id : ℤ) (policy : EvictionPolicy) : MemoryChain :=
  make id policy maxValue false false

/-- `new MemoryChain(id, policy, capacity)`. -/
def bounded' (id : ℤ) (policy : EvictionPolicy) (capacity : ℤ) : MemoryChain :=
  make id policy capacity true false

/-- `new MemoryChain(id, policy, capacity, anchored)`. -/
def boundedAnchored (id : ℤ) (policy : EvictionPolicy) (capacity : ℤ) (anchored : Bool) :
    MemoryChain :=
  make id policy capacity true anchored

/-- `reset`: the page is on no chain. -/
def reset (h : Heap) (page : PageRef) : Heap :=
  h.modify page fun p => { p with prev := none, next := none, resides := -1 }

/-- The loop of `unchain`, with `n` cells left in the array of the pages removed. -/
def unchainFrom : ℕ → Heap → Option PageRef → Java (Heap × List (Option PageRef))
  | n, h, none => .ok (h, List.replicate n none)
  | 0, _, some _ => .error .indexOutOfBounds
  | n + 1, h, some p => do
    let (h', pages) ← unchainFrom n (reset h p) (h.next p)
    pure (h', some p :: pages)

/-- Remove all the pages from the chain. The representative stays. -/
def unchain (c : MemoryChain) (h : Heap) : Java (List (Option PageRef) × Heap × MemoryChain) :=
  if c.size < 0 then .error .negativeArraySize else do
    let (h, pages) ← unchainFrom c.size.toNat h c.head
    pure (pages, h, { c with head := none, tail := none, anchor := none, size := 0 })

/-- Make the neighbours of a page point to each other. The tail is not updated when the page is
    the only one. -/
def bypass (c : MemoryChain) (h : Heap) (page : PageRef) : Heap × MemoryChain :=
  match h.prev page with
  | none =>
    match h.next page with
    | none => (h, { c with head := none })
    | some head => (h.setPrev head none, { c with head := some head })
  | some previous =>
    let h := h.setNext previous (h.next page)
    match h.next page with
    | some next => (h.setPrev next (some previous), c)
    | none => (h, { c with tail := h.prev page })

/-- Remove a page from the chain. -/
def unlink (c : MemoryChain) (h : Heap) : Option PageRef → Heap × MemoryChain
  | none => (h, c)
  | some page =>
    if (h.page page).resides = -1 then (h, c) else
    let (h, c) := c.bypass h page
    let c := if c.anchor = some page then { c with anchor := none } else c
    let c := if c.representative = some page then { c with representative := none } else c
    (reset h page, { c with size := c.size - 1 })

/-- A loop over the chain from both ends. -/
def scan {β : Type} (c : MemoryChain) (h : Heap) (body : β → PageRef → β) (b : β) : Java β :=
  scanEnds h.next h.prev body h.fresh c.head c.tail b

/-- The least recently used page but the anchor. -/
def leastRecentlyUsed (c : MemoryChain) (h : Heap) : Java (Option PageRef) := do
  let (_, page) ← c.scan h (fun (min, page) p =>
    if (h.page p).timestamp ≤ min ∧ some p ≠ c.anchor then ((h.page p).timestamp, some p)
    else (min, page)) (h.clock.current + 1, none)
  pure page

/-- The most recently used page but the anchor. -/
def mostRecentlyUsed (c : MemoryChain) (h : Heap) : Java (Option PageRef) := do
  let (_, page) ← c.scan h (fun (max, page) p =>
    if (h.page p).timestamp ≥ max ∧ some p ≠ c.anchor then ((h.page p).timestamp, some p)
    else (max, page)) (0, none)
  pure page

/-- The page `n` links after a page. -/
def skip (h : Heap) : ℕ → Option PageRef → Java (Option PageRef)
  | 0, page => .ok page
  | n + 1, page => do
    let page ← deref page
    skip h n (h.next page)

/-- `random`: the page a random number of steps after the head. -/
def randomPage (c : MemoryChain) (h : Heap) : Java (Option PageRef × Heap) := do
  let (n, h) ← h.nextInt c.size
  let page ← skip h n c.head
  pure (page, h)

/-- The page the local eviction policy chooses. -/
def choose (c : MemoryChain) (h : Heap) : Java (Option PageRef × Heap) :=
  match c.policy with
  | .lru => do pure (← c.leastRecentlyUsed h, h)
  | .mru => do pure (← c.mostRecentlyUsed h, h)
  | .random => c.randomPage h
  | .fifo => .ok (c.tail, h)

/-- The update of the last access time of an anchored chain. -/
def touchAnchor (c : MemoryChain) (h : Heap) : Heap :=
  match c.anchored, c.head with
  | true, some head =>
    (h.modify (c.anchor.getD head) ({ · with timestamp := h.clock.generate.current })).tick
  | _, _ => h

/-- Evict a page from the chain by its local eviction policy, which overrides the choice made
    before it in the method. -/
def evict (c : MemoryChain) (h : Heap) : Java (PageRef × Heap × MemoryChain) := do
  let min := h.clock.current + 1
  let (page, h) ← c.choose h
  let (h, c) := c.unlink (c.touchAnchor h) page
  let page ← deref page
  pure (page, h.modify page ({ · with timestamp := min }), c)

/-- Make a member with a greater timestamp the representative of the chain. -/
def setRepresentative (c : MemoryChain) (h : Heap) (page : PageRef) : MemoryChain :=
  if (h.page page).timestamp > c.timestamp ∧ (h.page page).resides = c.id then
    { c with timestamp := (h.page page).timestamp, representative := some page }
  else c

/-- Link a page at the head of the chain. -/
def push (c : MemoryChain) (h : Heap) (page : PageRef) : Heap × MemoryChain :=
  let (h, c) := match c.head with
    | none => (h, { c with head := some page, tail := some page })
    | some head =>
      ((h.setPrev head (some page)).setNext page (some head), { c with head := some page })
  let h := h.setResides page c.id
  (h, c.setRepresentative h page)

/-- Add a page to the chain, and return the page evicted if the chain is bounded and full. -/
def link (c : MemoryChain) (h : Heap) (page : PageRef) :
    Java (Option PageRef × Heap × MemoryChain) :=
  if (h.page page).resides = c.id then .ok (none, h, c)
  else if c.size ≥ c.capacity ∧ c.bounded then do
    let (evicted, h, c) ← c.evict h
    let (h, c) := c.unlink h (some evicted)
    let (h, c) := push { c with size := c.size + 1 } h page
    pure (some evicted, h, c)
  else
    let (h, c) := push { c with size := c.size + 1 } h page
    .ok (none, h, c)

/-- Add a page to the chain and anchor it. -/
def anchorPage (c : MemoryChain) (h : Heap) (page : PageRef) :
    Java (Option PageRef × Heap × MemoryChain) := do
  let (p, h, c) ← c.link h page
  pure (p, h, { c with anchor := some page })

/-- The effective timestamp of the chain, computed again if it is not valid. -/
def getTimestamp (c : MemoryChain) (h : Heap) : Java (ℕ × MemoryChain) :=
  match c.representative with
  | some _ => .ok (c.timestamp, c)
  | none => do
    let (timestamp, representative) ←
      c.scan h (keepGreatest fun p => (h.page p).timestamp) (0, none)
    pure (timestamp, { c with timestamp, representative })

/-- The page to be selected as a victim. -/
def victim (c : MemoryChain) (h : Heap) : Java (Option PageRef) := do
  let (_, victim) ←
    c.scan h (keepLeast fun p => (h.page p).timestamp) (h.clock.current + 1, none)
  pure victim

/-- The pages an iteration over the chain goes through. -/
def iterate (c : MemoryChain) (h : Heap) : Java (List PageRef) := walk h.next h.fresh c.head

end MemoryChain

end Mcpq.Hierarchical
