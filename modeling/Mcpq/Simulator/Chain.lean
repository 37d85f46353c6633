import Mcpq.Simulator.MemoryManager
import Mcpq.Lib.DoublyLinked
import Mcpq.Lib.Extremum

/-!
# The chains of the chained LRU policy

The class `Chain`, nested in `ChainedLeastRecentlyUsedReplacementPolicy`: a doubly linked list of
pages, most recently added first, which may have an anchor and a capacity. Its effective timestamp
is computed once for each sample number.

A method reads the heap and its chain, and returns them as it leaves them. A loop over the chain that
is not over after as many iterations as there are pages never ends.
-/

namespace Mcpq.Simulator

namespace MemoryPage

/-- The page without its links. -/
def detach (p : MemoryPage) : MemoryPage := { p with next := none, prev := none }

theorem eq_of_detach {p q : MemoryPage} (hd : p.detach = q.detach) (hn : p.next = q.next)
    (hp : p.prev = q.prev) : p = q := by
  cases p
  cases q
  simp only [detach, mk.injEq] at *
  tauto

end MemoryPage

namespace Heap

/-- The link fields of the pages of a heap. -/
def next (h : Heap) (r : PageRef) : Option PageRef := (h.page r).next

def prev (h : Heap) (r : PageRef) : Option PageRef := (h.page r).prev

/-- `page.next = v` and `page.prev = v`. -/
def setNext (h : Heap) (r : PageRef) (v : Option PageRef) : Heap :=
  h.modify r ({ · with next := v })

def setPrev (h : Heap) (r : PageRef) (v : Option PageRef) : Heap :=
  h.modify r ({ · with prev := v })

/-- `page.link = id`. -/
def setLink (h : Heap) (r : PageRef) (id : ℤ) : Heap := h.modify r ({ · with link := id })

/-- `page.time = time`. -/
def setTime (h : Heap) (r : PageRef) (time : ℕ) : Heap := h.modify r ({ · with time })

section links

variable (h : Heap) (r q : PageRef) (v : Option PageRef)

@[simp] theorem setNext_next : (h.setNext r v).next q = if q = r then v else h.next q := by
  simp only [next, setNext, modify_page]
  split_ifs <;> rfl

@[simp] theorem setPrev_prev : (h.setPrev r v).prev q = if q = r then v else h.prev q := by
  simp only [prev, setPrev, modify_page]
  split_ifs <;> rfl

/-- A write that keeps a field keeps it on every page. -/
theorem modify_field {β : Type} {g : MemoryPage → β} {f : MemoryPage → MemoryPage}
    (hf : ∀ p, g (f p) = g p) : g ((h.modify r f).page q) = g (h.page q) := by
  rw [modify_page]
  split_ifs with hq
  · rw [hq, hf]
  · rfl

@[simp] theorem setNext_prev : (h.setNext r v).prev q = h.prev q :=
  h.modify_field r q fun _ => rfl

@[simp] theorem setPrev_next : (h.setPrev r v).next q = h.next q :=
  h.modify_field r q fun _ => rfl

@[simp] theorem setNext_detach : ((h.setNext r v).page q).detach = (h.page q).detach :=
  h.modify_field r q fun _ => rfl

@[simp] theorem setPrev_detach : ((h.setPrev r v).page q).detach = (h.page q).detach :=
  h.modify_field r q fun _ => rfl

@[simp] theorem setLink_next (id : ℤ) : (h.setLink r id).next q = h.next q :=
  h.modify_field r q fun _ => rfl

@[simp] theorem setLink_prev (id : ℤ) : (h.setLink r id).prev q = h.prev q :=
  h.modify_field r q fun _ => rfl

end links

/-- A page is its fields but the links, and its links. -/
theorem page_eq {h h' : Heap} {q : PageRef} (hd : (h'.page q).detach = (h.page q).detach)
    (hn : h'.next q = h.next q) (hp : h'.prev q = h.prev q) : h'.page q = h.page q :=
  MemoryPage.eq_of_detach hd hn hp

end Heap

/-- The fields of a chain; its pages are linked through the heap. -/
structure Chain where
  id : ℤ
  capacity : ℤ := 2147483647
  size : ℤ := 0
  /-- Whether the last access time is updated on eviction of a node. -/
  anchored : Bool := false
  /-- The last node to be evicted from the chain. -/
  anchor : Option PageRef := none
  head : Option PageRef := none
  tail : Option PageRef := none
  /-- The chain's timestamp, and the number of its sample. -/
  timestamp : ℕ := 0
  sample : ℕ := 0
  deriving DecidableEq, Repr

namespace Chain

/-- `Integer.MAX_VALUE`. -/
def maxValue : ℤ := 2147483647

/-- The constructor all the others call. -/
def make (id capacity : ℤ) (anchored : Bool) : Chain where
  id
  capacity
  anchored

/-- `new Chain(id, anchored)`. -/
def unbounded (id : ℤ) (anchored : Bool) : Chain := make id maxValue anchored

/-- `new Chain(id, capacity)`, which ignores the capacity. -/
def bounded (id : ℤ) (_capacity : ℤ) : Chain := make id maxValue false

/-- The page is on no chain. -/
def removeLink (h : Heap) (page : PageRef) : Heap :=
  h.modify page fun p => { p with prev := none, next := none, link := -1 }

/-- The loop of `unchain`. -/
def unchainFrom : ℕ → Heap → Option PageRef → Java Heap
  | _, h, none => .ok h
  | 0, _, some _ => .error .diverges
  | n + 1, h, some p => unchainFrom n (removeLink h p) (h.next p)

/-- Remove all the pages from the chain. A page met again has lost its successor, so that the loop
    has at most one iteration more than there are pages. -/
def unchain (c : Chain) (h : Heap) : Java (Heap × Chain) := do
  let h ← unchainFrom (h.disk.length + 1) h c.head
  pure (h, { c with head := none, tail := none, anchor := none, size := 0 })

/-- Make the neighbours of a page point to each other. The tail is not updated when the page is
    the only one. -/
def bypass (c : Chain) (h : Heap) (page : PageRef) : Heap × Chain :=
  match h.prev page with
  | none =>
    match h.next page with
    | none => (h, { c with head := none })
    | some head => (h.setPrev head none, { c with head := some head })
  | some previous =>
    let h := h.setNext previous (h.next page)
    match h.next page with
    | some next => (h.setPrev next (some previous), c)
    | none => (h, { c with tail := h.prev page })

/-- Remove a page from the chain. -/
def unlink (c : Chain) (h : Heap) : Option PageRef → Heap × Chain
  | none => (h, c)
  | some page =>
    if (h.page page).link = -1 then (h, c) else
    let (h, c) := c.bypass h page
    let c := if c.anchor = some page then { c with anchor := none } else c
    (removeLink h page, { c with size := c.size - 1 })

/-- The page to evict if no other is viable. -/
def fallback (c : Chain) (h : Heap) : Option PageRef :=
  if c.size = 1 then c.head
  else c.anchor.bind fun anchor => (h.prev anchor).or (h.next anchor)

/-- The update of the last access time of an anchored chain. -/
def touchHead (c : Chain) (h : Heap) : Heap :=
  match c.anchored, c.head with
  | true, some head => (h.setTime head h.clock.generate.current).tick
  | _, _ => h

/-- Evict the least recently used page but the anchor. -/
def evict (c : Chain) (h : Heap) : Java (PageRef × Heap × Chain) := do
  let pages ← walk h.next h.disk.length c.head
  let (min, page) := pages.foldl
    (keepLastLeast (fun p => (h.page p).time) fun p => some p ≠ c.anchor)
    (h.clock.current + 1, c.fallback h)
  let (h, c) := c.unlink (c.touchHead h) page
  let page ← deref page
  pure (page, h.setTime page min, c)

/-- Link a page at the head of the chain. -/
def push (c : Chain) (h : Heap) (page : PageRef) : Heap × Chain :=
  let c := { c with size := c.size + 1 }
  let (h, c) := match c.head with
    | none => (h, { c with head := some page, tail := some page })
    | some head =>
      ((h.setPrev head (some page)).setNext page (some head), { c with head := some page })
  (h.setLink page c.id, c)

/-- Add a page to the chain, evicting another one if the chain is full. -/
def add (c : Chain) (h : Heap) (page : PageRef) : Java (Heap × Chain) :=
  if (h.page page).link = c.id then .ok (h, c)
  else if c.size ≥ c.capacity then do
    let (_, h, c) ← c.evict h
    pure (c.push h page)
  else .ok (c.push h page)

/-- Add a page to the chain and anchor it. -/
def anchorPage (c : Chain) (h : Heap) (page : PageRef) : Java (Heap × Chain) := do
  let (h, c) ← c.add h page
  pure (h, { c with anchor := some page })

/-- The effective timestamp of the chain, computed again if the sample is another one. -/
def getTimestamp (c : Chain) (h : Heap) (sample : ℕ) : Java (ℕ × Chain) :=
  if c.sample = sample then .ok (c.timestamp, c)
  else do
    let pages ← walk h.next h.disk.length c.head
    let timestamp := pages.foldl (fun t p => max t (h.page p).time) c.timestamp
    pure (timestamp, { c with timestamp, sample })

end Chain

end Mcpq.Simulator
