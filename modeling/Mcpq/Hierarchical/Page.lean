import Mcpq.Lib.DoublyLinked
import Mathlib.Logic.Function.Basic

/-!
# Pages of the hierarchical memory manager

The page objects (`Page`) and the heap they live in (`Heap`), together with what the methods of
pages and chains share: the clock of the `Coordinator` and the random draws.

A page object is known by its reference, a number given out by `Heap.newPage`. The pages of a heap
are linked to each other by their `next` and `prev` fields; `Page.detach` forgets these two, so
that pages are compared up to their links.

The fields `Page.linkedAt` and `Heap.links` are not in the program: they record in which order
pages were linked to chains.
-/

namespace Mcpq.Hierarchical

/-- A reference to a page object. -/
abbrev PageRef := ℕ

/-- A page. -/
structure Page where
  /-- The virtual memory address, at page level. -/
  address : ℤ := 0
  /-- The physical frame number. -/
  frame : ℤ := 0
  timestamp : ℕ := 0
  refrenced : Bool := false
  /-- The residing memory chain. -/
  resides : ℤ := -1
  /-- The assigned memory chain. -/
  assigned : ℤ := -1
  next : Option PageRef := none
  prev : Option PageRef := none
  /-- The counters `HIT`, `MISS` and `EVICT` of `stats`. -/
  hit : ℕ := 0
  miss : ℕ := 0
  evicted : ℕ := 0
  /-- When the page was linked to the chain it is on. -/
  linkedAt : ℕ := 0
  deriving DecidableEq, Repr

namespace Page

/-- `load`: a miss is counted, and the page is stamped. -/
def load (p : Page) (clock : LogicalClock) : Page :=
  { p with miss := p.miss + 1, timestamp := clock.generate.current }

/-- `ref`: a hit is counted, and the page is stamped. -/
def ref (p : Page) (clock : LogicalClock) : Page :=
  { p with hit := p.hit + 1, timestamp := clock.generate.current, refrenced := true }

/-- `evict`: an eviction is counted. -/
def evict (p : Page) : Page := { p with evicted := p.evicted + 1 }

/-- The page without its links. -/
def detach (p : Page) : Page := { p with next := none, prev := none }

theorem eq_of_detach {p q : Page} (hd : p.detach = q.detach) (hn : p.next = q.next)
    (hp : p.prev = q.prev) : p = q := by
  cases p
  cases q
  simp only [detach, mk.injEq] at *
  tauto

end Page

/-- The page objects, the clock and the random draws to come. -/
structure Heap where
  page : PageRef → Page := fun _ => {}
  /-- The references from `fresh` on are not in use. -/
  fresh : PageRef := 0
  clock : LogicalClock := {}
  draws : ℕ → ℕ := fun _ => 0
  /-- The number of links made so far. -/
  links : ℕ := 0

namespace Heap

/-- The timestamps of the pages. -/
def timestamp (h : Heap) (r : PageRef) : ℕ := (h.page r).timestamp

/-- Update the page `r`. -/
def modify (h : Heap) (r : PageRef) (f : Page → Page) : Heap :=
  { h with page := Function.update h.page r (f (h.page r)) }

/-- `new Page(address)`. -/
def newPage (h : Heap) (address : ℤ) : Heap × PageRef :=
  ({ h with page := Function.update h.page h.fresh { address }, fresh := h.fresh + 1 }, h.fresh)

/-- `Coordinator.clock.generate()`. -/
def tick (h : Heap) : Heap := { h with clock := h.clock.generate }

/-- `page.load()`. -/
def loadPage (h : Heap) (r : PageRef) : Heap := (h.modify r (·.load h.clock)).tick

/-- `page.ref()`. -/
def refPage (h : Heap) (r : PageRef) : Heap := (h.modify r (·.ref h.clock)).tick

/-- `new Random().nextInt(n)`. -/
def nextInt (h : Heap) (n : ℤ) : Java (ℕ × Heap) :=
  if 0 < n then .ok (h.draws 0 % n.toNat, { h with draws := fun i => h.draws (i + 1) })
  else .error .illegalArgument

/-- The link fields of the pages of a heap. -/
def next (h : Heap) (r : PageRef) : Option PageRef := (h.page r).next

def prev (h : Heap) (r : PageRef) : Option PageRef := (h.page r).prev

/-- `page.next = v` and `page.prev = v`. -/
def setNext (h : Heap) (r : PageRef) (v : Option PageRef) : Heap :=
  h.modify r ({ · with next := v })

def setPrev (h : Heap) (r : PageRef) (v : Option PageRef) : Heap :=
  h.modify r ({ · with prev := v })

/-- `page.resides = id`, where a page is linked to a chain. -/
def setResides (h : Heap) (r : PageRef) (id : ℤ) : Heap :=
  { h.modify r ({ · with resides := id, linkedAt := h.links }) with links := h.links + 1 }

variable (h : Heap) (r q : PageRef) (f : Page → Page)

theorem modify_page : (h.modify r f).page q = if q = r then f (h.page r) else h.page q :=
  Function.update_apply ..

@[simp] theorem modify_page_self : (h.modify r f).page r = f (h.page r) := by
  rw [modify_page, if_pos rfl]

theorem modify_page_of_ne {r q : PageRef} (hq : q ≠ r) : (h.modify r f).page q = h.page q := by
  rw [modify_page, if_neg hq]

@[simp] theorem modify_fresh : (h.modify r f).fresh = h.fresh := rfl
@[simp] theorem modify_clock : (h.modify r f).clock = h.clock := rfl
@[simp] theorem modify_draws : (h.modify r f).draws = h.draws := rfl
@[simp] theorem modify_links : (h.modify r f).links = h.links := rfl

@[simp] theorem tick_page : h.tick.page = h.page := rfl
@[simp] theorem tick_fresh : h.tick.fresh = h.fresh := rfl
@[simp] theorem tick_links : h.tick.links = h.links := rfl
@[simp] theorem tick_clock : h.tick.clock = h.clock.generate := rfl

section links

variable (v : Option PageRef)

@[simp] theorem setNext_next : (h.setNext r v).next q = if q = r then v else h.next q := by
  simp only [next, setNext, modify_page]
  split_ifs <;> rfl

@[simp] theorem setNext_prev : (h.setNext r v).prev q = h.prev q := by
  simp only [prev, setNext, modify_page]
  split_ifs with hq
  · rw [hq]
  · rfl

@[simp] theorem setPrev_next : (h.setPrev r v).next q = h.next q := by
  simp only [next, setPrev, modify_page]
  split_ifs with hq
  · rw [hq]
  · rfl

@[simp] theorem setPrev_prev : (h.setPrev r v).prev q = if q = r then v else h.prev q := by
  simp only [prev, setPrev, modify_page]
  split_ifs <;> rfl

@[simp] theorem setNext_detach : ((h.setNext r v).page q).detach = (h.page q).detach := by
  simp only [setNext, modify_page]
  split_ifs with hq
  · rw [hq]; rfl
  · rfl

@[simp] theorem setPrev_detach : ((h.setPrev r v).page q).detach = (h.page q).detach := by
  simp only [setPrev, modify_page]
  split_ifs with hq
  · rw [hq]; rfl
  · rfl

@[simp] theorem setNext_fresh : (h.setNext r v).fresh = h.fresh := rfl
@[simp] theorem setNext_clock : (h.setNext r v).clock = h.clock := rfl
@[simp] theorem setNext_draws : (h.setNext r v).draws = h.draws := rfl
@[simp] theorem setNext_links : (h.setNext r v).links = h.links := rfl
@[simp] theorem setPrev_fresh : (h.setPrev r v).fresh = h.fresh := rfl
@[simp] theorem setPrev_clock : (h.setPrev r v).clock = h.clock := rfl
@[simp] theorem setPrev_draws : (h.setPrev r v).draws = h.draws := rfl
@[simp] theorem setPrev_links : (h.setPrev r v).links = h.links := rfl

@[simp] theorem setResides_next (id : ℤ) : (h.setResides r id).next q = h.next q := by
  simp only [next, setResides, modify_page]
  split_ifs with hq
  · rw [hq]
  · rfl

@[simp] theorem setResides_prev (id : ℤ) : (h.setResides r id).prev q = h.prev q := by
  simp only [prev, setResides, modify_page]
  split_ifs with hq
  · rw [hq]
  · rfl

theorem setResides_page_self (id : ℤ) : (h.setResides r id).page r =
    { h.page r with resides := id, linkedAt := h.links } :=
  h.modify_page_self r ({ · with resides := id, linkedAt := h.links })

theorem setResides_page_of_ne {r q : PageRef} (hq : q ≠ r) (id : ℤ) :
    (h.setResides r id).page q = h.page q :=
  h.modify_page_of_ne ({ · with resides := id, linkedAt := h.links }) hq

end links

/-- A page is its fields but the links, and its links. -/
theorem page_eq {h h' : Heap} {q : PageRef} (hd : (h'.page q).detach = (h.page q).detach)
    (hn : h'.next q = h.next q) (hp : h'.prev q = h.prev q) : h'.page q = h.page q :=
  Page.eq_of_detach hd hn hp

end Heap

end Mcpq.Hierarchical
