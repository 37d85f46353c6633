import Mcpq.Simulator.MemoryManager
import Mcpq.Lib.Extremum

/-!
# Page replacement policies

The policies `LRUReplacementPolicy`, `LoveHateReplacementPolicy`, `ClockReplacementPolicy`,
`LoveClockReplacementPolicy` and `MultiLevelQueueReplacementPolicy` of the simulator.

A `while` loop gets as many turns as a terminating one may need: the clock makes one turn for each
page that is referenced, the love clock comes back to a page as many times as it is loved, and the love
queue resets each page at most once.
-/

namespace Mcpq.Simulator

/-- A policy that ignores `love` and `hate`. -/
def IPageReplacementPolicy.ofFind {σ : Type}
    (findPageToEvict : σ → Heap → List (Option PageRef) → Java (Option PageRef × Heap × σ)) :
    IPageReplacementPolicy σ where
  findPageToEvict
  love s h _ _ := .ok (h, s)
  lovePin s h _ _ _ := .ok (h, s)
  hate s h _ := .ok (h, s)
  hateLevel s h _ _ := .ok (h, s)

/-! ## LRU -/

namespace LRUReplacementPolicy

def findPageToEvict (_ : Unit) (h : Heap) (pages : List (Option PageRef)) :
    Java (Option PageRef × Heap × Unit) := do
  let (_, evicted) ← pages.foldlM (fun best p => do
    let p ← deref p
    pure (keepLeast (fun p => (h.page p).time) best p)) (h.clock.current + 1, none)
  pure (evicted, h, ())

end LRUReplacementPolicy

/-- The class `LRUReplacementPolicy`. -/
def lruReplacementPolicy : IPageReplacementPolicy Unit :=
  .ofFind LRUReplacementPolicy.findPageToEvict

/-! ## Love and hate -/

namespace LoveHateReplacementPolicy

/-- `PIN_LEVEL`. -/
def pinLevel : ℤ := 255

/-- The pages found so far: the least recently used of the pages of least love, and of all. -/
structure Search where
  minTime : ℕ
  minLove : ℤ := 2147483647
  evictedBlock : Option PageRef := none
  lruMinTime : ℕ
  lruEvictedBlock : Option PageRef := none
  deriving DecidableEq, Repr

/-- An iteration of the loop over the pages. -/
def Search.block (h : Heap) (s : Search) (block : PageRef) : Search :=
  let p := h.page block
  let s := if p.love < s.minLove ∨ p.love = s.minLove ∧ p.time < s.minTime then
      { s with minTime := p.time, minLove := p.love, evictedBlock := some block }
    else s
  if p.time < s.lruMinTime then { s with lruMinTime := p.time, lruEvictedBlock := some block }
  else s

def findPageToEvict (_ : Unit) (h : Heap) (pages : List (Option PageRef)) :
    Java (Option PageRef × Heap × Unit) := do
  let minTime := h.clock.current + 1
  let s ← pages.foldlM (fun s p => do pure (Search.block h s (← deref p)))
    { minTime, lruMinTime := minTime }
  let lru ← deref s.lruEvictedBlock
  if (h.page lru).love ≠ pinLevel then
    let evicted ← deref s.evictedBlock
    if (h.page lru).time < (h.page evicted).time then
      pure (s.evictedBlock, h.modify lru fun p => { p with love := p.love - 1 }, ())
    else pure (s.evictedBlock, h, ())
  else pure (s.evictedBlock, h, ())

/-- Update a page that is not `null`. -/
def update (h : Heap) (page : Option PageRef) (f : MemoryPage → MemoryPage) : Java (Heap × Unit) :=
  .ok (page.elim h (h.modify · f), ())

end LoveHateReplacementPolicy

open LoveHateReplacementPolicy in
/-- The class `LoveHateReplacementPolicy`. -/
def loveHateReplacementPolicy : IPageReplacementPolicy Unit where
  findPageToEvict := findPageToEvict
  love _ h page level := update h page ({ · with love := min level pinLevel })
  lovePin _ h page level pin :=
    update h page ({ · with love := if pin then pinLevel else min level (pinLevel - 1) })
  hateLevel _ h page level := update h page fun p => { p with love := min level p.love }
  hate _ h page := update h page ({ · with love := 0, time := 0 })

/-! ## Clocks -/

namespace ClockReplacementPolicy

/-- The loop of `findPageToEvict`. -/
def turn (pages : List (Option PageRef)) : ℕ → Heap → ℤ → Java (Option PageRef × Heap × ℤ)
  | 0, _, _ => .error .diverges
  | fuel + 1, h, clockHand => do
    let p ← deref (← arrayGet pages clockHand)
    if ¬(h.page p).referenced then pure (some p, h, clockHand)
    else
      turn pages fuel (h.modify p ({ · with referenced := false }))
        ((clockHand + 1) % pages.length)

def findPageToEvict (clockHand : ℤ) (h : Heap) (pages : List (Option PageRef)) :
    Java (Option PageRef × Heap × ℤ) :=
  turn pages (pages.length + 1) h clockHand

end ClockReplacementPolicy

/-- The class `ClockReplacementPolicy`; its state is the clock hand. -/
def clockReplacementPolicy : IPageReplacementPolicy ℤ :=
  .ofFind ClockReplacementPolicy.findPageToEvict

namespace LoveClockReplacementPolicy

/-- The loop of `findPageToEvict`. -/
def turn (pages : List (Option PageRef)) : ℕ → Heap → ℤ → Java (Option PageRef × Heap × ℤ)
  | 0, _, _ => .error .diverges
  | fuel + 1, h, clockHand => do
    let p ← deref (← arrayGet pages clockHand)
    if (h.page p).love = 0 ∧ ¬(h.page p).referenced then pure (some p, h, clockHand)
    else
      let h := if (h.page p).love = 0 then h.modify p ({ · with referenced := false }) else h
      let h := if (h.page p).love > 0 then
          h.modify p fun q => { q with love := q.love - 1, referenced := true }
        else h
      turn pages fuel h ((clockHand + 1) % pages.length)

/-- As many turns as the love of all pages, and one more for each page, and one more. -/
def turns (h : Heap) (pages : List (Option PageRef)) : ℕ :=
  ((pages.map fun p => p.elim 0 fun p => (h.page p).love.toNat + 1).sum + 1) * pages.length + 1

def findPageToEvict (clockHand : ℤ) (h : Heap) (pages : List (Option PageRef)) :
    Java (Option PageRef × Heap × ℤ) :=
  turn pages (turns h pages) h clockHand

/-- Update a page, dereferenced. -/
def update (clockHand : ℤ) (h : Heap) (page : Option PageRef) (f : MemoryPage → MemoryPage) :
    Java (Heap × ℤ) := do
  let p ← deref page
  pure (h.modify p f, clockHand)

end LoveClockReplacementPolicy

open LoveClockReplacementPolicy in
/-- The class `LoveClockReplacementPolicy`; its state is the clock hand. -/
def loveClockReplacementPolicy : IPageReplacementPolicy ℤ where
  findPageToEvict := findPageToEvict
  love s h page l := update s h page ({ · with love := l, referenced := true })
  lovePin s h page l _ := update s h page ({ · with love := l, referenced := true })
  hate s h page := update s h page ({ · with love := 0, referenced := false })
  hateLevel s h page _ := update s h page ({ · with love := 0, referenced := false })

/-! ## The love queue -/

namespace MultiLevelQueueReplacementPolicy

/-- `loveQueueRatio`. -/
def loveQueueRatio : ℚ := 1 / 2

/-- Whether too many pages are loved. The division is that of integers. -/
def tooBigLoveQueue (h : Heap) (pages : List (Option PageRef)) : Java Bool := do
  let loveCounter ← pages.foldlM (fun loveCounter p => do
    let page ← deref p
    pure (if (h.page page).love > 0 then loveCounter + 1 else loveCounter)) 0
  if pages.length = 0 then .error .arithmetic
  else pure (decide (((loveCounter / pages.length : ℕ) : ℚ) > loveQueueRatio))

/-- The loops that search a page to evict or to reset, among those whose love is `eligible`: `minTime` is
    not lowered. -/
def search (eligible : ℤ → Bool) (h : Heap) (pages : List (Option PageRef)) :
    Java (Option PageRef) :=
  let minTime := h.clock.current + 1
  pages.foldlM (fun pageToEvict p => do
    let page ← deref p
    pure (if eligible (h.page page).love ∧ (h.page page).time < minTime then some page
      else pageToEvict)) none

/-- `reduceLoveQueue`: the page that the search finds is not loved any more. -/
def reduceLoveQueue (h : Heap) (pages : List (Option PageRef)) : Java Heap := do
  let pageToEvict ← deref (← search (decide <| · > 0) h pages)
  pure (h.modify pageToEvict ({ · with love := 0 }))

/-- The `while` loop of `findPageToEvict`. -/
def reduce (pages : List (Option PageRef)) : ℕ → Heap → Java Heap
  | 0, _ => .error .diverges
  | fuel + 1, h => do
    if ← tooBigLoveQueue h pages then reduce pages fuel (← reduceLoveQueue h pages)
    else pure h

def findPageToEvict (_ : Unit) (h : Heap) (pages : List (Option PageRef)) :
    Java (Option PageRef × Heap × Unit) := do
  let h ← reduce pages (pages.length + 1) h
  let evicted ← search (decide <| · = 0) h pages
  pure (evicted, h, ())

/-- Update a page, dereferenced. -/
def update (h : Heap) (page : Option PageRef) (f : MemoryPage → MemoryPage) :
    Java (Heap × Unit) := do
  let p ← deref page
  pure (h.modify p f, ())

end MultiLevelQueueReplacementPolicy

open MultiLevelQueueReplacementPolicy in
/-- The class `MultiLevelQueueReplacementPolicy`. -/
def multiLevelQueueReplacementPolicy : IPageReplacementPolicy Unit where
  findPageToEvict := findPageToEvict
  love _ h page l := update h page ({ · with love := l })
  lovePin _ h page l _ := update h page ({ · with love := l })
  hate _ h page := update h page ({ · with love := 0, time := 0 })
  hateLevel _ h page _ := update h page ({ · with love := 0, time := 0 })

end Mcpq.Simulator
