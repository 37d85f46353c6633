import Mathlib.Logic.Function.Basic
import Mathlib.Data.Nat.Notation
import Mathlib.Data.Int.Notation
import Mathlib.Algebra.Group.Int.Defs
import Mathlib.Algebra.Group.Nat.Defs

/-!
# The free lists of a zone

The page allocator of `page_alloc.c`, below its per-CPU lists: a zone keeps its free pages in blocks of
`2 ^ order` pages, on a list for each order and migrate type. A block that is freed is merged with its
buddy as long as that is free too (`freeOnePage`), and a block that is allocated is split from a block
of the smallest order that there is one of, on the list of its type (`rmqueueSmallest`) or on one that
it falls back to (`rmqueueFallback`).

A page is known by its frame number, and the links `lru` of the free pages by the lists they are on. The
pages of other zones have flags, too: no assumption is made about them. The checks of `CONFIG_DEBUG_VM`
and the compound pages are left out.
-/

namespace Mcpq.Kernel.PageAlloc

/-! ## Data -/

/-- `MIGRATE_UNMOVABLE`. -/
def migrateUnmovable : ℕ := 0
/-- `MIGRATE_RECLAIMABLE`. -/
def migrateReclaimable : ℕ := 1
/-- `MIGRATE_MOVABLE`. -/
def migrateMovable : ℕ := 2

/-- The number of types on the per-CPU lists. -/
def migratePcptypes : ℕ := 3

/-- `MIGRATE_RESERVE`. -/
def migrateReserve : ℕ := 3
/-- `MIGRATE_ISOLATE`, from whose lists nothing is allocated. -/
def migrateIsolate : ℕ := 4
/-- `MIGRATE_TYPES`. -/
def migrateTypes : ℕ := 5

/-- What does not change about a zone, and about the memory it is part of. -/
structure Config where
  /-- `MAX_ORDER`. -/
  maxOrder : ℕ := 11
  pageblockOrder : ℕ := 9
  /-- `PAGE_SHIFT`. -/
  pageShift : ℕ := 12
  zoneStartPfn : ℕ
  spannedPages : ℕ
  /-- `page_zone_id` of the pages of the zone, and of any page. -/
  zoneId : ℕ := 0
  pageZoneId : ℕ → ℕ
  pfnValidWithin : ℕ → Bool
  /-- The index of the bits of the block of a page, `pfn_to_bitidx`. -/
  pfnToBitidx : ℕ → ℕ
  pageGroupByMobilityDisabled : Bool := false

/-- The fields of `struct page` for the buddy system. -/
structure Page where
  /-- `PageBuddy`. -/
  buddy : Bool := false
  /-- `page_private`, the order of a free block. -/
  priv : ℕ := 0
  deriving DecidableEq, Repr

/-- The pages and the free lists of a zone, with the types of its page blocks. -/
structure Zone where
  page : ℕ → Page := fun _ => {}
  /-- `free_area[order].free_list[migratetype]`. -/
  freeList : ℕ → ℕ → List ℕ := fun _ _ => []
  /-- `free_area[order].nr_free`. -/
  nrFree : ℕ → ℤ := fun _ => 0
  /-- The migrate types in `pageblock_flags`, by the index of a block. -/
  pageblockFlags : ℕ → ℕ := fun _ => migrateMovable

namespace Zone

variable (z : Zone)

/-- `set_page_order`, which sets `PageBuddy`. -/
def setPageOrder (page order : ℕ) : Zone :=
  { z with page := Function.update z.page page ⟨true, order⟩ }

/-- `rmv_page_order`. -/
def rmvPageOrder (page : ℕ) : Zone :=
  { z with page := Function.update z.page page ⟨false, 0⟩ }

/-- `set_page_private` of a page that is not free. -/
def setPagePrivate (page priv : ℕ) : Zone :=
  { z with page := Function.update z.page page { z.page page with priv } }

/-- `list_del` of the link of a page: it is taken off the list it is on. -/
def listDel (page : ℕ) : Zone := { z with freeList := fun o t => (z.freeList o t).erase page }

def listAdd (order migratetype page : ℕ) : Zone :=
  { z with freeList := fun o t =>
      if o = order ∧ t = migratetype then page :: z.freeList o t else z.freeList o t }

def listAddTail (order migratetype page : ℕ) : Zone :=
  { z with freeList := fun o t =>
      if o = order ∧ t = migratetype then z.freeList o t ++ [page] else z.freeList o t }

/-- Add to the counter of the free blocks of an order. -/
def addNrFree (order : ℕ) (n : ℤ) : Zone :=
  { z with nrFree := Function.update z.nrFree order (z.nrFree order + n) }

end Zone

/-! ## Freeing -/

/-- `__find_buddy_index`. -/
def findBuddyIndex (pageIdx order : ℕ) : ℕ := pageIdx ^^^ 1 <<< order

variable (c : Config)

/-- `page_is_buddy`: the buddy is free, and of the same order. -/
def pageIsBuddy (z : Zone) (page buddy order : ℕ) : Bool :=
  c.pfnValidWithin buddy && c.pageZoneId page == c.pageZoneId buddy &&
    (z.page buddy).buddy && (z.page buddy).priv == order

/-- The variables of `__free_one_page`. -/
structure Merge where
  zone : Zone
  page : ℕ
  pageIdx : ℕ
  order : ℕ
  buddyIdx : ℕ
  buddy : ℕ

/-- At most `n` iterations of the loop that merges the block with its buddy. -/
def mergeLoop : ℕ → Merge → Merge
  | 0, s => s
  | n + 1, s =>
    if s.order < c.maxOrder - 1 then
      let buddyIdx := findBuddyIndex s.pageIdx s.order
      let buddy := s.page + buddyIdx - s.pageIdx
      if pageIsBuddy c s.zone s.page buddy s.order then
        let combinedIdx := buddyIdx &&& s.pageIdx
        mergeLoop n
          { zone := ((s.zone.listDel buddy).addNrFree s.order (-1)).rmvPageOrder buddy
            page := s.page + combinedIdx - s.pageIdx
            pageIdx := combinedIdx
            order := s.order + 1
            buddyIdx
            buddy }
      else { s with buddyIdx, buddy }
    else s

/-- Whether the block of the next order would have a free buddy, so that the block is likely to be merged
    again, and is to be used last. -/
def coalescesSoon (s : Merge) : Bool :=
  if s.order < c.maxOrder - 2 && c.pfnValidWithin s.buddy then
    let combinedIdx := s.buddyIdx &&& s.pageIdx
    let higherPage := s.page + combinedIdx - s.pageIdx
    let buddyIdx := findBuddyIndex combinedIdx (s.order + 1)
    let higherBuddy := s.page + buddyIdx - combinedIdx
    pageIsBuddy c s.zone higherPage higherBuddy (s.order + 1)
  else false

/-- `__free_one_page`. -/
def freeOnePage (z : Zone) (page order migratetype : ℕ) : Zone :=
  let pageIdx := page &&& (1 <<< c.maxOrder - 1)
  let s := mergeLoop c c.maxOrder ⟨z, page, pageIdx, order, 0, 0⟩
  let s := { s with zone := s.zone.setPageOrder s.page s.order }
  let z := if coalescesSoon c s then s.zone.listAddTail s.order migratetype s.page
    else s.zone.listAdd s.order migratetype s.page
  z.addNrFree s.order 1

/-! ## Allocating -/

/-- The halves of a block that are not allocated go back to the lists of their orders. -/
def expand (page low migratetype : ℕ) : ℕ → Zone → Zone
  | 0, z => z
  | high + 1, z =>
    if low < high + 1 then
      let half := page + 1 <<< high
      expand page low migratetype high
        (((z.listAdd high migratetype half).addNrFree high 1).setPageOrder half high)
    else z

/-- `__rmqueue_smallest`. -/
def rmqueueSmallest (z : Zone) (order migratetype : ℕ) : Option (Zone × ℕ) :=
  (List.range' order (c.maxOrder - order)).findSome? fun currentOrder =>
    match z.freeList currentOrder migratetype with
    | [] => none
    | page :: _ =>
      let z := ((z.listDel page).rmvPageOrder page).addNrFree currentOrder (-1)
      some (expand page order migratetype currentOrder z, page)

/-- At most `n` iterations of the loop of `move_freepages`. -/
def moveFreepagesLoop (endPage migratetype : ℕ) : ℕ → ℕ → Zone → ℕ → Zone × ℕ
  | 0, _, z, pagesMoved => (z, pagesMoved)
  | n + 1, page, z, pagesMoved =>
    if page ≤ endPage then
      if !c.pfnValidWithin page then moveFreepagesLoop endPage migratetype n (page + 1) z pagesMoved
      else if !(z.page page).buddy then
        moveFreepagesLoop endPage migratetype n (page + 1) z pagesMoved
      else
        let order := (z.page page).priv
        moveFreepagesLoop endPage migratetype n (page + 1 <<< order)
          ((z.listDel page).listAdd order migratetype page) (pagesMoved + 1 <<< order)
    else (z, pagesMoved)

/-- `move_freepages`: the free blocks of the range go to the lists of the type. -/
def moveFreepages (z : Zone) (startPage endPage migratetype : ℕ) : Zone × ℕ :=
  moveFreepagesLoop c endPage migratetype (endPage + 1 - startPage) startPage z 0

/-- The free pages of the block of a page are moved to the lists of the type. -/
def moveFreepagesBlock (z : Zone) (page migratetype : ℕ) : Zone × ℕ :=
  -- `start_pfn & ~(pageblock_nr_pages - 1)`
  let startPfn := page / 2 ^ c.pageblockOrder * 2 ^ c.pageblockOrder
  let endPfn := startPfn + 2 ^ c.pageblockOrder - 1
  let startPage := if startPfn < c.zoneStartPfn then page else startPfn
  if c.zoneStartPfn + c.spannedPages ≤ endPfn then (z, 0)
  else moveFreepages c z startPage endPfn migratetype

/-- `set_pageblock_migratetype`. -/
def setPageblockMigratetype (z : Zone) (page migratetype : ℕ) : Zone :=
  let migratetype := if c.pageGroupByMobilityDisabled then migrateUnmovable else migratetype
  { z with pageblockFlags := Function.update z.pageblockFlags (c.pfnToBitidx page) migratetype }

/-- `get_pageblock_migratetype`. -/
def getPageblockMigratetype (z : Zone) (page : ℕ) : ℕ := z.pageblockFlags (c.pfnToBitidx page)

/-- `change_pageblock_range`. -/
def changePageblockRange (z : Zone) (pageblockPage startOrder migratetype : ℕ) : Zone :=
  (List.range (1 <<< (startOrder - c.pageblockOrder))).foldl
    (fun z i => setPageblockMigratetype c z (pageblockPage + i * 2 ^ c.pageblockOrder) migratetype) z

/-- The types that a type falls back to, `fallbacks`. The last column is not initialized. -/
def fallbacks (migratetype : ℕ) : List ℕ :=
  match migratetype with
  | 0 => [migrateReclaimable, migrateMovable, migrateReserve, 0]
  | 1 => [migrateUnmovable, migrateMovable, migrateReserve, 0]
  | 2 => [migrateReclaimable, migrateUnmovable, migrateReserve, 0]
  | 3 => [migrateReserve, migrateReserve, migrateReserve, 0]
  | _ => [0, 0, 0, 0]

/-- A block of the order `currentOrder` is taken off the lists of another type. -/
def rmqueueFrom (z : Zone) (order startMigratetype currentOrder migratetype page : ℕ) : Zone × ℕ :=
  let z := z.addNrFree currentOrder (-1)
  let (z, migratetype) :=
    if c.pageblockOrder >>> 1 ≤ currentOrder ∨ startMigratetype = migrateReclaimable ∨
        c.pageGroupByMobilityDisabled then
      let (z, pages) := moveFreepagesBlock c z page startMigratetype
      let z := if 1 <<< (c.pageblockOrder - 1) ≤ pages ∨ c.pageGroupByMobilityDisabled then
          setPageblockMigratetype c z page startMigratetype
        else z
      (z, startMigratetype)
    else (z, migratetype)
  let z := (z.listDel page).rmvPageOrder page
  let z := if c.pageblockOrder ≤ currentOrder then
      changePageblockRange c z page currentOrder startMigratetype
    else z
  (expand page order migratetype currentOrder z, page)

/-- `__rmqueue_fallback`. -/
def rmqueueFallback (z : Zone) (order startMigratetype : ℕ) : Option (Zone × ℕ) :=
  (List.range' order (c.maxOrder - order)).reverse.findSome? fun currentOrder =>
    (fallbacks startMigratetype).findSome? fun migratetype =>
      if migratetype = migrateReserve then none
      else match z.freeList currentOrder migratetype with
        | [] => none
        | page :: _ => some (rmqueueFrom c z order startMigratetype currentOrder migratetype page)

/-- `__rmqueue`. -/
def rmqueue (z : Zone) (order migratetype : ℕ) : Option (Zone × ℕ) :=
  match rmqueueSmallest c z order migratetype with
  | some r => some r
  | none =>
    if migratetype ≠ migrateReserve then
      match rmqueueFallback c z order migratetype with
      | some r => some r
      | none => rmqueueSmallest c z order migrateReserve
    else none

/-! ## Watermarks -/

/-- `n` iterations of the loop of `__zone_watermark_ok`, from the order `o` on. -/
def watermarkLoop (z : Zone) : ℕ → ℕ → ℤ → ℤ → Bool
  | 0, _, _, _ => true
  | n + 1, o, freePages, min =>
    let freePages := freePages - z.nrFree o * 2 ^ o
    let min := min / 2
    if freePages ≤ min then false else watermarkLoop z n (o + 1) freePages min

/-- `__zone_watermark_ok`, with the reserve of the zone for a class, and with or without `ALLOC_HIGH` and
    `ALLOC_HARDER`. -/
def zoneWatermarkOk (z : Zone) (order mark lowmemReserve : ℕ) (high harder : Bool) (freePages : ℤ) :
    Bool :=
  let min : ℤ := Int.bmod mark (2 ^ 32)
  let freePages := freePages - (2 ^ order + 1)
  let min := if high then min - min.tdiv 2 else min
  let min := if harder then min - min.tdiv 4 else min
  -- The reserve is an `unsigned long`, and so both sides are compared as such.
  if freePages % 2 ^ 32 ≤ (min + lowmemReserve) % 2 ^ 32 then false
  else watermarkLoop z order 0 freePages min

end Mcpq.Kernel.PageAlloc
