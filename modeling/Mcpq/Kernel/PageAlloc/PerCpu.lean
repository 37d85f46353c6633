import Mcpq.Kernel.PageAlloc.Zone

/-!
# The per-CPU lists of a zone

Single pages are allocated from lists of the CPU, and freed to them. An empty list is filled with a batch
of pages of the zone (`rmqueueBulk`), and when there are too many pages on the lists a batch of them is
freed, taken from the lists in turn (`freePcppagesBulk`).

The counter of the free pages is the one of the zone together with what is pending on the CPUs. What
`prep_new_page` and `free_pages_prepare` do to a page is left out, but for the field `private`: no page
is found to be bad.
-/

namespace Mcpq.Kernel.PageAlloc

/-- `struct per_cpu_pages`. -/
structure PerCpuPages where
  count : ℤ := 0
  high : ℕ
  batch : ℕ
  lists : ℕ → List ℕ := fun _ => []

/-- `setup_pageset`. -/
def setupPageset (batch : ℕ) : PerCpuPages where
  high := 6 * batch
  batch := max 1 batch

/-- A zone, with the pages that the CPUs have to themselves. -/
structure State where
  zone : Zone := {}
  /-- `zone->pageset` of a CPU. -/
  pageset : ℕ → PerCpuPages
  /-- `NR_FREE_PAGES`. -/
  nrFreePages : ℤ := 0

variable (c : Config)

/-- `setup_pagelist_highmark`. -/
def setupPagelistHighmark (pcp : PerCpuPages) (high : ℕ) : PerCpuPages :=
  { pcp with
    high
    batch := if c.pageShift * 8 < high / 4 then c.pageShift * 8 else max 1 (high / 4) }

/-- At most `n` iterations of the loop of `rmqueue_bulk`, after which the pages `pages` are taken. -/
def rmqueueBulkLoop (order migratetype : ℕ) : ℕ → Zone → List ℕ → Zone × List ℕ
  | 0, z, pages => (z, pages)
  | n + 1, z, pages =>
    match rmqueue c z order migratetype with
    | none => (z, pages)
    | some (z, page) =>
      rmqueueBulkLoop order migratetype n (z.setPagePrivate page migratetype) (pages ++ [page])

/-- Fill the list of a type with a batch of pages. -/
def rmqueueBulk (s : State) (cpu migratetype : ℕ) (cold : Bool) : State :=
  let pcp := s.pageset cpu
  let (z, pages) := rmqueueBulkLoop c 0 migratetype pcp.batch s.zone []
  -- Each page is added behind the one before, or in front of it.
  let list := if cold then pcp.lists migratetype ++ pages.reverse else pages ++ pcp.lists migratetype
  let pcp := { pcp with
    count := pcp.count + pages.length
    lists := Function.update pcp.lists migratetype list }
  { zone := z
    pageset := Function.update s.pageset cpu pcp
    nrFreePages := s.nrFreePages - pages.length }

/-- The variables of `free_pcppages_bulk`. -/
structure BulkFree where
  zone : Zone
  lists : ℕ → List ℕ
  migratetype : ℕ := 0
  batchFree : ℕ := 0

/-- The next list that is not empty, in turn, and the number of pages to take from it. -/
def nextList (lists : ℕ → List ℕ) : ℕ → ℕ → ℕ → Option (ℕ × ℕ)
  | 0, _, _ => none
  | n + 1, migratetype, batchFree =>
    let migratetype := if migratetype + 1 = migratePcptypes then 0 else migratetype + 1
    if lists migratetype = [] then nextList lists n migratetype (batchFree + 1)
    else some (migratetype, batchFree + 1)

/-- Free `n` pages. The flag tells whether to go on with the same list. The loop does not end if all
    lists are empty. -/
def bulkLoop : ℕ → BulkFree → Bool → Option BulkFree
  | 0, s, _ => some s
  | n + 1, s, again =>
    let next := if again then some (s.migratetype, s.batchFree)
      else nextList s.lists migratePcptypes s.migratetype s.batchFree
    match next with
    | none => none
    | some (migratetype, batchFree) =>
      match (s.lists migratetype).getLast? with
      | none => none
      | some page =>
        let list := (s.lists migratetype).dropLast
        bulkLoop n
          { zone := freeOnePage c s.zone page 0 (s.zone.page page).priv
            lists := Function.update s.lists migratetype list
            migratetype
            batchFree := batchFree - 1 }
          (batchFree - 1 ≠ 0 && list ≠ [])

/-- `free_pcppages_bulk`. The callers take the pages off the counter of the lists. -/
def freePcppagesBulk (s : State) (cpu count : ℕ) : Option State :=
  let pcp := s.pageset cpu
  (bulkLoop c count { zone := s.zone, lists := pcp.lists } false).map fun b =>
    { zone := b.zone
      pageset := Function.update s.pageset cpu
        { pcp with lists := b.lists, count := pcp.count - count }
      nrFreePages := s.nrFreePages + count }

/-- `free_one_page`. -/
def freePage (s : State) (page order migratetype : ℕ) : State :=
  { s with
    zone := freeOnePage c s.zone page order migratetype
    nrFreePages := s.nrFreePages + 2 ^ order }

/-- `free_hot_cold_page`, on a CPU. -/
def freeHotColdPage (s : State) (cpu page : ℕ) (cold : Bool) : Option State :=
  let migratetype := getPageblockMigratetype c s.zone page
  let s := { s with zone := s.zone.setPagePrivate page migratetype }
  if migratetype = migrateIsolate then some (freePage c s page 0 migratetype)
  else
    let migratetype := if migratePcptypes ≤ migratetype then migrateMovable else migratetype
    let pcp := s.pageset cpu
    let list := if cold then pcp.lists migratetype ++ [page] else page :: pcp.lists migratetype
    let pcp := { pcp with
      lists := Function.update pcp.lists migratetype list
      count := pcp.count + 1 }
    let s := { s with pageset := Function.update s.pageset cpu pcp }
    if (pcp.high : ℤ) ≤ pcp.count then freePcppagesBulk c s cpu pcp.batch else some s

/-- `__free_pages`, when the last reference to the block is put. -/
def freePages (s : State) (cpu page order : ℕ) : Option State :=
  if order = 0 then freeHotColdPage c s cpu page false
  else some (freePage c s page order (getPageblockMigratetype c s.zone page))

/-- A page is taken off the list of a type, the first one or, if `cold`, the last one. -/
def takePage (s : State) (cpu migratetype : ℕ) (cold : Bool) : State × Option ℕ :=
  let pcp := s.pageset cpu
  let list := pcp.lists migratetype
  match if cold then list.getLast? else list.head? with
  | none => (s, none)
  | some page =>
    let pcp := { pcp with
      lists := Function.update pcp.lists migratetype (list.erase page)
      count := pcp.count - 1 }
    ({ s with
      zone := s.zone.setPagePrivate page 0
      pageset := Function.update s.pageset cpu pcp }, some page)

/-- `buffered_rmqueue`, on a CPU. -/
def bufferedRmqueue (s : State) (cpu order migratetype : ℕ) (cold : Bool) : State × Option ℕ :=
  if order = 0 then
    takePage (if (s.pageset cpu).lists migratetype = [] then rmqueueBulk c s cpu migratetype cold
      else s) cpu migratetype cold
  else
    match rmqueue c s.zone order migratetype with
    | none => (s, none)
    | some (z, page) =>
      ({ s with zone := z.setPagePrivate page 0, nrFreePages := s.nrFreePages - 2 ^ order }, some page)

/-- `drain_pages`, of the zone. -/
def drainPages (s : State) (cpu : ℕ) : Option State :=
  if (s.pageset cpu).count ≠ 0 then freePcppagesBulk c s cpu (s.pageset cpu).count.toNat else some s

/-- `drain_all_pages`, one CPU after the other. -/
def drainAllPages (s : State) (cpus : ℕ) : Option State := (List.range cpus).foldlM (drainPages c) s

/-- `drain_zone_pages`. -/
def drainZonePages (s : State) (cpu : ℕ) : Option State :=
  let pcp := s.pageset cpu
  let toDrain := if (pcp.batch : ℤ) ≤ pcp.count then pcp.batch else pcp.count.toNat
  freePcppagesBulk c s cpu toDrain

/-- The type of a page block is set, and its free pages are moved to the lists of the type, by
    `setup_zone_migrate_reserve`. -/
def retypeBlock (s : State) (page migratetype : ℕ) : State :=
  { s with zone :=
      (moveFreepagesBlock c (setPageblockMigratetype c s.zone page migratetype) page migratetype).1 }

end Mcpq.Kernel.PageAlloc
