import Mcpq.Kernel.Shrink
import Mcpq.Lib.Pool

/-!
# The life of a page on the LRU lists

The functions of `swap.c`, `vmscan.c` and `mhint.c` that put pages on the LRU lists, take them off, and
give back references to them, as instructions of concurrent threads. The lock of the LRU lists is taken
for each page: a step of a thread is what it does to one page while it has the lock, or an access of
`_count` or of `PG_lru` without it. So the threads interleave at least as finely as they do when the lock
is kept from one page to the next. The pages are of order 0, and reclaim is global and not lumpy.

The pages in the pagevecs of a CPU are used by one thread at a time, since preemption is disabled: the
thread that empties one takes the pages at once. The lists of pages that reclaim works on are given in the
order in which it takes them.
-/

namespace Mcpq.Kernel.LruCache

/-- A zone. -/
abbrev ZoneRef := ℕ

/-- Where a page may wait: on `zone->lru[l].list`, or in `lru_add_pvecs[l]` of a CPU. -/
inductive Place (C : Type*)
  | lru (zone : ZoneRef) (l : ℕ)
  | pvec (cpu : C) (l : ℕ)
  deriving DecidableEq

/-- The zones of the pages, and `PAGEVEC_SIZE`. -/
structure Machine where
  zone : PageRef → ZoneRef
  pagevecSize : ℕ

/-- What the threads share. References are also held by the page cache (`cached`) and by `users`. A page
    that is `free` is with the page allocator. One that is `off` has been allocated and is not on an LRU
    list, nor is any thread about to put it there: it has not been given to the lists yet, or
    `shrink_page_list` has left it to the user that still has a reference. -/
structure Cache (C : Type*) where
  page : PageRef → Page
  list : Place C → List PageRef
  rotatePvec : C → List PageRef
  users : PageRef → ℕ
  cached : PageRef → Bool
  free : PageRef → Bool
  off : PageRef → Bool

/-- The flags of a page that say which LRU list it is on. -/
structure LruFlags where
  lru : Bool
  active : Bool
  unevictable : Bool
  file : Bool
  deriving DecidableEq

/-- The flags of a page that tell the list it is on. -/
def lruFlags (x : Page) : LruFlags :=
  ⟨x.testBit .lru, x.testBit .active, x.testBit .unevictable, x.isFileCache⟩

/-- All pages are with the page allocator. -/
def Cache.empty {C : Type*} : Cache C :=
  ⟨fun _ => {}, fun _ => [], fun _ => [], fun _ => 0, fun _ => false, fun _ => true, fun _ => false⟩

/-- What becomes of a page in `shrink_page_list`. -/
inductive Fate
  /-- `trylock_page` fails. -/
  | locked
  | keep
  | activate
  /-- The page is not evictable. -/
  | cull
  /-- The buffers of a page without a mapping have been released. -/
  | release
  /-- The page is to be removed from its mapping. -/
  | remove
  deriving DecidableEq, Repr

/-- What a thread finds when it takes a step: its CPU, whether the mapping of the page is unevictable,
    what becomes of the page in `shrink_page_list`, whether it is dirty, and whether it is referenced and
    executable. -/
structure Choice (C : Type*) where
  cpu : C
  mappingUnevictable : Bool := false
  fate : Fate := .keep
  dirty : Bool := false
  executable : Bool := false

/-- `page_evictable`. -/
def pageEvictable {C : Type*} (x : Page) (ch : Choice C) : Bool :=
  !ch.mappingUnevictable && !x.testBit .mlocked

/-- What `isolate_lru_page` is called for: to put the page back after some time, or from
    `putback_lru_page`. -/
inductive After
  | migrate
  | redo (active : Bool)
  deriving DecidableEq

/-- Who has called `lru_cache_add_lru`: `putback_lru_page`, which drops its reference then, or a user. -/
inductive Caller
  | putback
  | user
  deriving DecidableEq

/-- The functions, cut where another thread can be seen: a function that has not ended is the list of
    the instructions that are left. -/
inductive Instr (C : Type*)
  | putPage (p : PageRef)
  /-- `__page_cache_release`, before `PG_lru` is read and after. -/
  | pageCacheRelease (p : PageRef)
  | pageCacheReleaseLocked (p : PageRef)
  /-- The pages are freed. Of `free_pages_check` only what concerns `_count` and the LRU flags is checked. -/
  | freePages (ps : List PageRef)
  /-- The loop of `release_pages`, with `pages_to_free`. -/
  | releasePages (todo toFree : List PageRef)
  | releaseLru (p : PageRef) (todo toFree : List PageRef)
  | releaseLocked (p : PageRef) (todo toFree : List PageRef)
  | lruCacheAddLru (p : PageRef) (lru : ℕ) (caller : Caller)
  /-- The loop of `____pagevec_lru_add`. -/
  | pagevecLruAdd (todo done : List PageRef) (lru : ℕ)
  /-- `drain_cpu_pagevecs`. -/
  | lruAddDrain
  | drainAdd (cpu : C) (lru : ℕ)
  | drainRotate (cpu : C)
  /-- The loop of `pagevec_move_tail`. -/
  | pagevecMoveTail (todo done : List PageRef)
  | rotateReclaimablePage (p : PageRef)
  | activatePage (p : PageRef)
  /-- `isolate_lru_page`, without the lock and with it. -/
  | isolateLruPage (p : PageRef) (after : After)
  | isolateLruPageLocked (p : PageRef) (after : After)
  /-- The reference to the page is with its user again. -/
  | returnRef (p : PageRef)
  | putbackLruPage (p : PageRef)
  /-- `putback_lru_page` from `redo` on. -/
  | putbackRedo (p : PageRef) (active : Bool)
  | addPageToUnevictableList (p : PageRef) (active : Bool)
  | putbackRecheck (p : PageRef) (active : Bool)
  /-- The loop of `isolate_lru_pages`. -/
  | isolatePages (zone : ZoneRef) (nr : ℕ) (active file : Bool) (dst : List PageRef)
  | updateIsolatedCounts (zone : ZoneRef) (pages : List PageRef)
  /-- The loop of `shrink_page_list`, with `ret_pages` and `free_pages`. -/
  | shrinkPageList (zone : ZoneRef) (todo ret toFree : List PageRef)
  | releaseBuffers (zone : ZoneRef) (p : PageRef) (todo ret toFree : List PageRef)
  | removeMapping (zone : ZoneRef) (p : PageRef) (todo ret toFree : List PageRef)
  /-- The loop of `putback_lru_pages`. -/
  | putbackLruPages (zone : ZoneRef) (todo pvec : List PageRef)
  /-- The loop of `shrink_active_list`, with `l_active` and `l_inactive`. -/
  | shrinkActiveList (zone : ZoneRef) (file : Bool) (hold active inactive : List PageRef)
  /-- The loop of `move_active_pages_to_lru`. -/
  | moveActivePagesToLru (zone : ZoneRef) (list : List PageRef) (lru : ℕ) (pvec : List PageRef)
  /-- `__hate_page`, without the lock and with it. -/
  | hatePage (p : PageRef)
  | hatePageLocked (p : PageRef)
  /-- `check_move_unevictable_page`, if the page is on the LRU lists and unevictable. -/
  | checkMoveUnevictablePage (p : PageRef)

/-- What `del_page_from_lru` does to the flags. -/
def clearListFlag (x : Page) : Page :=
  if x.testBit .unevictable then x.clearBit .unevictable
  else if x.testBit .active then x.clearBit .active
  else x

variable {C : Type*} [DecidableEq C]

namespace Cache

variable (m : Machine) (s : Cache C) (p : PageRef) (z : ZoneRef) (l : ℕ)

def modifyPage (f : Page → Page) : Cache C :=
  { s with page := Function.update s.page p (f (s.page p)) }

/-- `atomic_add` to `_count`. -/
def addCount (n : ℤ) : Cache C := s.modifyPage p fun x => { x with count := x.count + n }

def setList (k : Place C) (ps : List PageRef) : Cache C :=
  { s with list := Function.update s.list k ps }

/-- The page is on an LRU list of the zone. -/
def onLru : Bool := (List.range nrLruLists).any fun l => decide (p ∈ s.list (.lru z l))

/-- `list_del(&page->lru)`, of a page on an LRU list of the zone. -/
def listDel : Result (Cache C) :=
  if s.onLru p z then
    .ok { s with
      list := fun k =>
        match k with
        | .lru z' l => if z' = z then (s.list (.lru z' l)).erase p else s.list (.lru z' l)
        | k => s.list k }
  else .error .corruptList

/-- `add_page_to_lru_list`. -/
def addPageToLruList : Cache C := s.setList (.lru z l) (p :: s.list (.lru z l))

/-- `del_page_from_lru`: the flag of the list is cleared. -/
def delPageFromLru : Result (Cache C) := do
  let s ← s.listDel p z
  pure (s.modifyPage p clearListFlag)

def setOff (b : Bool) : Cache C := { s with off := Function.update s.off p b }

def setFree (b : Bool) : Cache C := { s with free := Function.update s.free p b }

def setCached (b : Bool) : Cache C := { s with cached := Function.update s.cached p b }

def setUsers (n : ℕ) : Cache C := { s with users := Function.update s.users p n }

def setRotatePvec (cpu : C) (ps : List PageRef) : Cache C :=
  { s with rotatePvec := Function.update s.rotatePvec cpu ps }

end Cache

/-- What is left to do when the page has been isolated. -/
def After.done (p : PageRef) : After → List (Instr C)
  | migrate => [.putbackLruPage p, .returnRef p]
  | redo active => [.putPage p, .putbackRedo p active]

/-- What is left to do when it could not be. -/
def After.fail (p : PageRef) : After → List (Instr C)
  | migrate => [.returnRef p]
  | redo _ => [.putPage p]

/-- What is left to do when the page has been put in a pagevec. -/
def Caller.done (p : PageRef) : Caller → List (Instr C)
  | putback => [.putPage p]
  | user => [.returnRef p]

/-- The end of an iteration of `release_pages`: the page is added to `pages_to_free`. -/
def Machine.pagesToFree (m : Machine) (p : PageRef) (todo toFree : List PageRef) : List (Instr C) :=
  if m.pagevecSize ≤ toFree.length + 1 then [.freePages (p :: toFree), .releasePages todo []]
  else [.releasePages todo (p :: toFree)]

/-- The end of an iteration of `shrink_page_list` that keeps the page. -/
def keepPage (s : Cache C) (z : ZoneRef) (p : PageRef) (todo ret toFree : List PageRef) :
    Result (Cache C × List (Instr C)) :=
  if (s.page p).testBit .lru || (s.page p).testBit .unevictable then .error .bug
  else .ok (s, [.shrinkPageList z todo (ret ++ [p]) toFree])

/-- An instruction, with those that replace it. -/
def exec (m : Machine) (ch : Choice C) (s : Cache C) : Instr C → Result (Cache C × List (Instr C))
  | .putPage p =>
    let s := s.addCount p (-1)
    .ok (s, if (s.page p).count = 0 then [.pageCacheRelease p] else [])
  | .pageCacheRelease p =>
    if (s.page p).testBit .lru then .ok (s, [.pageCacheReleaseLocked p])
    else .ok (s.setOff p false, [.freePages [p]])
  | .pageCacheReleaseLocked p =>
    if !(s.page p).testBit .lru then .error .bug
    else do
      let s ← (s.modifyPage p (·.clearBit .lru)).delPageFromLru p (m.zone p)
      pure (s, [.freePages [p]])
  | .freePages [] => .ok (s, [])
  | .freePages (p :: ps) =>
    let x := s.page p
    -- `free_pages_check`
    if decide (x.count ≠ 0) || x.testBit .lru || x.testBit .active || x.testBit .unevictable then
      .error .bug
    else
      let s := s.modifyPage p fun x => { x with flags := fun _ => false, chain := none }
      .ok (s.setFree p true, [.freePages ps])
  | .releasePages [] toFree => .ok (s, [.freePages toFree])
  | .releasePages (p :: todo) toFree =>
    let s := s.addCount p (-1)
    .ok (s, [if (s.page p).count = 0 then .releaseLru p todo toFree else .releasePages todo toFree])
  | .releaseLru p todo toFree =>
    if (s.page p).testBit .lru then .ok (s, [.releaseLocked p todo toFree])
    else .ok (s.setOff p false, m.pagesToFree p todo toFree)
  | .releaseLocked p todo toFree =>
    if !(s.page p).testBit .lru then .error .bug
    else do
      let s ← (s.modifyPage p (·.clearBit .lru)).delPageFromLru p (m.zone p)
      pure (s, m.pagesToFree p todo toFree)
  | .lruCacheAddLru p lru caller => do
    let x := s.page p
    let s ← (if x.testBit .active then
        if x.testBit .unevictable then .error .bug else .ok (s.modifyPage p (·.clearBit .active))
      else if x.testBit .unevictable then .ok (s.modifyPage p (·.clearBit .unevictable))
      else .ok s)
    let x := s.page p
    if x.testBit .lru || x.testBit .active || x.testBit .unevictable then .error .bug
    else
      -- `__lru_cache_add`
      let s := s.addCount p 1
      let pvec := s.list (.pvec ch.cpu lru) ++ [p]
      if m.pagevecSize ≤ pvec.length then
        pure (s.setList (.pvec ch.cpu lru) [], .pagevecLruAdd pvec [] lru :: caller.done p)
      else pure (s.setList (.pvec ch.cpu lru) pvec, caller.done p)
  | .pagevecLruAdd [] done _ => .ok (s, [.releasePages done []])
  | .pagevecLruAdd (p :: todo) done lru =>
    let x := s.page p
    if decide (lru = lruUnevictable) || x.testBit .active || x.testBit .unevictable ||
        x.testBit .lru then .error .bug
    else
      let s := s.modifyPage p (·.setBit .lru)
      let s := if isActiveLru lru then s.modifyPage p (·.setBit .active) else s
      .ok (s.addPageToLruList p (m.zone p) lru, [.pagevecLruAdd todo (done ++ [p]) lru])
  | .lruAddDrain =>
    .ok (s, (List.range nrLruLists).map (.drainAdd ch.cpu) ++ [.drainRotate ch.cpu])
  | .drainAdd cpu lru =>
    let pvec := s.list (.pvec cpu lru)
    if pvec ≠ [] then .ok (s.setList (.pvec cpu lru) [], [.pagevecLruAdd pvec [] lru])
    else .ok (s, [])
  | .drainRotate cpu =>
    let pvec := s.rotatePvec cpu
    if pvec ≠ [] then .ok (s.setRotatePvec cpu [], [.pagevecMoveTail pvec []]) else .ok (s, [])
  | .pagevecMoveTail [] done => .ok (s, [.releasePages done []])
  | .pagevecMoveTail (p :: todo) done =>
    let x := s.page p
    if x.testBit .lru && !x.testBit .active && !x.testBit .unevictable then do
      let lru := x.lruBaseType
      let s ← s.listDel p (m.zone p)
      -- `list_move_tail`
      pure (s.setList (.lru (m.zone p) lru) (s.list (.lru (m.zone p) lru) ++ [p]),
        [.pagevecMoveTail todo (done ++ [p])])
    else .ok (s, [.pagevecMoveTail todo (done ++ [p])])
  | .rotateReclaimablePage p =>
    let x := s.page p
    if !x.testBit .locked && !x.testBit .dirty && !x.testBit .active && !x.testBit .unevictable &&
        x.testBit .lru then
      let s := s.addCount p 1
      let pvec := s.rotatePvec ch.cpu ++ [p]
      if m.pagevecSize ≤ pvec.length then
        .ok (s.setRotatePvec ch.cpu [], [.pagevecMoveTail pvec [], .returnRef p])
      else .ok (s.setRotatePvec ch.cpu pvec, [.returnRef p])
    else .ok (s, [.returnRef p])
  | .activatePage p =>
    let x := s.page p
    if x.testBit .lru && !x.testBit .active && !x.testBit .unevictable then do
      let lru := x.lruBaseType
      let s ← s.listDel p (m.zone p)
      let s := s.modifyPage p (·.setBit .active)
      pure (s.addPageToLruList p (m.zone p) (lru + lruActive), [.returnRef p])
    else .ok (s, [.returnRef p])
  | .isolateLruPage p after =>
    .ok (s, if (s.page p).testBit .lru then [.isolateLruPageLocked p after] else after.fail p)
  | .isolateLruPageLocked p after =>
    let x := s.page p
    -- `get_page_unless_zero`
    if x.testBit .lru && decide (x.count ≠ 0) then do
      let s := (s.addCount p 1).modifyPage p (·.clearBit .lru)
      let s ← s.listDel p (m.zone p)
      pure (s, after.done p)
    else .ok (s, after.fail p)
  | .returnRef p => .ok (s.setUsers p (s.users p + 1), [])
  | .putbackLruPage p =>
    let active := (s.page p).testBit .active
    let s := s.modifyPage p (·.clearBit .active)
    if (s.page p).testBit .lru then .error .bug else .ok (s, [.putbackRedo p active])
  | .putbackRedo p active =>
    let s := s.modifyPage p (·.clearBit .unevictable)
    if pageEvictable (s.page p) ch then
      let lru := (if active then lruActive else lruBase) + (s.page p).lruBaseType
      .ok (s, [.lruCacheAddLru p lru .putback])
    else .ok (s, [.addPageToUnevictableList p active])
  | .addPageToUnevictableList p active =>
    let s := (s.modifyPage p (·.setBit .unevictable)).modifyPage p (·.setBit .lru)
    .ok (s.addPageToLruList p (m.zone p) lruUnevictable, [.putbackRecheck p active])
  | .putbackRecheck p active =>
    .ok (s, if pageEvictable (s.page p) ch then [.isolateLruPage p (.redo active)] else [.putPage p])
  | .isolatePages z nr active file dst =>
    let lru := Reclaim.isolatedList active file
    let mode := if active then IsolateMode.active else .inactive
    match nr, (s.list (.lru z lru)).getLast? with
    | nr + 1, some p =>
      if !(s.page p).testBit .lru then .error .bug
      else
        let r := (s.page p).isolateLruPage mode file
        let src := (s.list (.lru z lru)).erase p
        if r.2 = 0 then
          .ok ((s.modifyPage p fun _ => r.1).setList (.lru z lru) src,
            [.isolatePages z nr active file (dst ++ [p])])
        else if r.2 = -Mm.ebusy then
          .ok (s.setList (.lru z lru) (p :: src), [.isolatePages z nr active file dst])
        else .error .bug
    | _, _ =>
      .ok (s, if active then [.shrinkActiveList z file dst [] []]
        else if dst = [] then []
        else [.updateIsolatedCounts z dst])
  | .updateIsolatedCounts z pages =>
    -- `clear_active_flags`
    .ok ({ s with page := fun p => if p ∈ pages then (s.page p).clearBit .active else s.page p },
      [.shrinkPageList z pages [] []])
  | .shrinkPageList z [] ret toFree => .ok (s, [.freePages toFree, .putbackLruPages z ret []])
  | .shrinkPageList z (p :: todo) ret toFree =>
    if ch.fate = .locked then keepPage s z p todo ret toFree
    else if (s.page p).testBit .active || decide (m.zone p ≠ z) then .error .bug
    else match ch.fate with
      | .activate => keepPage (s.modifyPage p (·.setBit .active)) z p todo ret toFree
      | .cull => .ok (s, [.putbackLruPage p, .shrinkPageList z todo ret toFree])
      | .release =>
        if !s.cached p && decide ((s.page p).count = 1) then
          .ok (s, [.releaseBuffers z p todo ret toFree])
        else keepPage s z p todo ret toFree
      | .remove =>
        -- `page_freeze_refs`
        if s.cached p && decide ((s.page p).count = 2) then
          .ok (s.addCount p (-2), [.removeMapping z p todo ret toFree])
        else keepPage s z p todo ret toFree
      | _ => keepPage s z p todo ret toFree
  | .releaseBuffers z p todo ret toFree =>
    let s := s.addCount p (-1)
    if (s.page p).count = 0 then .ok (s, [.shrinkPageList z todo ret (p :: toFree)])
    -- The page is left off the lists.
    else .ok (s.setOff p true, [.shrinkPageList z todo ret toFree])
  | .removeMapping z p todo ret toFree =>
    if ch.dirty then keepPage (s.addCount p 2) z p todo ret toFree
    else .ok (s.setCached p false, [.shrinkPageList z todo ret (p :: toFree)])
  | .putbackLruPages _ [] pvec =>
    .ok (s, if pvec = [] then [] else [.lruAddDrain, .releasePages pvec []])
  | .putbackLruPages z (p :: todo) pvec =>
    if (s.page p).testBit .lru then .error .bug
    else if !pageEvictable (s.page p) ch then
      .ok (s, [.putbackLruPage p, .putbackLruPages z todo pvec])
    else
      let s := s.modifyPage p (·.setBit .lru)
      let s := s.addPageToLruList p z (s.page p).lruList
      let pvec := pvec ++ [p]
      .ok (s, if m.pagevecSize ≤ pvec.length then
          [.lruAddDrain, .releasePages pvec [], .putbackLruPages z todo []]
        else [.putbackLruPages z todo pvec])
  | .shrinkActiveList z file [] active inactive =>
    let l := if file then lruFile else lruBase
    .ok (s, [.moveActivePagesToLru z active (lruActive + l) [],
      .moveActivePagesToLru z inactive (lruBase + l) []])
  | .shrinkActiveList z file (p :: hold) active inactive =>
    if !pageEvictable (s.page p) ch then
      .ok (s, [.putbackLruPage p, .shrinkActiveList z file hold active inactive])
    else if ch.executable && (s.page p).isFileCache then
      .ok (s, [.shrinkActiveList z file hold (active ++ [p]) inactive])
    else
      .ok (s.modifyPage p (·.clearBit .active),
        [.shrinkActiveList z file hold active (inactive ++ [p])])
  | .moveActivePagesToLru _ [] _ _ => .ok (s, [])
  | .moveActivePagesToLru z (p :: list) lru pvec =>
    if (s.page p).testBit .lru then .error .bug
    else
      let s := s.modifyPage p (·.setBit .lru)
      let s := s.addPageToLruList p z lru
      let pvec := pvec ++ [p]
      .ok (s, if decide (m.pagevecSize ≤ pvec.length) || decide (list = []) then
          [.lruAddDrain, .releasePages pvec [], .moveActivePagesToLru z list lru []]
        else [.moveActivePagesToLru z list lru pvec])
  | .hatePage p => .ok (s, if (s.page p).testBit .lru then [.hatePageLocked p] else [])
  | .hatePageLocked p => do
    let lru := (s.page p).lruBaseType
    let s ← s.delPageFromLru p (m.zone p)
    let s := s.modifyPage p (·.clearBit .active)
    let s := s.modifyPage p (·.clearBit .referenced)
    pure (s.addPageToLruList p (m.zone p) lru, [])
  | .checkMoveUnevictablePage p =>
    let x := s.page p
    if x.testBit .lru && x.testBit .unevictable then
      if x.testBit .active then .error .bug
      else do
        let s ← s.listDel p (m.zone p)
        -- The retries leave nothing behind.
        if pageEvictable x ch then
          let s := s.modifyPage p (·.clearBit .unevictable)
          pure (s.addPageToLruList p (m.zone p) (s.page p).lruBaseType, [])
        else pure (s.addPageToLruList p (m.zone p) lruUnevictable, [])
    else .ok (s, [])

/-- What is called: what the users of pages do (the first five), and the functions of this file. -/
inductive Call
  | prepNewPage (p : PageRef)
  | getPageUnlessZero (p : PageRef)
  | addToPageCache (p : PageRef)
  /-- The other flags of a page change, or its chain. -/
  | modifyPage (p : PageRef) (x : Page)
  | setPageSwapBacked (p : PageRef) (b : Bool)
  | putPage (p : PageRef)
  | removeFromPageCache (p : PageRef)
  | releasePages (ps : List PageRef)
  | lruCacheAddLru (p : PageRef) (lru : ℕ)
  | lruAddDrain
  | rotateReclaimablePage (p : PageRef)
  | activatePage (p : PageRef)
  | isolateLruPage (p : PageRef)
  | shrinkInactiveList (z : ZoneRef) (nr : ℕ) (file : Bool)
  | shrinkActiveList (z : ZoneRef) (nr : ℕ) (file : Bool)
  | hatePage (p : PageRef)
  | checkMoveUnevictablePage (p : PageRef)

/-- A user gives its reference to the function that it calls. -/
def borrow (s : Cache C) (p : PageRef) (prog : List (Instr C)) :
    Option (Cache C × List (Instr C)) :=
  if 0 < s.users p then some (s.setUsers p (s.users p - 1), prog) else none

/-- A call by a thread, if it may be made in the state, with the instructions it consists of. -/
def call (a : Call) (s : Cache C) : Option (Cache C × List (Instr C)) :=
  match a with
  | .prepNewPage p =>
    if s.free p then
      some ((((s.addCount p 1).setFree p false).setOff p true).setUsers p 1, [])
    else none
  | .getPageUnlessZero p =>
    if (s.page p).count ≠ 0 then some ((s.addCount p 1).setUsers p (s.users p + 1), []) else none
  | .addToPageCache p =>
    if 0 < s.users p ∧ s.cached p = false then some ((s.addCount p 1).setCached p true, [])
    else none
  | .modifyPage p x =>
    if x.count = (s.page p).count ∧ lruFlags x = lruFlags (s.page p) then
      some (s.modifyPage p fun _ => x, [])
    else none
  | .setPageSwapBacked p b =>
    if s.off p then
      some (s.modifyPage p fun x => if b then x.setBit .swapbacked else x.clearBit .swapbacked, [])
    else none
  | .putPage p => borrow s p [.putPage p]
  | .removeFromPageCache p =>
    if 0 < s.users p ∧ s.cached p = true then some (s.setCached p false, [.putPage p]) else none
  | .releasePages ps =>
    if ∀ p ∈ ps, ps.count p ≤ s.users p then
      some ({ s with users := fun p => s.users p - ps.count p }, [.releasePages ps []])
    else none
  | .lruCacheAddLru p lru =>
    if s.off p ∧ lru < lruUnevictable ∧ isFileLru lru = (s.page p).isFileCache then
      borrow (s.setOff p false) p [.lruCacheAddLru p lru .user]
    else none
  | .lruAddDrain => some (s, [.lruAddDrain])
  | .rotateReclaimablePage p => borrow s p [.rotateReclaimablePage p]
  | .activatePage p => borrow s p [.activatePage p]
  | .isolateLruPage p => borrow s p [.isolateLruPage p .migrate]
  | .shrinkInactiveList z nr file => some (s, [.lruAddDrain, .isolatePages z nr false file []])
  | .shrinkActiveList z nr file => some (s, [.lruAddDrain, .isolatePages z nr true file []])
  | .hatePage p => some (s, [.hatePage p])
  | .checkMoveUnevictablePage p => some (s, [.checkMoveUnevictablePage p])

/-- Threads on the CPUs `C` use the LRU lists. -/
def lruCache (C : Type*) [DecidableEq C] (m : Machine) :
    Transition (Pool (Cache C) (Instr C)) (Pool.Label Call (Choice C)) :=
  Pool.system (· = Cache.empty) call (exec m)

end Mcpq.Kernel.LruCache
