import Mcpq.Kernel.Isolation
import Mcpq.Kernel.LruLists

/-!
# Shrinking an LRU list

Global reclaim of order 0 (`vmscan.c`), up to the pages that it isolates: what is done with them once
the lock of the lists is released is not part of the model, and neither are memory control groups. Two
digits of the index of a list are given to the functions that shrink it; the third, `LRU_LINKED`, is
lost on the way (`isolatedList_eq`). So the list of the pages that are not linked is scanned in place
of the list of those that are: the right list is shrunk if and only if it is not a list of linked
pages, or nothing is isolated (`shrinkList_iff`), and a linked page is never isolated
(`shrinkList_unlinked`).
-/

namespace Mcpq.Kernel

/-- `LRU_ACTIVE_LINKED_FILE`. -/
def lruActiveLinkedFile : ℕ := lruBase + lruFile + lruActive + lruLinked
/-- `LRU_INACTIVE_LINKED_ANON`. -/
def lruInactiveLinkedAnon : ℕ := lruBase + lruLinked
/-- `LRU_ACTIVE_LINKED_ANON`. -/
def lruActiveLinkedAnon : ℕ := lruBase + lruActive + lruLinked
/-- `LRU_INACTIVE_LINKED_FILE`. -/
def lruInactiveLinkedFile : ℕ := lruBase + lruFile + lruLinked

/-- `is_file_lru`. -/
def isFileLru (l : ℕ) : Bool := decide (lruInactiveFile ≤ l) && decide (l ≤ lruActiveLinkedFile)

/-- `is_active_lru`. -/
def isActiveLru (l : ℕ) : Bool :=
  decide (l = lruActiveAnon) || decide (l = lruActiveFile) || decide (l = lruActiveLinkedAnon) ||
    decide (l = lruActiveLinkedFile)

/-- `is_linked_lru`. -/
def isLinkedLru (l : ℕ) : Bool :=
  decide (l = lruInactiveLinkedAnon) || decide (l = lruActiveLinkedAnon) ||
    decide (l = lruInactiveLinkedFile) || decide (l = lruActiveLinkedFile)

/-- The modes `ISOLATE_INACTIVE`, `ISOLATE_ACTIVE` and `ISOLATE_BOTH`. -/
inductive IsolateMode
  | inactive
  | active
  | both
  deriving DecidableEq, Repr

/-- `EINVAL`. -/
def einval : ℤ := 22

/-- `__isolate_lru_page`, with the value returned. -/
def Page.isolateLruPage (x : Page) (mode : IsolateMode) (file : Bool) : Page × ℤ :=
  if x.testBit .lru = false then (x, -einval)
  else if mode ≠ .both ∧ x.testBit .active ≠ decide (mode ≠ .inactive) then (x, -einval)
  else if mode ≠ .both ∧ x.isFileCache ≠ file then (x, -einval)
  else if x.testBit .unevictable then (x, -einval)
  -- `get_page_unless_zero`
  else if x.count ≠ 0 then (Page.clearBit { x with count := x.count + 1 } .lru, 0)
  else (x, -Mm.ebusy)

/-- The state of the loop of `isolate_lru_pages`. -/
structure Isolation where
  page : PageRef → Page
  src : List PageRef
  dst : List PageRef := []
  scan : ℕ := 0
  nrTaken : ℕ := 0

namespace Isolation

/-- An iteration of the loop: `p` is the page at the tail of the source. -/
def isolate (mode : IsolateMode) (file : Bool) (p : PageRef) (x : Isolation) : Result Isolation :=
  let r := (x.page p).isolateLruPage mode file
  if r.2 = 0 then
    .ok { page := Function.update x.page p r.1
          src := x.src.erase p
          dst := p :: x.dst
          scan := x.scan + 1
          nrTaken := x.nrTaken + 1 }
  else if r.2 = -Mm.ebusy then
    -- The page is being freed elsewhere.
    .ok { x with src := p :: x.src.erase p, scan := x.scan + 1 }
  else .error .bug

/-- `isolate_lru_pages`, for the order 0. -/
def isolateLruPages (mode : IsolateMode) (file : Bool) : ℕ → Isolation → Result Isolation
  | 0, x => .ok x
  | nr + 1, x =>
    match x.src.getLast? with
    | none => .ok x
    | some p => do
      let x ← x.isolate mode file p
      isolateLruPages mode file nr x

end Isolation

/-- What reclaim reads besides the zone: `killed` says that the wait while too many pages are isolated
    ends with a signal, and `lruAddDrain` what has become of the zone when its lock is taken, after this
    wait and `lru_add_drain`. The value of a counter is `zonePageState`. -/
structure ScanControl where
  isKswapd : Bool := false
  killed : Bool := false
  totalSwapPages : ℤ := 0
  inactiveRatio : ℤ := 1
  zonePageState : ℤ → ℤ := fun x => max 0 x
  lruAddDrain : Reclaim → Reclaim := id

namespace Reclaim

/-- The list that `isolate_pages_global` scans. -/
def isolatedList (active file : Bool) : ℕ :=
  let lru := lruBase
  let lru := if active then lru + lruActive else lru
  if file then lru + lruFile else lru

/-- `isolate_pages_global`: the zone, and the loop at its end. -/
def isolatePagesGlobal (nr : ℕ) (mode : IsolateMode) (active file : Bool) (s : Reclaim) :
    Result (Reclaim × Isolation) := do
  let lru := isolatedList active file
  let x ← Isolation.isolateLruPages mode file nr { page := s.page, src := s.zone.list lru }
  pure ({ s with
    page := x.page
    zone := { s.zone with list := Function.update s.zone.list lru x.src } }, x)

/-- `shrink_active_list`, with the pages isolated (`l_hold`). -/
def shrinkActiveList (nrPages : ℕ) (sc : ScanControl) (file : Bool) (s : Reclaim) :
    Result (Reclaim × List PageRef) := do
  let s := sc.lruAddDrain s
  let (s, x) ← s.isolatePagesGlobal nrPages .active true file
  pure ({ s with
    pagesScanned := s.pagesScanned + x.scan
    recentScanned := Function.update s.recentScanned file (s.recentScanned file + x.nrTaken)
    pgrefill := s.pgrefill + x.scan
    zone := s.zone.modState (if file then lruActiveFile else lruActiveAnon) (-x.nrTaken)
    nrIsolated := Function.update s.nrIsolated file (s.nrIsolated file + x.nrTaken) }, x.dst)

/-- `too_many_isolated`: more pages are isolated than are inactive. -/
def tooManyIsolated (sc : ScanControl) (file : Bool) (s : Reclaim) : Bool :=
  if sc.isKswapd then false
  else decide (sc.zonePageState (s.zone.nr (if file then lruInactiveFile else lruInactiveAnon)) <
    sc.zonePageState (s.nrIsolated file))

/-- `shrink_inactive_list`, with the pages isolated (`page_list`). -/
def shrinkInactiveList (nrToScan : ℕ) (sc : ScanControl) (file : Bool) (s : Reclaim) :
    Result (Reclaim × List PageRef) := do
  if s.tooManyIsolated sc file && sc.killed then pure (s, [])
  else
    let s := sc.lruAddDrain s
    let (s, x) ← s.isolatePagesGlobal nrToScan .inactive false file
    let s := { s with
      pagesScanned := s.pagesScanned + x.scan
      pgscanKswapd := if sc.isKswapd then s.pgscanKswapd + x.scan else s.pgscanKswapd
      pgscanDirect := if sc.isKswapd then s.pgscanDirect else s.pgscanDirect + x.scan }
    if x.nrTaken = 0 then pure (s, x.dst)
    else pure ((s.updateIsolatedCounts x.dst).1, x.dst)

/-- `inactive_anon_is_low`. -/
def inactiveAnonIsLow (sc : ScanControl) (s : Reclaim) : Bool :=
  if sc.totalSwapPages = 0 then false
  else decide (sc.zonePageState (s.zone.nr lruInactiveAnon) * sc.inactiveRatio <
    sc.zonePageState (s.zone.nr lruActiveAnon))

/-- `inactive_file_is_low`. -/
def inactiveFileIsLow (sc : ScanControl) (s : Reclaim) : Bool :=
  decide (sc.zonePageState (s.zone.nr lruInactiveFile) < sc.zonePageState (s.zone.nr lruActiveFile))

/-- `inactive_list_is_low`. -/
def inactiveListIsLow (sc : ScanControl) (file : Bool) (s : Reclaim) : Bool :=
  if file then s.inactiveFileIsLow sc else s.inactiveAnonIsLow sc

/-- `shrink_list`, with the pages isolated. -/
def shrinkList (lru nrToScan : ℕ) (sc : ScanControl) (s : Reclaim) :
    Result (Reclaim × List PageRef) :=
  let file := isFileLru lru
  if isActiveLru lru then
    if s.inactiveListIsLow sc file then s.shrinkActiveList nrToScan sc file else pure (s, [])
  else s.shrinkInactiveList nrToScan sc file

end Reclaim

/-! ## The loop -/

variable {s : Reclaim} {sc : ScanControl} {mode : IsolateMode} {active file : Bool} {nr l : ℕ}
  {x : Isolation} {p : PageRef}

/-- A page of a list that is isolated in the mode `mode`. -/
structure Page.IsolatedBy (x : Page) (mode : IsolateMode) (file : Bool) : Prop where
  lru : x.testBit .lru = true
  active : mode ≠ .both → x.testBit .active = decide (mode ≠ .inactive)
  file : mode ≠ .both → x.isFileCache = file
  evictable : x.testBit .unevictable = false

/-- A page of the list is taken unless it is being freed. -/
theorem Page.IsolatedBy.isolateLruPage_eq {x : Page} (h : x.IsolatedBy mode file) :
    x.isolateLruPage mode file =
      if x.count ≠ 0 then (Page.clearBit { x with count := x.count + 1 } .lru, 0)
      else (x, -Mm.ebusy) := by
  rw [isolateLruPage, if_neg (by simp [h.lru]), if_neg fun hm => hm.2 (h.active hm.1),
    if_neg fun hm => hm.2 (h.file hm.1), if_neg (by simp [h.evictable])]

/-- The pages of a list that are taken: of the last `nr` ones, those that are not being freed. -/
def takenPages (page : PageRef → Page) (nr : ℕ) (src : List PageRef) : List PageRef :=
  ((src.reverse.take nr).filter fun p => decide ((page p).count ≠ 0)).reverse

theorem mem_takenPages {page : PageRef → Page} {src : List PageRef}
    (hp : p ∈ takenPages page nr src) : p ∈ src :=
  List.mem_reverse.1 (List.mem_of_mem_take (List.mem_of_mem_filter (List.mem_reverse.1 hp)))

theorem length_takenPages (page : PageRef → Page) (nr : ℕ) (src : List PageRef) :
    (takenPages page nr src).length ≤ nr := by
  rw [takenPages, List.length_reverse]
  exact (List.length_filter_le _ _).trans (List.length_take_le _ _)

theorem takenPages_eq_nil {page : PageRef → Page} {src : List PageRef} :
    takenPages page nr src = [] ↔ ∀ p ∈ src.reverse.take nr, (page p).count = 0 := by
  simp [takenPages, List.filter_eq_nil_iff]

/-- The page at the tail is taken, and what becomes of it does not matter to the others. -/
theorem takenPages_concat {page : PageRef → Page} {src : List PageRef} (hp : p ∉ src)
    (hc : (page p).count ≠ 0) (y : Page) : takenPages page (nr + 1) (src ++ [p]) =
      takenPages (Function.update page p y) nr src ++ [p] := by
  rw [takenPages, takenPages, List.reverse_append, List.reverse_singleton, List.singleton_append,
    List.take_succ_cons, List.filter_cons_of_pos (by simpa using hc), List.reverse_cons]
  refine congrArg (fun ps => List.reverse ps ++ [p]) (List.filter_congr fun q hq => ?_)
  rw [Function.update_of_ne]
  rintro rfl
  exact hp (List.mem_reverse.1 (List.mem_of_mem_take hq))

/-- The page at the tail is not taken, and would not be taken either from the head. -/
theorem takenPages_rotate {page : PageRef → Page} {src : List PageRef} (hc : (page p).count = 0) :
    takenPages page (nr + 1) (src ++ [p]) = takenPages page nr (p :: src) := by
  rw [takenPages, takenPages, List.reverse_append, List.reverse_singleton, List.singleton_append,
    List.take_succ_cons, List.filter_cons_of_neg (by simpa using hc), List.reverse_cons,
    List.take_append, List.filter_append]
  rw [(List.filter_eq_nil_iff (l := List.take _ [p])).2, List.append_nil]
  intro q hq
  obtain rfl := List.mem_singleton.1 (List.mem_of_mem_take hq)
  simpa using hc

/-- The loop takes these pages, and no other. -/
theorem isolateLruPages_spec (nr : ℕ) (hnd : x.src.Nodup)
    (hsrc : ∀ p ∈ x.src, (x.page p).IsolatedBy mode file) :
    ∃ y, x.isolateLruPages mode file nr = .ok y ∧ y.dst = takenPages x.page nr x.src ++ x.dst := by
  induction nr generalizing x with
  | zero => exact ⟨x, rfl, rfl⟩
  | succ nr ih =>
    obtain ⟨page, src, dst, scan, nrTaken⟩ := x
    rcases List.eq_nil_or_concat' src with rfl | ⟨src, p, rfl⟩
    · exact ⟨_, rfl, rfl⟩
    · have hp : p ∉ src := fun hp => (List.nodup_append.1 hnd).2.2 p hp p List.mem_cons_self rfl
      have herase : (src ++ [p]).erase p = src := by
        rw [List.erase_append_right _ hp, List.erase_cons_head, List.append_nil]
      simp only [Isolation.isolateLruPages, List.getLast?_concat, Isolation.isolate, herase]
      rw [(hsrc p (List.mem_append_right _ List.mem_cons_self)).isolateLruPage_eq]
      by_cases hc : (page p).count = 0
      -- The page is rotated.
      · rw [if_neg (not_not.2 hc), takenPages_rotate hc]
        refine ih (List.nodup_cons.2 ⟨hp, (List.nodup_append.1 hnd).1⟩) fun q hq => hsrc q ?_
        rwa [List.mem_append, List.mem_singleton, or_comm, ← List.mem_cons]
      -- The page is taken: the others of the list stay as they are.
      · rw [if_pos hc]
        have hsrc' : ∀ y, ∀ q ∈ src, (Function.update page p y q).IsolatedBy mode file := by
          intro y q hq
          have hqp : q ≠ p := fun he => hp (he ▸ hq)
          rw [Function.update_of_ne hqp]
          exact hsrc q (List.mem_append_left _ hq)
        obtain ⟨y, hy, hdst⟩ := ih
          (x := ⟨Function.update page p
              (Page.clearBit { page p with count := (page p).count + 1 } .lru),
            src, p :: dst, scan + 1, nrTaken + 1⟩) (List.nodup_append.1 hnd).1 (hsrc' _)
        refine ⟨y, hy, ?_⟩
        rw [takenPages_concat hp hc, List.append_assoc]
        exact hdst

/-! ## Shrinking -/

/-- The flags of the pages on the lists are those of the lists. -/
structure Reclaim.Consistent (s : Reclaim) : Prop where
  nodup : ∀ l < nrLruLists, (s.zone.list l).Nodup
  lru : ∀ l < nrLruLists, ∀ p ∈ s.zone.list l, (s.page p).testBit .lru = true
  lruList : ∀ l < nrLruLists, ∀ p ∈ s.zone.list l, (s.page p).lruList = l

theorem digits_inj : ∀ f k a file active : Bool, (if f then lruFile else lruBase) +
    (if k then lruLinked else lruBase) + (if a then lruActive else lruBase) =
      (if file then lruFile else lruBase) + (if active then lruActive else lruBase) →
    f = file ∧ k = false ∧ a = active := by
  decide

namespace Reclaim

/-- A list that is scanned is that of two digits. -/
theorem isolatedList_eq_digits (active file : Bool) : isolatedList active file =
    (if file then lruFile else lruBase) + if active then lruActive else lruBase := by
  cases active
  all_goals
    cases file
    all_goals rfl

theorem isolatedList_lt (active file : Bool) : isolatedList active file < lruUnevictable := by
  revert active file
  decide

/-- The digit `LRU_LINKED` of the list is lost. -/
theorem isolatedList_eq (hl : l < lruUnevictable) :
    isolatedList (isActiveLru l) (isFileLru l) = if isLinkedLru l then l - lruLinked else l := by
  rw [lruUnevictable] at hl
  interval_cases l
  all_goals rfl

theorem sub_linked_ne (hl : isLinkedLru l = true) : l ≠ l - lruLinked := by
  simp only [isLinkedLru, Bool.or_eq_true, decide_eq_true_eq] at hl
  rcases hl with ((rfl | rfl) | rfl) | rfl
  all_goals decide

/-- The pages of a list that is scanned are those that its digits tell, and are not linked. -/
theorem Consistent.isolatedBy (h : s.Consistent) (hp : p ∈ s.zone.list (isolatedList active file)) :
    (s.page p).IsolatedBy (if active then .active else .inactive) file ∧
      (s.page p).linked = false := by
  have hlt := isolatedList_lt active file
  have hl := h.lruList _ (hlt.trans (by decide)) p hp
  have hlru := h.lru _ (hlt.trans (by decide)) p hp
  have hevict : (s.page p).testBit .unevictable = false := by
    by_contra hu
    rw [Page.lruList, if_pos (Bool.not_eq_false _ ▸ hu)] at hl
    exact hlt.ne' hl
  have hindex : (s.page p).listIndex = isolatedList active file := by
    rw [← hl, Page.lruList, hevict, if_neg Bool.false_ne_true, Page.listIndex]
    cases (s.page p).testBit .active
    all_goals rfl
  rw [Page.listIndex_eq, isolatedList_eq_digits] at hindex
  obtain ⟨hf, hlink, ha⟩ := digits_inj _ _ _ _ _ hindex
  refine ⟨⟨hlru, fun _ => ?_, fun _ => hf, hevict⟩, hlink⟩
  rw [ha]
  cases active
  all_goals rfl

/-- The list is scanned: there are too few inactive pages, or the task does not die while it waits. -/
def scans (l : ℕ) (sc : ScanControl) (s : Reclaim) : Bool :=
  if isActiveLru l then s.inactiveListIsLow sc (isFileLru l)
  else !(s.tooManyIsolated sc (isFileLru l) && sc.killed)

theorem isolatePagesGlobal_spec (h : s.Consistent) (nr : ℕ) (active file : Bool) :
    ∃ r, s.isolatePagesGlobal nr (if active then .active else .inactive) active file = .ok r ∧
      r.2.dst = takenPages s.page nr (s.zone.list (isolatedList active file)) := by
  obtain ⟨y, hy, hdst⟩ := isolateLruPages_spec nr
    (x := { page := s.page, src := s.zone.list (isolatedList active file) })
    (h.nodup _ ((isolatedList_lt active file).trans (by decide))) fun p hp => (h.isolatedBy hp).1
  rw [isolatePagesGlobal, hy]
  exact ⟨_, rfl, hdst.trans (List.append_nil _)⟩

/-- The pages isolated come from the list of the same two digits. -/
theorem shrinkList_spec (h : (sc.lruAddDrain s).Consistent) (l nr : ℕ) :
    ∃ s', s.shrinkList l nr sc = .ok (s', if s.scans l sc then
      takenPages (sc.lruAddDrain s).page nr
        ((sc.lruAddDrain s).zone.list (isolatedList (isActiveLru l) (isFileLru l))) else []) := by
  rw [shrinkList, scans]
  rcases isActiveLru l with _ | _
  · obtain ⟨r, hr, hdst⟩ := isolatePagesGlobal_spec h nr false (isFileLru l)
    simp only [Bool.false_eq_true, if_false, shrinkInactiveList] at hr ⊢
    rcases (s.tooManyIsolated sc (isFileLru l) && sc.killed) with _ | _
    · simp only [Bool.false_eq_true, if_false, Bool.not_false, if_true, hr, ok_bind, ← hdst]
      split_ifs
      all_goals exact ⟨_, rfl⟩
    · exact ⟨_, rfl⟩
  · obtain ⟨r, hr, hdst⟩ := isolatePagesGlobal_spec h nr true (isFileLru l)
    rcases s.inactiveListIsLow sc (isFileLru l) with _ | _
    · exact ⟨_, rfl⟩
    · simp only [if_true, shrinkActiveList] at hr ⊢
      rw [hr, ← hdst]
      exact ⟨_, rfl⟩

/-- The list `l` is shrunk: pages are isolated from it only, and no more than were to be scanned. -/
def Shrinks (l nr : ℕ) (sc : ScanControl) (s : Reclaim) : Prop :=
  ∃ r, s.shrinkList l nr sc = .ok r ∧ (∀ p ∈ r.2, p ∈ (sc.lruAddDrain s).zone.list l) ∧
    r.2.length ≤ nr

/-- The right list is shrunk exactly if it is not a list of linked pages, or nothing is isolated: no
    list is scanned, or all the pages that are scanned are being freed. -/
theorem shrinkList_iff (h : (sc.lruAddDrain s).Consistent) (hl : l < lruUnevictable) (nr : ℕ) :
    s.Shrinks l nr sc ↔ isLinkedLru l = false ∨ s.scans l sc = false ∨
      ∀ p ∈ ((sc.lruAddDrain s).zone.list (l - lruLinked)).reverse.take nr,
        ((sc.lruAddDrain s).page p).count = 0 := by
  obtain ⟨s', hs⟩ := shrinkList_spec h l nr
  rw [isolatedList_eq hl] at hs
  cases hscan : s.scans l sc with
  | false =>
    rw [hscan, if_neg Bool.false_ne_true] at hs
    refine ⟨fun _ => .inr (.inl rfl), fun _ => ⟨_, hs, fun _ hp => ?_, nr.zero_le⟩⟩
    exact absurd hp List.not_mem_nil
  | true =>
    rw [hscan, if_pos rfl] at hs
    cases hlink : isLinkedLru l with
    | false =>
      rw [hlink, if_neg Bool.false_ne_true] at hs
      refine ⟨fun _ => .inl rfl, fun _ => ⟨_, hs, fun p hp => ?_, length_takenPages ..⟩⟩
      exact mem_takenPages hp
    | true =>
      rw [hlink, if_pos rfl] at hs
      rw [← takenPages_eq_nil]
      constructor
      · rintro ⟨r, hr, hmem, -⟩
        obtain rfl := Except.ok.inj (hs.symm.trans hr)
        refine .inr (.inr (List.eq_nil_iff_forall_not_mem.2 fun p hp => ?_))
        -- A page that is taken would be on two lists.
        have hsub : l - lruLinked < nrLruLists := (Nat.sub_le ..).trans_lt (hl.trans (by decide))
        have h₁ := h.lruList _ (hl.trans (by decide)) p (hmem p hp)
        have h₂ := h.lruList _ hsub p (mem_takenPages hp)
        rw [h₁] at h₂
        exact absurd h₂ (sub_linked_ne hlink)
      · rintro (hfalse | hfalse | hnil)
        · cases hfalse
        · cases hfalse
        · exact ⟨_, hs, fun p hp => absurd (hnil ▸ hp) List.not_mem_nil, length_takenPages ..⟩

/-- Two pages of anonymous memory, each on its inactive list; the page 1 is linked. -/
def linkedZone : Reclaim where
  page p := {
    flags := fun f => decide (f = .lru) || decide (f = .swapbacked)
    count := 1
    chain := if p = 1 then some 0 else none }
  zone := {
    list := fun l =>
      if l = lruInactiveAnon then [0] else if l = lruInactiveLinkedAnon then [1] else [] }

theorem linkedZone_consistent : linkedZone.Consistent := ⟨by decide, by decide, by decide⟩

/-- The page that is not linked is the only one on its list. -/
theorem linkedZone_shrinks : linkedZone.Shrinks lruInactiveAnon 1 {} :=
  (shrinkList_iff linkedZone_consistent (by decide) 1).2 (.inl rfl)

/-- The page that is isolated is not one of the list. -/
theorem linkedZone_not_shrinks :
    linkedZone.Consistent ∧ ¬ linkedZone.Shrinks lruInactiveLinkedAnon 1 {} := by
  refine ⟨linkedZone_consistent, ?_⟩
  rintro ⟨r, hr, hmem, -⟩
  have htaken : (linkedZone.shrinkList lruInactiveLinkedAnon 1 {}).map Prod.snd = .ok [0] := rfl
  rw [hr] at htaken
  have h0 : (0 : PageRef) ∈ r.2 := by
    rw [show r.2 = [0] from Except.ok.inj htaken]
    exact List.mem_cons_self
  exact absurd (hmem 0 h0) (by decide)

/-- A linked page is never isolated, whichever list is to be shrunk. -/
theorem shrinkList_unlinked (h : (sc.lruAddDrain s).Consistent) {r : Reclaim × List PageRef}
    (heq : s.shrinkList l nr sc = .ok r) (hp : p ∈ r.2) :
    ((sc.lruAddDrain s).page p).linked = false := by
  obtain ⟨s', hs⟩ := shrinkList_spec h l nr
  obtain rfl := Except.ok.inj (hs.symm.trans heq)
  split_ifs at hp
  · exact (h.isolatedBy (mem_takenPages hp)).2
  · cases hp

end Reclaim

end Mcpq.Kernel
