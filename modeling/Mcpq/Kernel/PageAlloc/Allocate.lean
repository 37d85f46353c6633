import Mcpq.Kernel.PageAlloc.Buddies

/-!
# Allocating from a zone

What `rmqueue` does (`rmqueue_spec`): it takes an aligned block off the free pages, and leaves all others
free, whichever lists the block and its halves come from and go to. It fails if and only if there is no
free block of the order, or of a greater one, on any list that pages are allocated from
(`rmqueue_eq_none_iff`).
-/

namespace Mcpq.Kernel.PageAlloc

/-- The zone is a range of pages, but for the holes in it. -/
def Config.Contiguous (c : Config) : Prop :=
  ∀ p, c.pfnValidWithin p = true → (c.pageZoneId p = c.zoneId ↔
    c.zoneStartPfn ≤ p ∧ p < c.zoneStartPfn + c.spannedPages)

/-- A block is taken off the free pages. -/
structure Allocates (c : Config) (z : Zone) (o : ℕ) (z' : Zone) (p : ℕ) : Prop where
  ok : Ok c z'
  order_lt : o < c.maxOrder
  aligned : 2 ^ o ∣ p
  disjoint : Disjoint (blockOf o p) (covered z'.free)
  covered_eq : covered z'.free ∪ blockOf o p = covered z.free
  page_eq : ∀ x, x ∉ covered z.free → z'.page x = z.page x

variable {c : Config} {z z' : Zone} {o t p : ℕ}

/-! ## The lists of a type -/

/-- A block that has been taken off its list is split. -/
theorem Ok.allocates (h : Ok c z) {order : ℕ} (hle : order ≤ o) (hp : p ∈ z.freeList o t) {u : ℕ}
    (hu : u < migrateIsolate) (hlist : z'.freeList = (z.listDel p).freeList)
    (hpage : z'.page = (z.rmvPageOrder p).page) (hnr : z'.nrFree = (z.addNrFree o (-1)).nrFree) :
    Allocates c z order (expand p order u o z') p := by
  obtain ⟨hok, hfree⟩ := h.remove hp
  have hfree' : z'.free = z.free \ {(o, p)} := by
    rw [← hfree, Zone.free, hlist]
    rfl
  have hok' : Ok c z' := by
    refine ⟨?_, ?_, ?_, ?_, ?_, ?_, ?_, ?_⟩
    · exact hfree'.trans hfree.symm ▸ hok.system
    · exact hlist ▸ hok.nodup
    · exact hlist ▸ hok.type_eq
    · exact hlist ▸ hok.type_lt
    · exact hlist ▸ hpage ▸ hok.page_eq
    · exact hfree'.trans hfree.symm ▸ hpage ▸ hok.listed
    · exact hfree'.trans hfree.symm ▸ hok.inZone
    · exact hlist ▸ hnr ▸ hok.nrFree_eq
  have hmem : (o, p) ∈ z.free := mem_free hp
  have hd := h.system.disjoint_sdiff hmem
  rw [← hfree'] at hd
  obtain ⟨hok'', hdvd, hd', hcov, hpage'⟩ := expand_spec hok' (h.order_lt hp) hle (h.aligned hp) hu
    hd fun x hx => h.inZone x ⟨o, p, hmem, hx⟩
  refine ⟨hok'', hle.trans_lt (h.order_lt hp), hdvd, hd', hcov.trans ?_, fun x hx => ?_⟩
  · rw [hfree', covered_sdiff hmem]
  · have hnot : x ∉ blockOf o p := fun hx' => hx ⟨o, p, hmem, hx'⟩
    have hne : x ≠ p := by
      rintro rfl
      exact hnot (self_mem_blockOf o x)
    rw [hpage' x hnot, hpage]
    exact Function.update_of_ne hne ..

/-- The first block of a list, or none if the list is empty. -/
theorem rmqueueSmallest_spec (h : Ok c z) (hs : rmqueueSmallest c z o t = some (z', p)) :
    Allocates c z o z' p := by
  obtain ⟨k, hk, heq⟩ := List.exists_of_findSome?_eq_some hs
  rw [List.mem_range'_1] at hk
  cases hl : z.freeList k t with
  | nil =>
    rw [hl] at heq
    cases heq
  | cons q l =>
    rw [hl] at heq
    cases heq
    have hp : p ∈ z.freeList k t := hl ▸ List.mem_cons_self
    exact h.allocates hk.1 hp (h.type_lt k t p hp) rfl rfl rfl

/-- No list of the type has a block of the order or above it. -/
theorem rmqueueSmallest_eq_none_iff :
    rmqueueSmallest c z o t = none ↔ ∀ k, o ≤ k → k < c.maxOrder → z.freeList k t = [] := by
  rw [rmqueueSmallest, List.findSome?_eq_none_iff]
  refine forall_congr' fun k => ?_
  rw [List.mem_range'_1]
  constructor
  · intro hnone ho hk
    have := hnone ⟨ho, by omega⟩
    cases hl : z.freeList k t with
    | nil => rfl
    | cons q l =>
      rw [hl] at this
      cases this
  · rintro hnil ⟨ho, hk⟩
    rw [hnil ho (by omega)]

/-! ## Moving blocks between lists -/

/-- Free blocks have changed lists. -/
structure Moved (c : Config) (z z' : Zone) : Prop where
  ok : Ok c z'
  free_eq : z'.free = z.free
  page_eq : z'.page = z.page
  nrFree_eq : z'.nrFree = z.nrFree

/-- Nothing has been moved yet. -/
theorem Ok.moved (h : Ok c z) : Moved c z z := ⟨h, rfl, rfl, rfl⟩

/-- One move after the other. -/
theorem Moved.trans {z₁ : Zone} (h : Moved c z z₁) (h' : Moved c z₁ z') : Moved c z z' :=
  ⟨h'.ok, h'.free_eq.trans h.free_eq, h'.page_eq.trans h.page_eq, h'.nrFree_eq.trans h.nrFree_eq⟩

/-- A block is moved to another list of its order. -/
theorem Ok.move (h : Ok c z) (hp : p ∈ z.freeList o t) {u : ℕ} (hu : u < migrateIsolate) :
    Moved c z ((z.listDel p).listAdd o u p) := by
  obtain ⟨hok, hfree⟩ := h.remove hp
  have hmem : (o, p) ∈ z.free := mem_free hp
  have hd := h.system.disjoint_sdiff hmem
  rw [← hfree] at hd
  have hadd : ∀ z', z' = (z.listDel p).listAdd o u p → Ok c z' ∧
      z'.free = insert (o, p) (z.free \ {(o, p)}) := by
    rintro z' rfl
    rw [← hfree]
    refine hok.add (h.order_lt hp) (h.aligned hp) hu hd (fun x hx => h.inZone x ⟨o, p, hmem, hx⟩)
      (fun hM hb => ?_) (fun o' t' => .refl _) ?_ ?_
    · rw [hfree] at hb
      exact h.system.not_buddies o p hmem hM hb.1
    · change z.page = Function.update (Function.update z.page p ⟨false, 0⟩) p ⟨true, o⟩
      rw [Function.update_idem, ← h.page_eq o t p hp, Function.update_eq_self]
    · change z.nrFree = Function.update (Function.update z.nrFree o (z.nrFree o + -1)) o
        (Function.update z.nrFree o (z.nrFree o + -1) o + 1)
      rw [Function.update_idem, Function.update_self, Int.neg_add_cancel_right,
        Function.update_eq_self]
  obtain ⟨hok', hfree'⟩ := hadd _ rfl
  exact ⟨hok', by rw [hfree', Set.insert_sdiff_self_of_mem hmem], rfl, rfl⟩

/-- The free blocks of a range of pages of the zone are moved. -/
theorem moveFreepagesLoop_spec {n q moved : ℕ} (h : Ok c z) (ht : t < migrateIsolate)
    (hz : ∀ x, p ≤ x → x ≤ q → c.pfnValidWithin x = true → c.InZone x) :
    Moved c z (moveFreepagesLoop c q t n p z moved).1 := by
  induction n generalizing p z moved with
  | zero => exact h.moved
  | succ n ih =>
    rw [moveFreepagesLoop]
    have hnext : ∀ k, ∀ x, p + k ≤ x → x ≤ q → c.pfnValidWithin x = true → c.InZone x :=
      fun k x hx => hz x (by omega)
    split_ifs with hle hvalid hb
    · exact ih h (hnext 1)
    · exact ih h (hnext 1)
    · have hzone := hz p le_rfl hle (by simpa using hvalid)
      obtain ⟨u, hu⟩ := h.listed p hzone (by simpa using hb)
      have hmoved := h.move hu ht
      exact hmoved.trans (ih hmoved.ok (hnext _))
    · exact h.moved

/-- The free blocks of the page block of a page are moved, if it does not cross the end of the zone. -/
theorem moveFreepagesBlock_spec (hc : c.Contiguous) (h : Ok c z) (ht : t < migrateIsolate)
    (hp : c.InZone p) : Moved c z (moveFreepagesBlock c z p t).1 := by
  have hspan := (hc p hp.1).1 hp.2
  rw [moveFreepagesBlock]
  by_cases hend : c.zoneStartPfn + c.spannedPages ≤
      p / 2 ^ c.pageblockOrder * 2 ^ c.pageblockOrder + 2 ^ c.pageblockOrder - 1
  · rw [if_pos hend]
    exact h.moved
  · rw [if_neg hend]
    refine moveFreepagesLoop_spec h ht fun x hx hxq hvalid => ⟨hvalid, (hc x hvalid).2 ⟨?_, ?_⟩⟩
    · split_ifs at hx <;> omega
    · omega

/-- The walk does not read the counts. -/
theorem moveFreepagesLoop_addNrFree {n q moved k : ℕ} {m : ℤ} :
    moveFreepagesLoop c q t n p (z.addNrFree k m) moved =
      ((moveFreepagesLoop c q t n p z moved).1.addNrFree k m,
        (moveFreepagesLoop c q t n p z moved).2) := by
  induction n generalizing p z moved with
  | zero => rfl
  | succ n ih =>
    rw [moveFreepagesLoop, moveFreepagesLoop, show (z.addNrFree k m).page = z.page from rfl]
    split_ifs with hle hvalid hb
    · exact ih
    · exact ih
    · exact ih (z := (z.listDel p).listAdd (z.page p).priv t p)
    · rfl

/-- Nor does the move of a page block. -/
theorem moveFreepagesBlock_addNrFree {k : ℕ} {m : ℤ} :
    moveFreepagesBlock c (z.addNrFree k m) p t =
      ((moveFreepagesBlock c z p t).1.addNrFree k m, (moveFreepagesBlock c z p t).2) := by
  rw [moveFreepagesBlock, moveFreepagesBlock]
  by_cases hend : c.zoneStartPfn + c.spannedPages ≤
      p / 2 ^ c.pageblockOrder * 2 ^ c.pageblockOrder + 2 ^ c.pageblockOrder - 1
  · rw [if_pos hend, if_pos hend]
  · rw [if_neg hend, if_neg hend]
    exact moveFreepagesLoop_addNrFree

/-! ## Falling back -/

/-- The zones differ in the types of page blocks only. -/
structure SameLists (z z' : Zone) : Prop where
  freeList_eq : z'.freeList = z.freeList
  page_eq : z'.page = z.page
  nrFree_eq : z'.nrFree = z.nrFree

/-- Nothing has changed. -/
theorem SameLists.refl (z : Zone) : SameLists z z := ⟨rfl, rfl, rfl⟩

/-- One change after the other. -/
theorem SameLists.trans {z₁ : Zone} (h : SameLists z z₁) (h' : SameLists z₁ z') : SameLists z z' :=
  ⟨h'.freeList_eq.trans h.freeList_eq, h'.page_eq.trans h.page_eq, h'.nrFree_eq.trans h.nrFree_eq⟩

/-- The types of page blocks are not on the lists. -/
theorem sameLists_changePageblockRange (z : Zone) (p o t : ℕ) :
    SameLists z (changePageblockRange c z p o t) := by
  rw [changePageblockRange]
  generalize List.range _ = l
  induction l generalizing z with
  | nil => exact .refl z
  | cons i l ih =>
    have hset : SameLists z (setPageblockMigratetype c z (p + i * 2 ^ c.pageblockOrder) t) :=
      ⟨rfl, rfl, rfl⟩
    exact hset.trans (ih _)

/-- A block is split whose list may have changed. -/
theorem Moved.allocates {zm z₁ z₂ : Zone} (h : Moved c z zm) {order u : ℕ} (hle : order ≤ o)
    (hp : (o, p) ∈ z.free) (hu : u < migrateIsolate) (h₁ : SameLists (zm.addNrFree o (-1)) z₁)
    (h₂ : SameLists ((z₁.listDel p).rmvPageOrder p) z₂) :
    Allocates c z order (expand p order u o z₂) p := by
  obtain ⟨t, hp⟩ : (o, p) ∈ zm.free := h.free_eq ▸ hp
  have hlist : z₂.freeList = (zm.listDel p).freeList := by
    rw [h₂.freeList_eq]
    change (fun o t => (z₁.freeList o t).erase p) = _
    rw [h₁.freeList_eq]
    rfl
  have hpage : z₂.page = (zm.rmvPageOrder p).page := by
    rw [h₂.page_eq]
    change Function.update z₁.page p ⟨false, 0⟩ = _
    rw [h₁.page_eq]
    rfl
  have hnr : z₂.nrFree = (zm.addNrFree o (-1)).nrFree := h₂.nrFree_eq.trans h₁.nrFree_eq
  have halloc := h.ok.allocates hle hp hu hlist hpage hnr
  exact ⟨halloc.ok, halloc.order_lt, halloc.aligned, halloc.disjoint,
    halloc.covered_eq.trans (congrArg covered h.free_eq), fun x hx =>
      (halloc.page_eq x (h.free_eq.symm ▸ hx)).trans (congrFun h.page_eq x)⟩

/-- A block is allocated from the list of another type. -/
theorem rmqueueFrom_spec (hc : c.Contiguous) (h : Ok c z) {order start : ℕ} (hle : order ≤ o)
    (hstart : start < migrateIsolate) (hp : p ∈ z.freeList o t) :
    Allocates c z order (rmqueueFrom c z order start o t p).1 (rmqueueFrom c z order start o t p).2 := by
  have hmem : (o, p) ∈ z.free := ⟨t, hp⟩
  have hzone := h.inZone p ⟨o, p, hmem, self_mem_blockOf o p⟩
  have hrange : ∀ z' : Zone, SameLists z' (if c.pageblockOrder ≤ o then
      changePageblockRange c z' p o start else z') := fun z' => by
    split_ifs
    · exact sameLists_changePageblockRange z' p o start
    · exact .refl z'
  rw [rmqueueFrom]
  by_cases hcond : c.pageblockOrder >>> 1 ≤ o ∨ start = migrateReclaimable ∨
      c.pageGroupByMobilityDisabled = true
  · rw [if_pos hcond, moveFreepagesBlock_addNrFree]
    refine (moveFreepagesBlock_spec hc h hstart hzone).allocates hle hmem hstart ?_ (hrange _)
    split_ifs
    · exact ⟨rfl, rfl, rfl⟩
    · exact .refl _
  · rw [if_neg hcond]
    exact h.moved.allocates hle hmem (h.type_lt o t p hp) (.refl _) (hrange _)

/-- The block of another type is free before, and allocated after. -/
theorem rmqueueFallback_spec (hc : c.Contiguous) (h : Ok c z) (ht : t < migrateIsolate)
    (hs : rmqueueFallback c z o t = some (z', p)) : Allocates c z o z' p := by
  obtain ⟨k, hk, heq⟩ := List.exists_of_findSome?_eq_some hs
  obtain ⟨u, -, heq⟩ := List.exists_of_findSome?_eq_some heq
  rw [List.mem_reverse, List.mem_range'_1] at hk
  split_ifs at heq
  cases hl : z.freeList k u with
  | nil =>
    rw [hl] at heq
    cases heq
  | cons q l =>
    rw [hl] at heq
    have hq : q ∈ z.freeList k u := hl ▸ List.mem_cons_self
    have hfrom := rmqueueFrom_spec hc h hk.1 ht hq
    rw [Option.some.inj heq] at hfrom
    exact hfrom

/-- No fallback list has a block of the order or above it. -/
theorem rmqueueFallback_eq_none_iff : rmqueueFallback c z o t = none ↔ ∀ k, o ≤ k →
    k < c.maxOrder → ∀ u ∈ fallbacks t, u ≠ migrateReserve → z.freeList k u = [] := by
  rw [rmqueueFallback, List.findSome?_eq_none_iff]
  refine forall_congr' fun k => ?_
  rw [List.mem_reverse, List.mem_range'_1, List.findSome?_eq_none_iff]
  constructor
  · intro hnone ho hk u hu hne
    have := hnone ⟨ho, by omega⟩ u hu
    rw [if_neg hne] at this
    cases hl : z.freeList k u with
    | nil => rfl
    | cons q l =>
      rw [hl] at this
      cases this
  · rintro hnil ⟨ho, hk⟩ u hu
    split_ifs with hne
    · rfl
    · rw [hnil ho (by omega) u hu hne]

/-! ## Allocation -/

/-- An allocation takes an aligned block off the free pages. -/
theorem rmqueue_spec (hc : c.Contiguous) (h : Ok c z) (ht : t < migrateIsolate)
    (hs : rmqueue c z o t = some (z', p)) : Allocates c z o z' p := by
  rw [rmqueue] at hs
  split at hs
  · rename_i r heq
    cases hs
    exact rmqueueSmallest_spec h heq
  · split_ifs at hs
    split at hs
    · rename_i r heq
      cases hs
      exact rmqueueFallback_spec hc h ht heq
    · exact rmqueueSmallest_spec h hs

/-- No page block has the type `MIGRATE_ISOLATE`. -/
def Zone.Typed (z : Zone) : Prop := ∀ i, z.pageblockFlags i < migrateIsolate

/-- The move leaves the types of the page blocks. -/
theorem moveFreepagesBlock_pageblockFlags :
    (moveFreepagesBlock c z p t).1.pageblockFlags = z.pageblockFlags := by
  have hloop : ∀ n z p q moved,
      (moveFreepagesLoop c q t n p z moved).1.pageblockFlags = z.pageblockFlags := by
    intro n
    induction n with
    | zero => exact fun _ _ _ _ => rfl
    | succ n ih =>
      intro z p q moved
      rw [moveFreepagesLoop]
      split_ifs
      · exact ih ..
      · exact ih ..
      · exact ih ((z.listDel p).listAdd (z.page p).priv t p) ..
      · rfl
  rw [moveFreepagesBlock]
  by_cases hend : c.zoneStartPfn + c.spannedPages ≤
      p / 2 ^ c.pageblockOrder * 2 ^ c.pageblockOrder + 2 ^ c.pageblockOrder - 1
  · rw [if_pos hend]
  · rw [if_neg hend]
    exact hloop ..

/-- A page block gets a type that is not isolated. -/
theorem Zone.Typed.setPageblockMigratetype (h : z.Typed) (ht : t < migrateIsolate) :
    (setPageblockMigratetype c z p t).Typed := fun i => by
  change Function.update z.pageblockFlags _ _ i < _
  rw [Function.update_apply]
  split_ifs
  · exact Nat.zero_lt_succ _
  · exact ht
  · exact h i

/-- So do the page blocks of a range. -/
theorem Zone.Typed.changePageblockRange (h : z.Typed) (ht : t < migrateIsolate) :
    (changePageblockRange c z p o t).Typed := by
  rw [PageAlloc.changePageblockRange]
  generalize List.range _ = l
  induction l generalizing z with
  | nil => exact h
  | cons i l ih => exact ih (h.setPageblockMigratetype ht)

/-- No page block is isolated by an allocation from a list. -/
theorem rmqueueFrom_typed (h : z.Typed) {order start : ℕ} (hstart : start < migrateIsolate) :
    (rmqueueFrom c z order start o t p).1.Typed := by
  have hmoved : ∀ z : Zone, z.Typed → (moveFreepagesBlock c z p start).1.Typed := fun z h i => by
    rw [moveFreepagesBlock_pageblockFlags]
    exact h i
  have hrange : ∀ z : Zone, z.Typed → (if c.pageblockOrder ≤ o then
      changePageblockRange c z p o start else z).Typed := fun z h => by
    split_ifs
    · exact h.changePageblockRange hstart
    · exact h
  have hexpand : ∀ u, ∀ z : Zone, z.Typed → (expand p order u o z).Typed := fun u z h i => by
    rw [expand_pageblockFlags]
    exact h i
  rw [rmqueueFrom]
  by_cases hcond : c.pageblockOrder >>> 1 ≤ o ∨ start = migrateReclaimable ∨
      c.pageGroupByMobilityDisabled = true
  · rw [if_pos hcond]
    refine hexpand start _ (hrange _ fun i => ?_)
    have hset : (if 1 <<< (c.pageblockOrder - 1) ≤
          (moveFreepagesBlock c (z.addNrFree o (-1)) p start).2 ∨
          c.pageGroupByMobilityDisabled = true then
        setPageblockMigratetype c (moveFreepagesBlock c (z.addNrFree o (-1)) p start).1 p start
        else (moveFreepagesBlock c (z.addNrFree o (-1)) p start).1).Typed := by
      split_ifs
      · exact (hmoved (z.addNrFree o (-1)) h).setPageblockMigratetype hstart
      · exact hmoved (z.addNrFree o (-1)) h
    exact hset i
  · rw [if_neg hcond]
    exact hexpand t _ (hrange _ h)

/-- Nor by the search of the lists of the type. -/
theorem rmqueueSmallest_typed (h : z.Typed) (hs : rmqueueSmallest c z o t = some (z', p)) :
    z'.Typed := by
  obtain ⟨k, -, heq⟩ := List.exists_of_findSome?_eq_some hs
  cases hl : z.freeList k t with
  | nil =>
    rw [hl] at heq
    cases heq
  | cons q l =>
    rw [hl] at heq
    cases heq
    intro i
    rw [expand_pageblockFlags]
    exact h i

/-- Nor by an allocation as a whole. -/
theorem rmqueue_typed (h : z.Typed) (ht : t < migrateIsolate)
    (hs : rmqueue c z o t = some (z', p)) : z'.Typed := by
  rw [rmqueue] at hs
  split at hs
  · rename_i r heq
    cases hs
    exact rmqueueSmallest_typed h heq
  · split_ifs at hs
    split at hs
    · rename_i r heq
      cases hs
      obtain ⟨k, -, heq⟩ := List.exists_of_findSome?_eq_some heq
      obtain ⟨u, -, heq⟩ := List.exists_of_findSome?_eq_some heq
      split_ifs at heq
      cases hl : z.freeList k u with
      | nil =>
        rw [hl] at heq
        cases heq
      | cons q l =>
        rw [hl] at heq
        have hfrom : (rmqueueFrom c z o t k u q).1.Typed := rmqueueFrom_typed h ht
        rw [Option.some.inj heq] at hfrom
        exact hfrom
    · exact rmqueueSmallest_typed h hs

/-- Every type is tried but `MIGRATE_ISOLATE`. -/
theorem fallbacks_cover : ∀ t < migratePcptypes, (∀ u ∈ fallbacks t, u < migrateIsolate) ∧
    ∀ u < migrateIsolate, u = t ∨ u = migrateReserve ∨ u ∈ fallbacks t ∧ u ≠ migrateReserve := by
  decide

/-- An allocation fails if there is no block of the order, or of a greater one, on any list. -/
theorem rmqueue_eq_none_iff (ht : t < migratePcptypes) : rmqueue c z o t = none ↔
    ∀ k u, o ≤ k → k < c.maxOrder → u < migrateIsolate → z.freeList k u = [] := by
  obtain ⟨hlt, hfalls⟩ := fallbacks_cover t ht
  have hsmallest : rmqueue c z o t = none ↔ rmqueueSmallest c z o t = none ∧
      rmqueueFallback c z o t = none ∧ rmqueueSmallest c z o migrateReserve = none := by
    rw [rmqueue]
    have hne : t ≠ migrateReserve := Nat.ne_of_lt ht
    split
    · rename_i heq
      simp [heq]
    · rename_i heq
      rw [if_pos hne]
      split
      · rename_i heq'
        simp [heq']
      · rename_i heq'
        simp [heq, heq']
  rw [hsmallest, rmqueueSmallest_eq_none_iff, rmqueueFallback_eq_none_iff,
    rmqueueSmallest_eq_none_iff]
  constructor
  · rintro ⟨hown, hfall, hres⟩ k u ho hk hu
    rcases hfalls u hu with rfl | rfl | ⟨hu, hne⟩
    · exact hown k ho hk
    · exact hres k ho hk
    · exact hfall k ho hk u hu hne
  · intro hnil
    exact ⟨fun k ho hk => hnil k t ho hk (ht.trans (by decide)),
      fun k ho hk u hu _ => hnil k u ho hk (hlt u hu), fun k ho hk => hnil k _ ho hk (by decide)⟩

end Mcpq.Kernel.PageAlloc
