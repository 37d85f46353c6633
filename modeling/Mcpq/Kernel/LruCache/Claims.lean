import Mcpq.Kernel.LruCache.Custody

/-!
# What the instructions claim

The claims of each instruction to each page (`Instr.claims`), and the invariant of what the threads share
(`Inv`): each page waits in one place at most, and what is claimed of it is valid. A step mostly concerns
one page (`Alters`), and one claim to it (`Inv.change` and those that follow it).
-/

namespace Mcpq.Kernel.LruCache

variable {C : Type*}

/-! ## Claims -/

section Claims

/-- What is claimed of one page. -/
abbrev one (p : PageRef) (c : Claim) : PageRef → Multiset Claim := Pi.single p {c}

/-- What is claimed of each page of a list. -/
def each (ps : List PageRef) (c : Claim) : PageRef → Multiset Claim := fun q => ps.count q • {c}

/-- A page that is on no LRU list. -/
def offLru : ZoneRef → LruFlags → Prop := fun _ f => f.lru = false

/-- A page that is about to be put on the list. -/
def awaits (l : ℕ) : ZoneRef → LruFlags → Prop := fun _ f => f.Awaits l

/-- A page that `lru_cache_add_lru` is called for. -/
def adds (l : ℕ) : ZoneRef → LruFlags → Prop := fun _ f =>
  f.lru = false ∧ (f.active = false ∨ f.unevictable = false) ∧ f.file = isFileLru l ∧ l < lruUnevictable

/-- A page of the zone that has been isolated. Whether it is active and of a file may be known. -/
def isolated (z : ZoneRef) (active file : Option Bool) : ZoneRef → LruFlags → Prop :=
  fun z' f => z' = z ∧ f.lru = false ∧ f.unevictable = false ∧ (∀ b ∈ active, f.active = b) ∧
    ∀ b ∈ file, f.file = b

/-- A page of the zone that is about to be put on the list again. -/
def isolatedFor (z : ZoneRef) (l : ℕ) : ZoneRef → LruFlags → Prop :=
  fun z' f => isolated z (some (isActiveLru l)) (some (isFileLru l)) z' f ∧ l < lruUnevictable

/-- What a function that is about to take a step holds of a page. -/
def Instr.claims : Instr C → PageRef → Multiset Claim
  | .putPage p => one p .ref
  | .pageCacheRelease p => one p .test
  | .pageCacheReleaseLocked p => one p .del
  | .freePages ps => each ps .gone
  | .releasePages todo toFree => each todo .ref + each toFree .gone
  | .releaseLru p todo toFree => one p .test + (each todo .ref + each toFree .gone)
  | .releaseLocked p todo toFree => one p .del + (each todo .ref + each toFree .gone)
  | .lruCacheAddLru p lru _ => one p (.held (adds lru))
  | .pagevecLruAdd todo done lru => each todo (.held (awaits lru)) + each done .ref
  | .lruAddDrain => 0
  | .drainAdd _ _ => 0
  | .drainRotate _ => 0
  | .pagevecMoveTail todo done => each todo .ref + each done .ref
  | .rotateReclaimablePage p => one p .ref
  | .activatePage p => one p .ref
  | .isolateLruPage p _ => one p .ref
  | .isolateLruPageLocked p _ => one p .ref
  | .returnRef p => one p .ref
  | .putbackLruPage p => one p (.held offLru)
  | .putbackRedo p _ => one p (.held offLru)
  | .addPageToUnevictableList p _ => one p (.held offLru)
  | .putbackRecheck p _ => one p .ref
  | .isolatePages z _ active file dst => each dst (.held (isolated z (some active) (some file)))
  | .updateIsolatedCounts z pages => each pages (.held (isolated z none none))
  | .shrinkPageList z todo ret toFree =>
    each todo (.held (isolated z (some false) none)) +
      (each ret (.held (isolated z none none)) + each toFree .gone)
  | .releaseBuffers z p todo ret toFree =>
    one p (.held (isolated z (some false) none)) +
      (each todo (.held (isolated z (some false) none)) +
        (each ret (.held (isolated z none none)) + each toFree .gone))
  | .removeMapping z p todo ret toFree =>
    one p (.frozen (isolated z (some false) none)) +
      (each todo (.held (isolated z (some false) none)) +
        (each ret (.held (isolated z none none)) + each toFree .gone))
  | .putbackLruPages z todo pvec =>
    each todo (.held (isolated z none none)) + each pvec .ref
  | .shrinkActiveList z file hold active inactive =>
    each hold (.held (isolated z (some true) (some file))) +
      (each active (.held (isolated z (some true) (some file))) +
        each inactive (.held (isolated z (some false) (some file))))
  | .moveActivePagesToLru _ [] _ _ => 0
  | .moveActivePagesToLru z list lru pvec =>
    each list (.held (isolatedFor z lru)) + each pvec .ref
  | .hatePage _ => 0
  | .hatePageLocked _ => 0
  | .checkMoveUnevictablePage _ => 0

variable {c : Claim} {p : PageRef} {ps ps' : List PageRef}

@[simp] theorem each_nil : each [] c = 0 := by
  funext q
  rw [each, List.count_nil, zero_nsmul]
  rfl

@[simp] theorem each_cons : each (p :: ps) c = one p c + each ps c := by
  funext q
  by_cases hq : q = p
  · subst hq
    rw [each, List.count_cons_self, succ_nsmul', Pi.add_apply, one, Pi.single_eq_same, each]
  · rw [each, List.count_cons_of_ne (Ne.symm hq), Pi.add_apply, one, Pi.single_eq_of_ne hq, zero_add,
      each]

@[simp] theorem each_append : each (ps ++ ps') c = each ps c + each ps' c := by
  funext q
  rw [each, List.count_append, add_nsmul, Pi.add_apply, each, each]

end Claims

/-! ## Flags -/

section Flags

variable (x : Page)

@[simp] theorem lruFlags_count (n : ℤ) : lruFlags { x with count := n } = lruFlags x := rfl

@[simp] theorem setBit_count (f : PageFlag) : (x.setBit f).count = x.count := rfl

@[simp] theorem clearBit_count (f : PageFlag) : (x.clearBit f).count = x.count := rfl

@[simp] theorem lruFlags_setLru : lruFlags (x.setBit .lru) = { lruFlags x with lru := true } := by
  simp [lruFlags, Page.isFileCache]

@[simp] theorem lruFlags_clearLru : lruFlags (x.clearBit .lru) = { lruFlags x with lru := false } := by
  simp [lruFlags, Page.isFileCache]

@[simp] theorem lruFlags_setActive :
    lruFlags (x.setBit .active) = { lruFlags x with active := true } := by
  simp [lruFlags, Page.isFileCache]

@[simp] theorem lruFlags_clearActive :
    lruFlags (x.clearBit .active) = { lruFlags x with active := false } := by
  simp [lruFlags, Page.isFileCache]

@[simp] theorem lruFlags_setUnevictable :
    lruFlags (x.setBit .unevictable) = { lruFlags x with unevictable := true } := by
  simp [lruFlags, Page.isFileCache]

@[simp] theorem lruFlags_clearUnevictable :
    lruFlags (x.clearBit .unevictable) = { lruFlags x with unevictable := false } := by
  simp [lruFlags, Page.isFileCache]

@[simp] theorem lruFlags_clearReferenced : lruFlags (x.clearBit .referenced) = lruFlags x := by
  simp [lruFlags, Page.isFileCache]

/-- The lists of the pages that are evictable. -/
theorem lruBaseType_spec :
    isActiveLru x.lruBaseType = false ∧ isFileLru x.lruBaseType = x.isFileCache ∧
      x.lruBaseType < lruUnevictable ∧ isActiveLru (x.lruBaseType + lruActive) = true ∧
        isFileLru (x.lruBaseType + lruActive) = x.isFileCache ∧
          x.lruBaseType + lruActive < lruUnevictable := by
  rw [Page.lruBaseType]
  cases x.linked <;> cases x.isFileCache <;> decide

/-- The list that `putback_lru_page` has an evictable page put on. -/
theorem evictableList_spec (active : Bool) :
    isFileLru ((if active then lruActive else lruBase) + x.lruBaseType) = x.isFileCache ∧
      (if active then lruActive else lruBase) + x.lruBaseType < lruUnevictable := by
  rw [Page.lruBaseType]
  cases active <;> cases x.linked <;> cases x.isFileCache <;> decide

/-- The list that reclaim takes its pages from. -/
theorem isolatedList_spec (active file : Bool) :
    Reclaim.isolatedList active file ≠ lruUnevictable ∧
      isActiveLru (Reclaim.isolatedList active file) = active ∧
        isFileLru (Reclaim.isolatedList active file) = file := by
  cases active <;> cases file <;> decide

/-- A page of the list that is scanned, when it has been isolated. -/
theorem isolated_of_onList {z : ZoneRef} {active file : Bool}
    (h : (lruFlags x).OnList (Reclaim.isolatedList active file)) :
    isolated z (some active) (some file) z (lruFlags (x.clearBit .lru)) := by
  obtain ⟨hu, ha, hfile, -⟩ := h
  obtain ⟨hne, hactive, hfile'⟩ := isolatedList_spec active file
  have hu := hu.trans (decide_eq_false hne)
  rw [lruFlags_clearLru]
  refine ⟨rfl, rfl, hu, fun b hb => ?_, fun b hb => ?_⟩
  · rw [← Option.mem_some.1 hb]
    exact ha.trans hactive
  · rw [← Option.mem_some.1 hb]
    exact (hfile hu).trans hfile'

/-- `__isolate_lru_page`, for a page of the list that is scanned. -/
theorem isolateLruPage_eq {active file : Bool}
    (h : (lruFlags x).OnList (Reclaim.isolatedList active file))
    (hl : x.testBit .lru = true) :
    x.isolateLruPage (if active then .active else .inactive) file =
      if x.count ≠ 0 then (Page.clearBit { x with count := x.count + 1 } .lru, 0)
      else (x, -Mm.ebusy) := by
  obtain ⟨hu, ha, hfile, -⟩ := h
  obtain ⟨hne, hactive, hfile'⟩ := isolatedList_spec active file
  have hu : x.testBit .unevictable = false := hu.trans (decide_eq_false hne)
  have ha : x.testBit .active = active := ha.trans hactive
  have hfile : x.isFileCache = file := (hfile hu).trans hfile'
  rw [Page.isolateLruPage, hl, ha, hfile, hu]
  cases active <;> simp

theorem lruBaseType_congr {x y : Page} (hc : x.chain = y.chain) (hf : x.isFileCache = y.isFileCache) :
    x.lruBaseType = y.lruBaseType := by
  rw [Page.lruBaseType, Page.lruBaseType, hf, Page.linked, Page.linked, hc]

@[simp] theorem setActive_lruBaseType : (x.setBit .active).lruBaseType = x.lruBaseType :=
  lruBaseType_congr rfl (by simp [Page.isFileCache])

@[simp] theorem clearActive_lruBaseType : (x.clearBit .active).lruBaseType = x.lruBaseType :=
  lruBaseType_congr rfl (by simp [Page.isFileCache])

@[simp] theorem clearUnevictable_lruBaseType : (x.clearBit .unevictable).lruBaseType = x.lruBaseType :=
  lruBaseType_congr rfl (by simp [Page.isFileCache])

@[simp] theorem clearReferenced_lruBaseType : (x.clearBit .referenced).lruBaseType = x.lruBaseType :=
  lruBaseType_congr rfl (by simp [Page.isFileCache])

/-- The flags of an inactive page are those of its base list. -/
theorem onList_lruBaseType (hu : x.testBit .unevictable = false) (ha : x.testBit .active = false) :
    (lruFlags x).OnList x.lruBaseType := by
  obtain ⟨h₁, h₂, h₃, -⟩ := lruBaseType_spec x
  refine ⟨?_, ha.trans h₁.symm, fun _ => h₂.symm, h₃.trans (by decide)⟩
  rw [decide_eq_false h₃.ne]
  exact hu

/-- The flags of an active page are those of its active list. -/
theorem onList_active (hu : x.testBit .unevictable = false) (ha : x.testBit .active = true) :
    (lruFlags x).OnList (x.lruBaseType + lruActive) := by
  obtain ⟨-, -, -, h₁, h₂, h₃⟩ := lruBaseType_spec x
  refine ⟨?_, ha.trans h₁.symm, fun _ => h₂.symm, h₃.trans (by decide)⟩
  rw [decide_eq_false h₃.ne]
  exact hu

/-- The flags of an evictable page are those of `page_lru`. -/
theorem onList_lruList (hu : x.testBit .unevictable = false) : (lruFlags x).OnList x.lruList := by
  rw [Page.lruList, hu, if_neg Bool.false_ne_true]
  split_ifs with ha
  · exact onList_active x hu ha
  · exact onList_lruBaseType x hu (by simpa using ha)

/-- The flags of an unevictable page are those of the unevictable list. -/
theorem onList_unevictable (hu : x.testBit .unevictable = true) (ha : x.testBit .active = false) :
    (lruFlags x).OnList lruUnevictable :=
  ⟨hu.trans (by decide), ha.trans (by decide), fun h => absurd (hu.symm.trans h) (by simp), by decide⟩

/-- A page that has been taken off its list has no flag of it. -/
theorem clean_clearListFlag {l : ℕ} (h : (lruFlags x).OnList l) :
    (lruFlags (clearListFlag x)).lru = x.testBit .lru ∧
      (lruFlags (clearListFlag x)).active = false ∧
        (lruFlags (clearListFlag x)).unevictable = false := by
  obtain ⟨hu, ha, -⟩ := h
  rw [clearListFlag]
  split_ifs with hx hx'
  · rw [show (lruFlags x).unevictable = true from hx, eq_comm, decide_eq_true_eq] at hu
    rw [hu] at ha
    rw [lruFlags_clearUnevictable]
    exact ⟨rfl, ha.trans (by decide), rfl⟩
  · rw [lruFlags_clearActive]
    exact ⟨rfl, rfl, Bool.eq_false_iff.2 hx⟩
  · exact ⟨rfl, Bool.eq_false_iff.2 hx', Bool.eq_false_iff.2 hx⟩

theorem clearListFlag_lruBaseType : (clearListFlag x).lruBaseType = x.lruBaseType := by
  rw [clearListFlag]
  split_ifs
  · exact clearUnevictable_lruBaseType x
  · exact clearActive_lruBaseType x
  · rfl

@[simp] theorem clearListFlag_count : (clearListFlag x).count = x.count := by
  rw [clearListFlag]
  split_ifs
  all_goals rfl

@[simp] theorem clearListFlag_file : (lruFlags (clearListFlag x)).file = x.isFileCache := by
  rw [clearListFlag]
  split_ifs
  · rw [lruFlags_clearUnevictable]
    rfl
  · rw [lruFlags_clearActive]
    rfl
  · rfl

end Flags

/-! ## Lists -/

section Lists

variable [DecidableEq C] {s : Cache C} {home : PageRef → Option (Place C)} {p : PageRef} {z : ZoneRef}
  {l : ℕ}

/-- A page on a list of the zone is deleted from it. -/
theorem listDel_eq (hm : Members home s.list) (hh : home p = some (.lru z l)) (hl : l < nrLruLists) :
    s.listDel p z = .ok { s with
      list := Function.update s.list (.lru z l) ((s.list (.lru z l)).erase p) } := by
  have hmem : p ∈ s.list (.lru z l) := (hm.mem_iff p _).2 hh
  have hon : s.onLru p z = true :=
    List.any_eq_true.2 ⟨l, List.mem_range.2 hl, decide_eq_true hmem⟩
  rw [Cache.listDel, if_pos hon]
  congr 2
  funext k
  by_cases hk : k = .lru z l
  · subst hk
    rw [Function.update_self]
    exact if_pos rfl
  · rw [Function.update_of_ne hk]
    match k with
    | .pvec _ _ => rfl
    | .lru z' l' =>
      simp only
      split_ifs with hz
      · refine List.erase_of_not_mem fun hp => hk ?_
        exact hm.eq_of_mem hp hmem
      · rfl

end Lists

theorem modifyPage_modifyPage (s : Cache C) (p : PageRef) (f g : Page → Page) :
    (s.modifyPage p f).modifyPage p g = s.modifyPage p fun x => g (f x) := by
  simp [Cache.modifyPage]

@[simp] theorem modifyPage_page (s : Cache C) (p : PageRef) (f : Page → Page) :
    (s.modifyPage p f).page p = f (s.page p) := Function.update_self ..

/-! ## The invariant -/

variable [Fintype C]

/-- What the threads share about a page, if it waits at its home. -/
def Cache.view (s : Cache C) (home : PageRef → Option (Place C)) (p : PageRef) : View C :=
  ⟨(s.page p).count, lruFlags (s.page p), s.users p, s.cached p, s.free p, s.off p,
    ∑ c, (s.rotatePvec c).count p, home p⟩

/-- Each page waits in one place at most, and what is claimed of it is valid. -/
def Inv (m : Machine) (s : Cache C) (R : PageRef → Multiset Claim) : Prop :=
  ∃ home, Members home s.list ∧ ∀ p, Valid (m.zone p) (s.view home p) (R p)

/-- The claim of an instruction to a page, and what is claimed of it besides. -/
theorem Inv.head {m : Machine} {s : Cache C} {p : PageRef} {c : Claim} {R : PageRef → Multiset Claim}
    (h : Inv m s (one p c + R)) :
    ∃ home, Members home s.list ∧ (∀ q, Valid (m.zone q) (s.view home q) ((one p c + R) q)) ∧
      Valid (m.zone p) (s.view home p) (c ::ₘ R p) := by
  obtain ⟨home, hm, hv⟩ := h
  have hp := hv p
  rw [Pi.add_apply, one, Pi.single_eq_same, Multiset.singleton_add] at hp
  exact ⟨home, hm, hv, hp⟩

/-- The page `p` is changed, as given by its view, and possibly moved. -/
structure Alters (p : PageRef) (s : Cache C) (home : PageRef → Option (Place C)) (s' : Cache C)
    (home' : PageRef → Option (Place C)) (g : View C → View C) : Prop where
  members : Members home' s'.list
  view : s'.view home' = Function.update (s.view home) p (g (s.view home p))

section Alters

variable {m : Machine} {s s' s'' : Cache C} {home home' home'' : PageRef → Option (Place C)}
  {p : PageRef} {c c' : Claim} {R : PageRef → Multiset Claim} {g g' : View C → View C}

/-- The page is altered twice. -/
theorem Alters.trans (h : Alters p s home s' home' g) (h' : Alters p s' home' s'' home'' g') :
    Alters p s home s'' home'' fun v => g' (g v) where
  members := h'.members
  view := by rw [h'.view, h.view, Function.update_idem, Function.update_self]

theorem Alters.refl (hm : Members home s.list) : Alters p s home s home id where
  members := hm
  view := by rw [id, Function.update_eq_self]

/-- The flags and the count are set. -/
theorem Alters.modifyPage (hm : Members home s.list) (f : Page → Page) :
    Alters p s home (s.modifyPage p f) home fun v =>
      { v with count := (f (s.page p)).count, flags := lruFlags (f (s.page p)) } where
  members := hm
  view := by
    funext q
    by_cases hq : q = p
    · subst hq
      simp [Cache.view, Cache.modifyPage]
    · simp [Cache.view, Cache.modifyPage, hq]

theorem Alters.addCount (hm : Members home s.list) (n : ℤ) :
    Alters p s home (s.addCount p n) home fun v => { v with count := v.count + n } where
  members := hm
  view := (Alters.modifyPage hm fun x => { x with count := x.count + n }).view

theorem Alters.setOff (hm : Members home s.list) (b : Bool) :
    Alters p s home (s.setOff p b) home fun v => { v with off := b } where
  members := hm
  view := by
    funext q
    by_cases hq : q = p
    · subst hq
      simp [Cache.view, Cache.setOff]
    · simp [Cache.view, Cache.setOff, hq]

theorem Alters.setFree (hm : Members home s.list) (b : Bool) :
    Alters p s home (s.setFree p b) home fun v => { v with free := b } where
  members := hm
  view := by
    funext q
    by_cases hq : q = p
    · subst hq
      simp [Cache.view, Cache.setFree]
    · simp [Cache.view, Cache.setFree, hq]

theorem Alters.setCached (hm : Members home s.list) (b : Bool) :
    Alters p s home (s.setCached p b) home fun v => { v with cached := b } where
  members := hm
  view := by
    funext q
    by_cases hq : q = p
    · subst hq
      simp [Cache.view, Cache.setCached]
    · simp [Cache.view, Cache.setCached, hq]

theorem Alters.setUsers (hm : Members home s.list) (n : ℕ) :
    Alters p s home (s.setUsers p n) home fun v => { v with users := n } where
  members := hm
  view := by
    funext q
    by_cases hq : q = p
    · subst hq
      simp [Cache.view, Cache.setUsers]
    · simp [Cache.view, Cache.setUsers, hq]

/-- The page is put on another list, or taken off its list. -/
theorem Alters.setHome {k : Option (Place C)} {L : Place C → List PageRef}
    (hm : Members (Function.update home p k) L) :
    Alters p s home { s with list := L } (Function.update home p k) fun v => { v with home := k } where
  members := hm
  view := by
    funext q
    by_cases hq : q = p
    · subst hq
      simp [Cache.view]
    · simp [Cache.view, hq]

variable [DecidableEq C]

/-- A page is put at the head of a list. -/
theorem Alters.place (hm : Members home s.list) (hp : home p = none) (z : ZoneRef) (l : ℕ) :
    Alters p s home (s.addPageToLruList p z l) (Function.update home p (some (.lru z l)))
      fun v => { v with home := some (.lru z l) } :=
  .setHome (hm.attach hp _)

/-- A page is put at the end of a list, or of a pagevec. -/
theorem Alters.append (hm : Members home s.list) (hp : home p = none) (k : Place C) :
    Alters p s home (s.setList k (s.list k ++ [p])) (Function.update home p (some k))
      fun v => { v with home := some k } :=
  .setHome (hm.append hp k)

/-- A page is deleted from the list that it is on. -/
theorem Alters.listDel (hm : Members home s.list) {z : ZoneRef} {l : ℕ}
    (hp : home p = some (.lru z l)) (hl : l < nrLruLists) :
    ∃ s', s.listDel p z = .ok s' ∧ s'.page = s.page ∧
      Alters p s home s' (Function.update home p none) fun v => { v with home := none } :=
  ⟨_, listDel_eq hm hp hl, rfl, .setHome (hm.detach hp)⟩

/-- The page is taken off its LRU list, and loses the flag of the list. -/
theorem Alters.delPageFromLru (hm : Members home s.list) {z : ZoneRef} {l : ℕ}
    (hp : home p = some (.lru z l)) (hl : l < nrLruLists) :
    ∃ s', s.delPageFromLru p z = .ok s' ∧ s'.page p = clearListFlag (s.page p) ∧
      Alters p s home s' (Function.update home p none) fun v =>
        { v with flags := lruFlags (clearListFlag (s.page p)), home := none } := by
  obtain ⟨s', hs', hpage, ha⟩ := Alters.listDel hm hp hl
  refine ⟨s'.modifyPage p clearListFlag, by rw [Cache.delPageFromLru, hs']; rfl, ?_, ?_⟩
  · simp only [Cache.modifyPage, Function.update_self, hpage]
  · have h := ha.trans (.modifyPage ha.members clearListFlag)
    rw [hpage] at h
    refine ⟨h.members, h.view.trans ?_⟩
    simp [Cache.view]

omit [DecidableEq C]

/-- A step that concerns one page, and what is claimed of it. -/
theorem Inv.of_alters {X X' : Multiset Claim}
    (hv : ∀ q, Valid (m.zone q) (s.view home q) (((Pi.single p X : PageRef → _) + R) q))
    (ha : Alters p s home s' home' g)
    (hp : Valid (m.zone p) (s.view home p) (X + R p) →
      Valid (m.zone p) (g (s.view home p)) (X' + R p)) :
    Inv m s' (Pi.single p X' + R) := by
  refine ⟨home', ha.members, fun q => ?_⟩
  have hq := hv q
  rw [ha.view]
  by_cases hqp : q = p
  · subst hqp
    rw [Pi.add_apply, Pi.single_eq_same] at hq ⊢
    rw [Function.update_self]
    exact hp hq
  · rw [Pi.add_apply, Pi.single_eq_of_ne hqp, zero_add] at hq ⊢
    rw [Function.update_of_ne hqp]
    exact hq

/-- A claim to the page is replaced by another one. -/
theorem Inv.change (hv : ∀ q, Valid (m.zone q) (s.view home q) ((one p c + R) q))
    (ha : Alters p s home s' home' g)
    (hp : Valid (m.zone p) (s.view home p) (c ::ₘ R p) →
      Valid (m.zone p) (g (s.view home p)) (c' ::ₘ R p)) : Inv m s' (one p c' + R) :=
  .of_alters hv ha (by simpa only [Multiset.singleton_add] using hp)

/-- A claim to the page ends. -/
theorem Inv.finish (hv : ∀ q, Valid (m.zone q) (s.view home q) ((one p c + R) q))
    (ha : Alters p s home s' home' g)
    (hp : Valid (m.zone p) (s.view home p) (c ::ₘ R p) →
      Valid (m.zone p) (g (s.view home p)) (R p)) : Inv m s' R := by
  have hinv : Inv m s' (Pi.single p (0 : Multiset Claim) + R) :=
    .of_alters hv ha (by simpa only [Multiset.singleton_add, zero_add] using hp)
  rwa [Pi.single_zero, zero_add] at hinv

/-- Something is claimed of the page. -/
theorem Inv.start (hv : ∀ q, Valid (m.zone q) (s.view home q) (R q))
    (ha : Alters p s home s' home' g)
    (hp : Valid (m.zone p) (s.view home p) (R p) →
      Valid (m.zone p) (g (s.view home p)) (c ::ₘ R p)) : Inv m s' (one p c + R) := by
  refine Inv.of_alters (X := 0) (fun q => ?_) ha ?_
  · rw [Pi.single_zero, zero_add]
    exact hv q
  · simpa only [Multiset.singleton_add, zero_add] using hp

/-- The page changes, and what is claimed of it does not. -/
theorem Inv.same (hv : ∀ q, Valid (m.zone q) (s.view home q) (R q))
    (ha : Alters p s home s' home' g)
    (hp : Valid (m.zone p) (s.view home p) (R p) → Valid (m.zone p) (g (s.view home p)) (R p)) :
    Inv m s' R := by
  have hinv : Inv m s' (Pi.single p (0 : Multiset Claim) + R) := by
    refine Inv.of_alters (X := 0) (fun q => ?_) ha ?_
    · rw [Pi.single_zero, zero_add]
      exact hv q
    · simpa only [zero_add] using hp
  rwa [Pi.single_zero, zero_add] at hinv

end Alters

end Mcpq.Kernel.LruCache
