import Mcpq.Kernel.Links

/-!
# LRU lists

What the functions that move pages between the LRU lists of a zone do to the lists, to their counters,
and to the pages (`mm_inline.h`, `swap.c`, `vmscan.c`): a page that is taken off its list is charged to
the list it should be on (`page_lru`). A page that is linked or unlinked stays on the list it is on
(`linkPage_changes`, `unlinkPage_changes`).
-/

namespace Mcpq.Kernel

/-! ## Zones -/

namespace Zone

variable {z : Zone} {p q : PageRef} {l k : ℕ} {on : PageRef → Bool}

/-- By how much the counter of a list exceeds the length of the list. -/
def surplus (z : Zone) (l : ℕ) : ℤ := z.nr l - (z.list l).length

/-- The lists have no page twice, and the pages on a list are those that are `on`. -/
def Lists (z : Zone) (on : PageRef → Bool) : Prop :=
  ∃ home, Members home z.list ∧ ∀ p, (home p).isSome = on p

/-- A page is on one list at most. -/
theorem Lists.eq_of_mem (h : z.Lists on) (hl : p ∈ z.list l) (hk : p ∈ z.list k) : l = k := by
  obtain ⟨home, hm, -⟩ := h
  exact hm.eq_of_mem hl hk

/-- The same pages are on the lists. -/
theorem Lists.congr (h : z.Lists on) {on' : PageRef → Bool} (heq : ∀ p, on' p = on p) :
    z.Lists on' := by
  obtain ⟨home, hm, hon⟩ := h
  exact ⟨home, hm, fun p => (hon p).trans (heq p).symm⟩

/-- One page is changed. -/
theorem isSome_update {α : Type*} (home : PageRef → Option α) (p : PageRef) (o : Option α) :
    (fun q => (Function.update home p o q).isSome) =
      Function.update (fun q => (home q).isSome) p o.isSome := by
  funext q
  by_cases hq : q = p
  · rw [hq, Function.update_self, Function.update_self]
  · rw [Function.update_of_ne hq, Function.update_of_ne hq]

/-- A page is added to a list. -/
theorem Lists.add (h : z.Lists on) (hp : on p = false) (l : ℕ) :
    (z.addPageToLruList p l).Lists (Function.update on p true) ∧
      ∀ k, (z.addPageToLruList p l).surplus k = z.surplus k := by
  obtain ⟨home, hm, hon⟩ := h
  have hhome : home p = none := by rw [← Option.not_isSome_iff_eq_none, hon, hp]; simp
  refine ⟨⟨_, hm.attach hhome l, fun q => ?_⟩, fun k => ?_⟩
  · rw [← funext hon]
    exact congrFun (isSome_update home p (some l)) q
  · rw [surplus, surplus, addPageToLruList, modState]
    by_cases hk : k = l
    · subst hk
      simp only [Function.update_self, List.length_cons]
      push_cast
      ring
    · simp only [Function.update_of_ne hk]

/-- A page is taken off its list, which is `k`, and charged to the list `l`. -/
theorem Lists.del (h : z.Lists on) (hp : on p = true) (l : ℕ) :
    ∃ k, p ∈ z.list k ∧ (z.delPageFromLruList p l).Lists (Function.update on p false) ∧
      ∀ j, (z.delPageFromLruList p l).surplus j =
        z.surplus j + (if j = k then 1 else 0) - (if j = l then 1 else 0) := by
  obtain ⟨home, hm, hon⟩ := h
  obtain ⟨k, hk⟩ : ∃ k, home p = some k := Option.isSome_iff_exists.1 ((hon p).trans hp)
  have hmem : p ∈ z.list k := (hm.mem_iff p k).2 hk
  have herase : (fun l => (z.list l).erase p) = Function.update z.list k ((z.list k).erase p) := by
    funext j
    by_cases hj : j = k
    · rw [hj, Function.update_self]
    · rw [Function.update_of_ne hj, List.erase_of_not_mem fun hpj => hj (hm.eq_of_mem hpj hmem)]
  have hlist : (z.delPageFromLruList p l).list = Function.update z.list k ((z.list k).erase p) :=
    herase
  refine ⟨k, hmem, ⟨_, hlist ▸ hm.detach hk, fun q => ?_⟩, fun j => ?_⟩
  · rw [← funext hon]
    exact congrFun (isSome_update home p none) q
  · have hnr : (z.delPageFromLruList p l).nr j = z.nr j - (if j = l then 1 else 0) := by
      rw [delPageFromLruList, modState]
      by_cases hj : j = l
      · subst hj
        simp only [Function.update_self, if_true]
        rfl
      · simp only [Function.update_of_ne hj, if_neg hj, sub_zero]
        rfl
    have hlen : (((z.delPageFromLruList p l).list j).length : ℤ) =
        (z.list j).length - (if j = k then 1 else 0) := by
      rw [hlist]
      by_cases hj : j = k
      · subst hj
        have := List.length_pos_of_mem hmem
        rw [Function.update_self, List.length_erase_of_mem hmem, if_pos rfl]
        omega
      · rw [Function.update_of_ne hj, if_neg hj, sub_zero]
    rw [surplus, surplus, hnr, hlen]
    ring

/-- The counters stay right when a page is taken off its list exactly if it is charged to that list. -/
theorem Lists.del_surplus (h : z.Lists on) (hp : on p = true) (hz : ∀ j, z.surplus j = 0) (l : ℕ) :
    (∀ j, (z.delPageFromLruList p l).surplus j = 0) ↔ p ∈ z.list l := by
  obtain ⟨k, hk, -, hs⟩ := h.del hp l
  simp only [hs, hz, zero_add]
  constructor
  · intro hj
    have hkl : k = l := by
      by_contra hne
      have := hj k
      simp [hne] at this
    exact hkl ▸ hk
  · intro hl j
    rw [h.eq_of_mem hk hl, sub_self]

end Zone

/-! ## Operations -/

namespace Mm

/-- A page is put back on the list it should be on, as in the loop of `putback_lru_pages`. -/
def putbackPage (s : Mm) (p : PageRef) : Result Mm :=
  if (s.page p).testBit .lru then .error .bug
  else
    let s := s.modifyPage p (·.setBit .lru)
    let lru := (s.page p).lruList
    .ok { s with zone := s.zone.addPageToLruList p lru }

/-- `EBUSY`. -/
def ebusy : ℤ := 16

/-- `isolate_lru_page`, with the value returned. -/
def isolateLruPage (s : Mm) (p : PageRef) : Mm × ℤ :=
  if (s.page p).testBit .lru then
    -- `get_page_unless_zero`
    if (s.page p).testBit .lru && decide ((s.page p).count ≠ 0) then
      let s := s.modifyPage p fun page => { page with count := page.count + 1 }
      let lru := (s.page p).lruList
      let s := s.modifyPage p (·.clearBit .lru)
      ({ s with zone := s.zone.delPageFromLruList p lru }, 0)
    else (s, -ebusy)
  else (s, -ebusy)

/-- `del_page_from_lru`. -/
def delPageFromLru (s : Mm) (p : PageRef) : Mm :=
  let s := { s with zone := s.zone.listDel p }
  if (s.page p).testBit .unevictable then
    let s := s.modifyPage p (·.clearBit .unevictable)
    { s with zone := s.zone.modState lruUnevictable (-1) }
  else
    let l := (s.page p).lruBaseType
    if (s.page p).testBit .active then
      let s := s.modifyPage p (·.clearBit .active)
      { s with zone := s.zone.modState (l + lruActive) (-1) }
    else { s with zone := s.zone.modState l (-1) }

/-- `__page_cache_release`. -/
def pageCacheRelease (s : Mm) (p : PageRef) : Mm :=
  if (s.page p).testBit .lru then (s.modifyPage p (·.clearBit .lru)).delPageFromLru p else s

end Mm

namespace Page

/-- `activate_page` moves the page. -/
def activates (p : Page) : Bool := p.testBit .lru && !p.testBit .active && !p.testBit .unevictable

/-- The kind of a page depends on its chain and on `PG_swapbacked` only. -/
theorem lruBaseType_congr {p q : Page} (hc : p.chain = q.chain)
    (hs : p.testBit .swapbacked = q.testBit .swapbacked) : p.lruBaseType = q.lruBaseType := by
  rw [lruBaseType, lruBaseType, linked, linked, isFileCache, isFileCache, hc, hs]

/-- The flags `PG_lru` and `PG_referenced` do not matter. -/
theorem lruList_congr {p q : Page} (hc : p.chain = q.chain)
    (hf : ∀ f, f ≠ .lru → f ≠ .referenced → p.testBit f = q.testBit f) : p.lruList = q.lruList := by
  rw [lruList, lruList, hf .unevictable (by simp) (by simp), hf .active (by simp) (by simp),
    lruBaseType_congr hc (hf .swapbacked (by simp) (by simp))]

/-- A page that can be activated is on the inactive list of its kind. -/
theorem lruList_of_activates {p : Page} (h : p.activates = true) : p.lruList = p.lruBaseType := by
  simp only [activates, Bool.and_eq_true, Bool.not_eq_true'] at h
  rw [lruList, if_neg (by simp [h.2]), if_neg (by simp [h.1.2])]

/-- A page that an access promotes can be activated. -/
theorem activates_of_promotes {p : Page} (h : p.promotes = true) : p.activates = true := by
  simp only [promotes, Bool.and_eq_true] at h
  simp only [activates, h, Bool.and_true]

end Page

namespace Mm

variable {s s' s₁ : Mm} {p q : PageRef} {c d : ChainRef} {m : MemoryChain}

/-- What an operation on the page `p` does: the page becomes `x`, and the zone `z`. -/
structure Changes (s s' : Mm) (p : PageRef) (x : Page) (z : Zone) : Prop where
  page_eq : s'.page = Function.update s.page p x
  zone_eq : s'.zone = z

/-- The zone after a page has been moved to the active list. -/
def movedZone (s : Mm) (p : PageRef) : Zone :=
  (s.zone.delPageFromLruList p (s.page p).lruBaseType).addPageToLruList p
    ((s.page p).lruBaseType + lruActive)

/-- The page moves to the active list, if it can be activated. -/
theorem activatePage_changes (s : Mm) (p : PageRef) : Changes s (s.activatePage p) p
    (if (s.page p).activates then (s.page p).setBit .active else s.page p)
    (if (s.page p).activates then s.movedZone p else s.zone) := by
  rw [activatePage, Page.activates]
  split_ifs
  · exact ⟨rfl, rfl⟩
  · exact ⟨(Function.update_eq_self ..).symm, rfl⟩

/-- The page is taken off its list. -/
theorem delPageFromLru_changes (s : Mm) (p : PageRef) :
    ∃ x : Page, x.testBit .lru = (s.page p).testBit .lru ∧ x.chain = (s.page p).chain ∧
      Changes s (s.delPageFromLru p) p x (s.zone.delPageFromLruList p (s.page p).lruList) ∧
      (s.delPageFromLru p).chain = s.chain ∧ (s.delPageFromLru p).allocated = s.allocated := by
  rw [delPageFromLru, Page.lruList]
  dsimp only
  split_ifs
  · exact ⟨(s.page p).clearBit .unevictable, by simp, rfl, ⟨rfl, rfl⟩, rfl, rfl⟩
  · exact ⟨(s.page p).clearBit .active, by simp, rfl, ⟨rfl, rfl⟩, rfl, rfl⟩
  · exact ⟨s.page p, rfl, rfl, ⟨(Function.update_eq_self ..).symm, rfl⟩, rfl, rfl⟩

/-! ## What the operations do to the zone -/

/-- No chain has an anchor. -/
def Unanchored (s : Mm) : Prop := ∀ c m, s.chain c = some m → m.anchor = none

/-- What a function does that leaves the zone alone, and sets no anchor. -/
structure Quiet (s s' : Mm) : Prop where
  zone_eq : s'.zone = s.zone
  unanchored : s.Unanchored → s'.Unanchored

/-- Nothing has changed. -/
theorem Quiet.refl (s : Mm) : Quiet s s := ⟨rfl, id⟩

/-- One operation after the other. -/
theorem Quiet.trans (h₁ : Quiet s s₁) (h₂ : Quiet s₁ s') : Quiet s s' :=
  ⟨h₂.zone_eq.trans h₁.zone_eq, h₂.unanchored ∘ h₁.unanchored⟩

/-- The chain that is written has no anchor. -/
theorem Unanchored.setChain (h : s.Unanchored) {m : MemoryChain} (hm : m.anchor = none)
    (c : ChainRef) : (s.setChain c (some m)).Unanchored := fun d n hn => by
  by_cases hd : d = c
  · rw [hd, setChain_self] at hn
    exact Option.some.inj hn ▸ hm
  · rw [setChain_of_ne _ hd] at hn
    exact h d n hn

/-- A change of a chain that leaves its anchor. -/
theorem modifyChain_quiet {f : MemoryChain → MemoryChain} (hf : ∀ m, (f m).anchor = m.anchor)
    (heq : s.modifyChain c f = .ok s') : Quiet s s' := by
  rw [modifyChain] at heq
  obtain ⟨m, hm, heq⟩ := bind_eq_ok.1 heq
  obtain rfl := Except.ok.inj heq
  exact ⟨rfl, fun h => h.setChain ((hf m).trans (h c m (derefChain_eq_ok.1 hm))) c⟩

/-- Only the bit and the counter change. -/
theorem setPageReferenced_quiet (heq : s.setPageReferenced p = .ok s') : Quiet s s' := by
  suffices h : Quiet (s.modifyPage p (·.setBit .referenced)) s' from ⟨h.zone_eq, h.unanchored⟩
  rw [setPageReferenced] at heq
  split at heq
  · obtain rfl := Except.ok.inj heq
    exact .refl _
  · refine modifyChain_quiet ?_ heq
    exact fun _ => rfl

/-- Only the bit and the counter change. -/
theorem clearPageReferenced_quiet (heq : s.clearPageReferenced p = .ok s') : Quiet s s' := by
  suffices h : Quiet (s.modifyPage p (·.clearBit .referenced)) s' from ⟨h.zone_eq, h.unanchored⟩
  rw [clearPageReferenced] at heq
  split at heq
  · obtain rfl := Except.ok.inj heq
    exact .refl _
  · split_ifs at heq
    · refine modifyChain_quiet ?_ heq
      exact fun _ => rfl
    · obtain rfl := Except.ok.inj heq
      exact .refl _

/-- Only the counter and the delegate change. -/
theorem resetCounter_quiet (heq : s.resetCounter p = .ok s') : Quiet s s' := by
  rw [resetCounter] at heq
  split at heq
  · obtain rfl := Except.ok.inj heq
    exact .refl _
  · refine modifyChain_quiet ?_ heq
    exact fun _ => rfl

/-- An activation leaves the chains. -/
theorem activatePage_unanchored (h : s.Unanchored) (p : PageRef) :
    (s.activatePage p).Unanchored := by
  rw [activatePage]
  split_ifs
  · exact h
  · exact h

/-- Where the page moves to depends on the zone and on its kind. -/
theorem movedZone_congr (hz : s'.zone = s.zone)
    (hp : (s'.page p).lruBaseType = (s.page p).lruBaseType) : s'.movedZone p = s.movedZone p := by
  rw [movedZone, movedZone, hz, hp]

/-- A page that is accessed is moved if it is promoted. -/
theorem markPageAccessed_changes (h : s.Linked) (heq : s.markPageAccessed p = .ok s') :
    Changes s s' p (s.page p).accessed (if (s.page p).promotes then s.movedZone p else s.zone) ∧
      (s.Unanchored → s'.Unanchored) := by
  obtain ⟨s₀, heq₀, ht⟩ := markPageAccessed_spec h p
  obtain rfl := Except.ok.inj (heq₀.symm.trans heq)
  suffices hz : s₀.zone = (if (s.page p).promotes then s.movedZone p else s.zone) ∧
    (s.Unanchored → s₀.Unanchored) from ⟨⟨ht.page_eq, hz.1⟩, hz.2⟩
  obtain ⟨s₁, r, heq₁, hr, hr0, h₁⟩ := resetCounter_spec h p
  have hq₁ := resetCounter_quiet heq₁
  have hpage := h₁.page_self
  rw [markPageAccessed, heq₁] at heq
  simp only [ok_bind, hr, hpage] at heq
  have hr0' : decide (r ≠ 0) = ((s.page p).linked || (s.page p).referenced) := by
    rw [Bool.eq_iff_iff, decide_eq_true_iff, hr0]
  rw [hr0', ← Page.promotes] at heq
  cases hpr : (s.page p).promotes with
  | true =>
    rw [hpr, if_pos rfl] at heq
    obtain ⟨s₂, heq₂, heq⟩ := bind_eq_ok.1 heq
    -- The page is moved as it would be before its bit is set.
    obtain ⟨hq₂, x, hx, hpage₂⟩ : Quiet s₁ s₂ ∧ ∃ x : Page, (x = s.page p ∨
        x = (s.page p).setBit .referenced) ∧ s₂.page p = x := by
      split_ifs at heq₂
      · obtain ⟨s₃, heq₃, h₃⟩ := setPageReferenced_spec h₁.linked p
        obtain rfl := Except.ok.inj (heq₃.symm.trans heq₂)
        exact ⟨setPageReferenced_quiet heq₂, _, .inr (by rw [hpage]), h₃.page_self⟩
      · obtain rfl := Except.ok.inj heq₂
        exact ⟨.refl _, _, .inl rfl, hpage⟩
    have hact := Page.activates_of_promotes hpr
    obtain ⟨hactx, hbase⟩ : x.activates = true ∧ x.lruBaseType = (s.page p).lruBaseType := by
      rcases hx with rfl | rfl
      · exact ⟨hact, rfl⟩
      · exact ⟨by simpa [Page.activates] using hact, Page.lruBaseType_congr rfl (by simp)⟩
    have hmoved := (activatePage_changes s₂ p).zone_eq
    rw [hpage₂, hactx, if_pos rfl] at hmoved
    refine ⟨?_, fun hu => ?_⟩
    · rw [if_pos rfl, (clearPageReferenced_quiet heq).zone_eq, hmoved]
      exact movedZone_congr (hq₂.zone_eq.trans hq₁.zone_eq) (by rw [hpage₂, hbase])
    · exact (clearPageReferenced_quiet heq).unanchored
        (activatePage_unanchored (hq₂.unanchored (hq₁.unanchored hu)) p)
  | false =>
    rw [hpr, if_neg Bool.false_ne_true] at heq
    rw [if_neg Bool.false_ne_true]
    split_ifs at heq
    · have hq := hq₁.trans (setPageReferenced_quiet heq)
      exact ⟨hq.zone_eq, hq.unanchored⟩
    · obtain rfl := Except.ok.inj heq
      exact ⟨hq₁.zone_eq, hq₁.unanchored⟩

section

variable [Mlock]

/-- A page that is unlinked stays on its list. -/
theorem unlinkPage_changes (h : s.Linked) (hu : s.Unanchored) (heq : s.unlinkPage p = .ok s') :
    Changes s s' p { s.page p with chain := none } s.zone ∧ s'.Linked ∧ s'.Unanchored ∧
      s'.allocated = s.allocated := by
  have heq' := heq
  rw [unlinkPage] at heq
  split at heq
  · rename_i hp
    obtain rfl := Except.ok.inj heq
    refine ⟨⟨?_, rfl⟩, h, hu, rfl⟩
    rw [show ({ s.page p with chain := none } : Page) = s.page p by rw [← hp],
      Function.update_eq_self]
  · rename_i c hp
    obtain ⟨s₁, x, heq₁, -, h₁⟩ := unlinkPage_spec h hp
    obtain rfl := Except.ok.inj (heq₁.symm.trans heq')
    obtain ⟨m, hm, heq⟩ := bind_eq_ok.1 heq
    obtain ⟨m₁, hm₁, heq⟩ := bind_eq_ok.1 heq
    have hanchor : m₁.anchor = none := by
      rw [listDel] at hm₁
      split_ifs at hm₁
      obtain rfl := Except.ok.inj hm₁
      exact hu c m (derefChain_eq_ok.1 hm)
    have hne : m₁.anchor ≠ some p := by rw [hanchor]; simp
    simp only [if_neg hne] at heq
    rw [resetPage, Bool.false_and, if_neg Bool.false_ne_true] at heq
    obtain rfl := Except.ok.inj heq
    exact ⟨⟨rfl, rfl⟩, h₁.linked, Unanchored.setChain hu (by exact hanchor) c, rfl⟩

/-- A page that is linked stays on its list. -/
theorem linkPage_changes (h : s.Linked) (hu : s.Unanchored) (halloc : s.allocated p = true)
    (heq : s.linkPage c p = .ok s') :
    Changes s s' p { s.page p with chain := some c } s.zone ∧ s'.Linked ∧ s'.Unanchored ∧
      s'.allocated = s.allocated := by
  cases hp : s.home p with
  | some d =>
    obtain rfl : d = c := by
      by_contra hd
      cases (linkPage_of_other h hp hd).symm.trans heq
    obtain rfl := Except.ok.inj ((linkPage_of_mem hp).symm.trans heq)
    refine ⟨⟨?_, rfl⟩, h, hu, rfl⟩
    rw [show ({ s.page p with chain := some d } : Page) = s.page p by
      rw [← show (s.page p).chain = some d from hp], Function.update_eq_self]
  | none =>
    obtain ⟨m, hm⟩ := linkPage_live h heq
    obtain ⟨s₁, heq₁, h₁⟩ := linkPage_spec h hp hm halloc
    obtain rfl := Except.ok.inj (heq₁.symm.trans heq)
    obtain rfl := Except.ok.inj ((linkPage_of_none h hp hm).symm.trans heq)
    exact ⟨⟨h₁.page_eq, rfl⟩, h₁.linked,
      Unanchored.setChain (s := s.modifyPage p _) hu (by exact hu c m hm) c, rfl⟩

end

end Mm

end Mcpq.Kernel
