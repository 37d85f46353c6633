import Mcpq.Kernel.LruAccounting
import Mcpq.Kernel.Walk

/-!
# The pages that are hated

What the system call `hate` does to the memory, whatever the areas of the range are, and wherever a page
is mapped (`hate_effect`). Each page that is found is first marked as accessed. The pages that are on the
LRU lists, and not on a chain, are then made inactive and moved to the fronts of their inactive lists, the
one visited last first, so that nothing is left of the access. A list is scanned from its end, so that
they are reclaimed after the other pages of the list. The pages on chains are left with the access.
-/

namespace Mcpq.Kernel

namespace Page

variable (x : Page)

/-- A page that is hated: it is on the LRU lists, and not on a chain. -/
def hateable : Bool := x.testBit .lru && !x.linked

/-- What becomes of the page. -/
def hated : Page := ((x.clearBit .unevictable).clearBit .active).clearBit .referenced

/-- A page that is hated can be hated again. -/
@[simp] theorem hated_hateable : x.hated.hateable = x.hateable := by simp [hated, hateable, linked]

@[simp] theorem hated_chain : x.hated.chain = x.chain := rfl

@[simp] theorem hated_lruBaseType : x.hated.lruBaseType = x.lruBaseType :=
  lruBaseType_congr rfl (by simp [hated])

/-- The flags that are cleared do not matter. -/
theorem hated_congr {y : Page} (h : { y with flags := x.flags } = x)
    (hf : ∀ f, f ≠ .unevictable → f ≠ .active → f ≠ .referenced → y.flags f = x.flags f) :
    y.hated = x.hated := by
  have hflags : y.hated.flags = x.hated.flags := by
    funext f
    by_cases hr : f = .referenced
    · simp [hated, clearBit, hr]
    by_cases ha : f = .active
    · simp [hated, clearBit, ha]
    by_cases hu : f = .unevictable
    · simp [hated, clearBit, hu]
    simp [hated, clearBit, hr, ha, hu, hf f hu ha hr]
  calc y.hated = { y with flags := y.hated.flags } := rfl
    _ = { y with flags := x.hated.flags } := by rw [hflags]
    _ = { ({ y with flags := x.flags } : Page) with flags := x.hated.flags } := rfl
    _ = x.hated := by rw [h]; rfl

/-- Hating a page twice is hating it once. -/
@[simp] theorem hated_hated : x.hated.hated = x.hated :=
  x.hated_congr rfl fun f hu ha hr => by simp [hated, clearBit, hu, ha, hr]

/-- Nothing is left of an access. -/
@[simp] theorem accessed_hated : x.accessed.hated = x.hated := by
  rw [accessed]
  split_ifs
  · exact x.hated_congr rfl fun f _ ha hr => by simp [clearBit, setBit, ha, hr]
  · exact x.hated_congr rfl fun f _ _ hr => by simp [setBit, hr]

/-- An access changes two flags only. -/
theorem accessed_testBit {f : PageFlag} (ha : f ≠ .active) (hr : f ≠ .referenced) :
    x.accessed.testBit f = x.testBit f := by
  rw [accessed]
  split_ifs
  · simp [testBit, clearBit, setBit, ha, hr]
  · simp [testBit, setBit, hr]

/-- An access neither links a page nor takes it off its list. -/
@[simp] theorem accessed_hateable : x.accessed.hateable = x.hateable := by
  rw [hateable, hateable, x.accessed_testBit (by decide) (by decide), linked, linked, accessed_chain]

@[simp] theorem accessed_lruBaseType : x.accessed.lruBaseType = x.lruBaseType :=
  lruBaseType_congr x.accessed_chain (x.accessed_testBit (by decide) (by decide))

/-- The page after `k` accesses. -/
theorem accessed_iterate (k : ℕ) : (accessed^[k] x).hateable = x.hateable ∧
    (accessed^[k] x).hated = x.hated ∧ (accessed^[k] x).lruBaseType = x.lruBaseType ∧
      (accessed^[k] x).chain = x.chain := by
  induction k with
  | zero => exact ⟨rfl, rfl, rfl, rfl⟩
  | succ k ih =>
    rw [Function.iterate_succ_apply', accessed_hateable, accessed_hated, accessed_lruBaseType,
      accessed_chain]
    exact ih

/-- There is nothing to clear. -/
theorem clearBit_of_not {f : PageFlag} (h : x.testBit f = false) : x.clearBit f = x := by
  rw [clearBit, ← h]
  exact congrArg (fun flags => { x with flags := flags }) (Function.update_eq_self f x.flags)

end Page

/-- The chain without its counter and its delegate, which accesses set. -/
def MemoryChain.untouched (m : MemoryChain) : MemoryChain := { m with refCounter := 0, delegate := none }

namespace Mm

variable {s s' s'' : Mm} {p : PageRef} {c : ChainRef} {ps : List PageRef} {lookup : ℕ → Option PageRef}

/-! ## One page -/

/-- The page is taken off its list, whichever one it is on. -/
theorem delPageFromLru_spec (s : Mm) (p : PageRef) :
    (∃ x, (s.delPageFromLru p).page = Function.update s.page p x ∧
      (x.clearBit .active).clearBit .referenced = (s.page p).hated) ∧
        (∀ l, (s.delPageFromLru p).zone.list l = (s.zone.list l).erase p) ∧
          (s.delPageFromLru p).chain = s.chain ∧ (s.delPageFromLru p).mcc = s.mcc ∧
            (s.delPageFromLru p).allocated = s.allocated := by
  rw [delPageFromLru]
  dsimp only
  split_ifs with hu ha
  · exact ⟨⟨(s.page p).clearBit .unevictable, rfl, rfl⟩, fun _ => rfl, rfl, rfl, rfl⟩
  · refine ⟨⟨(s.page p).clearBit .active, rfl, ?_⟩, fun _ => rfl, rfl, rfl, rfl⟩
    rw [Page.hated, (s.page p).clearBit_of_not (Bool.eq_false_iff.2 hu),
      ((s.page p).clearBit .active).clearBit_of_not (f := .active) (by simp)]
  · refine ⟨⟨s.page p, (Function.update_eq_self ..).symm, ?_⟩, fun _ => rfl, rfl, rfl, rfl⟩
    rw [Page.hated, (s.page p).clearBit_of_not (Bool.eq_false_iff.2 hu)]

/-- `__hate_page`, of a page on the LRU lists. -/
theorem hatePage_spec (hl : (s.page p).testBit .lru = true) :
    (s.hatePage p).page = Function.update s.page p (s.page p).hated ∧
      (∀ l, (s.hatePage p).zone.list l =
        if l = (s.page p).lruBaseType then p :: (s.zone.list l).erase p
        else (s.zone.list l).erase p) ∧
          (s.hatePage p).chain = s.chain ∧ (s.hatePage p).mcc = s.mcc ∧
            (s.hatePage p).allocated = s.allocated := by
  obtain ⟨hpage, hlist, hchain, hmcc, halloc⟩ := delPageFromLru_spec s p
  rw [Mm.hatePage, if_pos hl]
  obtain ⟨x, hx, hhated⟩ := hpage
  refine ⟨?_, fun l => ?_, hchain, hmcc, halloc⟩
  · simp only [modifyPage, hx, Function.update_self, Function.update_idem, hhated]
  · by_cases hlb : l = (s.page p).lruBaseType
    · rw [if_pos hlb, ← hlist, hlb]
      exact Function.update_self ..
    · rw [if_neg hlb, ← hlist]
      exact Function.update_of_ne hlb ..

/-- What an access does to the lists: at most it moves the page. -/
theorem activatePage_list (h : ∀ l, (s.zone.list l).Nodup) (l : ℕ) :
    ((s.activatePage p).zone.list l).Nodup ∧
      ((s.activatePage p).zone.list l).filter (· ≠ p) = (s.zone.list l).filter (· ≠ p) := by
  have herase : (s.zone.list l).erase p = (s.zone.list l).filter (· ≠ p) := by
    rw [(h l).erase_eq_filter]
    exact List.filter_congr fun q _ => by rw [bne, decide_not, beq_eq_decide]
  have hp : p ∉ (s.zone.list l).erase p := (h l).not_mem_erase
  have hidem : ((s.zone.list l).erase p).filter (· ≠ p) = (s.zone.list l).filter (· ≠ p) := by
    rw [herase, List.filter_filter]
    simp
  rw [activatePage]
  dsimp only
  split_ifs
  · have hlist : ((s.zone.delPageFromLruList p (s.page p).lruBaseType).addPageToLruList p
        ((s.page p).lruBaseType + lruActive)).list l = if l = (s.page p).lruBaseType + lruActive then
          p :: (s.zone.list l).erase p else (s.zone.list l).erase p := by
      by_cases hl : l = (s.page p).lruBaseType + lruActive
      · subst hl
        rw [if_pos rfl]
        exact Function.update_self ..
      · rw [if_neg hl]
        exact Function.update_of_ne hl ..
    change (Zone.list _ l).Nodup ∧ List.filter _ (Zone.list _ l) = _
    rw [modifyPage, hlist]
    split_ifs
    · refine ⟨List.nodup_cons.2 ⟨hp, (h _).erase p⟩, ?_⟩
      rw [List.filter_cons_of_neg (by simp)]
      exact hidem
    · exact ⟨(h l).erase p, hidem⟩
  · exact ⟨h l, rfl⟩

/-- Neither the lists nor the collections change, nor whether the page is on the lists. -/
structure SameZone (s s' : Mm) (p : PageRef) : Prop where
  zone_eq : s'.zone = s.zone
  mcc_eq : s'.mcc = s.mcc
  lru_eq : (s'.page p).testBit .lru = (s.page p).testBit .lru

namespace SameZone

/-- Nothing has changed. -/
theorem refl (s : Mm) (p : PageRef) : SameZone s s p := ⟨rfl, rfl, rfl⟩

/-- One operation after the other. -/
theorem trans {s₁ : Mm} (h : SameZone s s₁ p) (h' : SameZone s₁ s' p) : SameZone s s' p :=
  ⟨h'.zone_eq.trans h.zone_eq, h'.mcc_eq.trans h.mcc_eq, h'.lru_eq.trans h.lru_eq⟩

/-- A change of the page that leaves `PG_lru`. -/
theorem modifyPage (s : Mm) {f : Page → Page}
    (hf : (f (s.page p)).testBit .lru = (s.page p).testBit .lru) : SameZone s (s.modifyPage p f) p :=
  ⟨rfl, rfl, by rw [modifyPage_self, hf]⟩

/-- A change of a chain. -/
theorem modifyChain {f : MemoryChain → MemoryChain} (heq : s.modifyChain c f = .ok s') :
    SameZone s s' p := by
  obtain ⟨m, -, heq⟩ := bind_eq_ok.1 heq
  obtain rfl := Except.ok.inj heq
  exact ⟨rfl, rfl, rfl⟩

/-- The counter of a chain starts again. -/
theorem resetCounter (heq : s.resetCounter p = .ok s') : SameZone s s' p := by
  rw [Mm.resetCounter] at heq
  split at heq
  · obtain rfl := Except.ok.inj heq
    exact .refl s p
  · exact modifyChain heq

/-- The bit is set, and counted. -/
theorem setPageReferenced (heq : s.setPageReferenced p = .ok s') : SameZone s s' p := by
  have h := modifyPage (p := p) s (f := (·.setBit .referenced)) (by simp)
  rw [Mm.setPageReferenced] at heq
  split at heq
  · obtain rfl := Except.ok.inj heq
    exact h
  · exact h.trans (modifyChain heq)

/-- The bit is cleared. -/
theorem clearPageReferenced (heq : s.clearPageReferenced p = .ok s') : SameZone s s' p := by
  have h := modifyPage (p := p) s (f := (·.clearBit .referenced)) (by simp)
  rw [Mm.clearPageReferenced] at heq
  split at heq
  · obtain rfl := Except.ok.inj heq
    exact h
  · split_ifs at heq
    · exact h.trans (modifyChain heq)
    · obtain rfl := Except.ok.inj heq
      exact h

end SameZone

/-- The lists change only where the access activates the page. -/
theorem markPageAccessed_zone (heq : s.markPageAccessed p = .ok s') :
    ∃ s₁, SameZone s s₁ p ∧ (SameZone s₁ s' p ∨ SameZone (s₁.activatePage p) s' p) := by
  obtain ⟨s₁, heq₁, heq⟩ := bind_eq_ok.1 heq
  obtain ⟨r, -, heq⟩ := bind_eq_ok.1 heq
  have h₁ := SameZone.resetCounter heq₁
  dsimp only at heq
  split_ifs at heq
  · obtain ⟨s₂, heq₂, heq⟩ := bind_eq_ok.1 heq
    exact ⟨s₂, h₁.trans (.setPageReferenced heq₂), .inr (.clearPageReferenced heq)⟩
  · rw [ok_bind] at heq
    exact ⟨s₁, h₁, .inr (.clearPageReferenced heq)⟩
  · exact ⟨s₁, h₁, .inl (.setPageReferenced heq)⟩
  · obtain rfl := Except.ok.inj heq
    exact ⟨s₁, h₁, .inl (.refl _ p)⟩

/-- An access moves at most its page, and no page that is not on the lists. -/
theorem markPageAccessed_list (hn : ∀ l, (s.zone.list l).Nodup) (heq : s.markPageAccessed p = .ok s') :
    s'.mcc = s.mcc ∧ ∀ l, (s'.zone.list l).Nodup ∧
      (s'.zone.list l).filter (· ≠ p) = (s.zone.list l).filter (· ≠ p) ∧
        ((s.page p).testBit .lru = false → s'.zone.list l = s.zone.list l) := by
  obtain ⟨s₁, h₁, h | h⟩ := markPageAccessed_zone heq
  · have hzone := h.zone_eq.trans h₁.zone_eq
    refine ⟨h.mcc_eq.trans h₁.mcc_eq, fun l => ?_⟩
    rw [hzone]
    exact ⟨hn l, rfl, fun _ => rfl⟩
  · have hmcc : (s₁.activatePage p).mcc = s₁.mcc := by
      rw [activatePage]
      split_ifs <;> rfl
    refine ⟨(h.mcc_eq.trans hmcc).trans h₁.mcc_eq, fun l => ?_⟩
    obtain ⟨hnd, hfilter⟩ := activatePage_list (s := s₁) (p := p) (fun l => h₁.zone_eq ▸ hn l) l
    rw [h₁.zone_eq] at hfilter
    rw [h.zone_eq]
    refine ⟨hnd, hfilter, fun hl => ?_⟩
    rw [activatePage, h₁.lru_eq, hl, Bool.false_and, Bool.false_and, if_neg Bool.false_ne_true,
      h₁.zone_eq]

/-- An access sets the counter and the delegate of the chain of the page only. -/
theorem markPageAccessed_untouched (h : s.Linked) (heq : s.markPageAccessed p = .ok s') (c : ChainRef) :
    (s'.chain c).map MemoryChain.untouched = (s.chain c).map MemoryChain.untouched ∧
      (s.home p ≠ some c → s'.chain c = s.chain c) := by
  cases hp : s.home p with
  | none =>
    rw [markPageAccessed_chain_of_none hp heq]
    exact ⟨rfl, fun _ => rfl⟩
  | some d =>
    obtain ⟨m, hm, -⟩ := h.live hp
    rw [markPageAccessed_chain h hp hm heq]
    by_cases hd : c = d
    · subst hd
      rw [Function.update_self, hm]
      exact ⟨rfl, fun hne => absurd rfl hne⟩
    · rw [Function.update_of_ne hd]
      exact ⟨rfl, fun _ => rfl⟩

/-! ## The pages of a range -/

/-- The pages are moved to the front, one after the other. -/
def toFront (front ps : List PageRef) : List PageRef :=
  ps.foldl (fun front p => p :: front.filter (· ≠ p)) front

/-- The pages that are hated when the pages `ps` are visited, the last one first. -/
def hatedFirst (s : Mm) (ps : List PageRef) : List PageRef :=
  toFront [] (ps.filter fun p => (s.page p).hateable)

/-- No page is lost when some are moved to the front. -/
theorem mem_toFront {q : PageRef} {front ps : List PageRef} :
    q ∈ toFront front ps ↔ q ∈ front ∨ q ∈ ps := by
  induction ps generalizing front with
  | nil => simp [toFront]
  | cons p ps ih =>
    rw [show toFront front (p :: ps) = toFront (p :: front.filter (· ≠ p)) ps from rfl, ih]
    by_cases hq : q = p
    · simp [hq]
    · simp [hq]

/-- The pages that are moved. -/
theorem mem_hatedFirst {q : PageRef} : q ∈ s.hatedFirst ps ↔ q ∈ ps ∧ (s.page q).hateable = true := by
  rw [hatedFirst, mem_toFront, List.mem_filter]
  simp

/-- The page that is visited last comes first. -/
theorem hatedFirst_append (s : Mm) (ps : List PageRef) (p : PageRef) :
    s.hatedFirst (ps ++ [p]) = if (s.page p).hateable = true then
      p :: (s.hatedFirst ps).filter (· ≠ p) else s.hatedFirst ps := by
  rw [hatedFirst, List.filter_append, toFront, List.foldl_append]
  split_ifs with h
  · rw [show [p].filter (fun p => (s.page p).hateable) = [p] by simp [h]]
    rfl
  · rw [show [p].filter (fun p => (s.page p).hateable) = [] by simp [h]]
    rfl

/-- The pages `ps` have been visited, one after the other: those that are on the LRU lists, and not on a
    chain, have been hated, and the others have been accessed. -/
structure Hated (s s' : Mm) (ps : List PageRef) : Prop where
  page : ∀ p, s'.page p = if p ∈ ps ∧ (s.page p).hateable = true then (s.page p).hated
    else Page.accessed^[ps.count p] (s.page p)
  nodup : ∀ l, (s'.zone.list l).Nodup
  /-- The pages on chains may have been moved by the accesses. -/
  list : ∀ l, (s'.zone.list l).filter (fun p => !(s.page p).linked) =
    (s.hatedFirst ps).filter (fun p => (s.page p).lruBaseType = l) ++
      (s.zone.list l).filter fun p => !(s.page p).linked && decide (p ∉ s.hatedFirst ps)
  chain : ∀ c, (s'.chain c).map MemoryChain.untouched = (s.chain c).map MemoryChain.untouched
  idle : ∀ c, (∀ p ∈ ps, s.home p ≠ some c) → s'.chain c = s.chain c
  linked : s'.Linked
  mcc : s'.mcc = s.mcc
  allocated : s'.allocated = s.allocated

namespace Hated

/-- No page has been visited yet. -/
theorem refl (h : s.Linked) (hn : ∀ l, (s.zone.list l).Nodup) : Hated s s [] where
  page p := by rw [if_neg fun h => List.not_mem_nil h.1, List.count_nil, Function.iterate_zero, id]
  nodup := hn
  list l := by simp [hatedFirst, toFront]
  chain c := rfl
  idle c _ := rfl
  linked := h
  mcc := rfl
  allocated := rfl

/-- Whether a page may be hated does not change. -/
theorem page_hateable (h : Hated s s' ps) (p : PageRef) :
    (s'.page p).hateable = (s.page p).hateable ∧ (s'.page p).hated = (s.page p).hated ∧
      (s'.page p).lruBaseType = (s.page p).lruBaseType ∧ (s'.page p).chain = (s.page p).chain := by
  rw [h.page]
  split_ifs
  · exact ⟨(s.page p).hated_hateable, (s.page p).hated_hated, (s.page p).hated_lruBaseType, rfl⟩
  · exact (s.page p).accessed_iterate _

/-- Hating moves no page to another chain. -/
theorem home_eq (h : Hated s s' ps) : s'.home = s.home := funext fun p => (h.page_hateable p).2.2.2

/-- The pages that are not visited now are as before. -/
theorem page_of_ne (h : Hated s s' ps) {q : PageRef} (hq : q ≠ p) :
    s'.page q = if q ∈ ps ++ [p] ∧ (s.page q).hateable = true then (s.page q).hated
      else Page.accessed^[(ps ++ [p]).count q] (s.page q) := by
  have hcount : (ps ++ [p]).count q = ps.count q := by
    rw [List.count_append, List.count_singleton, if_neg (by simpa using Ne.symm hq), Nat.add_zero]
  rw [h.page, hcount]
  exact if_congr (by simp [hq]) rfl rfl

/-- A page on a chain, or on no list, is accessed. -/
theorem touch {s₁ : Mm} (h : Hated s s' ps) (hp : (s.page p).hateable = false)
    (heq : s'.markPageAccessed p = .ok s₁) : Hated s s₁ (ps ++ [p]) := by
  obtain ⟨_, heq', ht⟩ := markPageAccessed_spec h.linked p
  obtain rfl := Except.ok.inj (heq'.symm.trans heq)
  obtain ⟨hmcc, hlist⟩ := markPageAccessed_list h.nodup heq
  have hchain := markPageAccessed_untouched h.linked heq
  obtain ⟨hhate, -, -, hhome⟩ := h.page_hateable p
  refine ⟨fun q => ?_, fun l => (hlist l).1, fun l => ?_, fun c => (hchain c).1.trans (h.chain c),
    fun c hc => ?_, ht.linked, hmcc.trans h.mcc, ht.allocated_eq.trans h.allocated⟩
  · rw [ht.page_eq]
    by_cases hq : q = p
    · subst hq
      rw [Function.update_self, h.page, if_neg (by simp [hp]), if_neg (by simp [hp]),
        ← Function.iterate_succ_apply' Page.accessed, List.count_append, List.count_singleton_self]
    · rw [Function.update_of_ne hq]
      exact h.page_of_ne hq
  · rw [hatedFirst_append, if_neg (by simp [hp]), ← h.list]
    cases hl : (s.page p).linked with
    | false =>
      -- The page is not on the lists.
      have hl' : (s'.page p).linked = false := by rw [Page.linked, hhome, ← Page.linked, hl]
      rw [hp, Page.hateable, hl', Bool.not_false, Bool.and_true] at hhate
      rw [(hlist l).2.2 hhate]
    | true =>
      have hsplit : ∀ ps : List PageRef, ps.filter (fun q => !(s.page q).linked) =
          (ps.filter (· ≠ p)).filter fun q => !(s.page q).linked := fun ps => by
        rw [List.filter_filter]
        refine List.filter_congr fun q _ => ?_
        by_cases hq : q = p
        · simp [hq, hl]
        · simp [hq]
      rw [hsplit, (hlist l).2.1, ← hsplit]
  · refine ((hchain c).2 ?_).trans (h.idle c fun q hq => hc q (List.mem_append_left _ hq))
    rw [h.home_eq]
    exact hc p (List.mem_append_right _ (List.mem_singleton_self p))

/-- A page on the LRU lists, and on no chain, is accessed and hated. It may have been hated before. -/
theorem hatePage {s₁ : Mm} (h : Hated s s' ps) (hp : (s.page p).hateable = true)
    (heq : s'.markPageAccessed p = .ok s₁) : Hated s (s₁.hatePage p) (ps ++ [p]) := by
  obtain ⟨_, heq', ht⟩ := markPageAccessed_spec h.linked p
  obtain rfl := Except.ok.inj (heq.symm.trans heq')
  obtain ⟨hmcc, hlist⟩ := markPageAccessed_list h.nodup heq
  have hchain := markPageAccessed_untouched h.linked heq
  obtain ⟨hhate, hhated, hbase, hhome⟩ := h.page_hateable p
  have hself : s₁.page p = (s'.page p).accessed := by rw [ht.page_eq, Function.update_self]
  have hl : (s₁.page p).testBit .lru = true := by
    rw [← hhate, ← Page.accessed_hateable, ← hself, Page.hateable, Bool.and_eq_true] at hp
    exact hp.1
  obtain ⟨hpage₂, hlist₂, hchain₂, hmcc₂, halloc₂⟩ := hatePage_spec hl
  rw [hself, Page.accessed_hated, hhated] at hpage₂
  rw [hself, Page.accessed_lruBaseType, hbase] at hlist₂
  have herase : ∀ l, (s₁.zone.list l).erase p = (s'.zone.list l).filter (· ≠ p) := fun l => by
    rw [(hlist l).1.erase_eq_filter, ← (hlist l).2.1]
    exact List.filter_congr fun q _ => by rw [bne, decide_not, beq_eq_decide]
  have hchain₁ : (s.page p).hated.chain = (s₁.page p).chain := by
    rw [hself, Page.accessed_chain, Page.hated_chain, hhome]
  refine ⟨fun q => ?_, fun l => ?_, fun l => ?_, fun c => ?_, fun c hc => ?_,
    ht.linked.of_page hchain₂ halloc₂ hpage₂ hchain₁, (hmcc₂.trans hmcc).trans h.mcc,
    (halloc₂.trans ht.allocated_eq).trans h.allocated⟩
  · rw [hpage₂]
    by_cases hq : q = p
    · subst hq
      rw [Function.update_self, if_pos ⟨List.mem_append_right _ (List.mem_singleton_self q), hp⟩]
    · rw [Function.update_of_ne hq, ht.page_eq, Function.update_of_ne hq]
      exact h.page_of_ne hq
  · have hp' : p ∉ (s₁.zone.list l).erase p := (hlist l).1.not_mem_erase
    rw [hlist₂]
    split_ifs
    · exact List.nodup_cons.2 ⟨hp', (hlist l).1.erase p⟩
    · exact (hlist l).1.erase p
  · -- The page is taken from where it is, which is at the front or not.
    have hunlinked : (s.page p).linked = false := by
      rw [Page.hateable, Bool.and_eq_true, Bool.not_eq_true'] at hp
      exact hp.2
    have hrest : ((s₁.zone.list l).erase p).filter (fun q => !(s.page q).linked) =
        ((s.hatedFirst ps).filter (· ≠ p)).filter (fun q => (s.page q).lruBaseType = l) ++
          (s.zone.list l).filter fun q => !(s.page q).linked &&
            decide (q ∉ p :: (s.hatedFirst ps).filter (· ≠ p)) := by
      have hcomm : ∀ ps : List PageRef, (ps.filter (· ≠ p)).filter (fun q => !(s.page q).linked) =
          (ps.filter fun q => !(s.page q).linked).filter (· ≠ p) := fun ps => by
        rw [List.filter_filter, List.filter_filter]
        exact List.filter_congr fun q _ => Bool.and_comm ..
      rw [herase, hcomm, h.list, List.filter_append, List.filter_filter, List.filter_filter,
        List.filter_filter]
      congr 1
      all_goals
        refine List.filter_congr fun q _ => ?_
        by_cases hq : q = p
        · simp [hq]
        · simp [hq]
    rw [hlist₂, hatedFirst_append, if_pos hp]
    by_cases hlb : l = (s.page p).lruBaseType
    · rw [if_pos hlb, List.filter_cons_of_pos (by simp [hunlinked]), hrest,
        List.filter_cons_of_pos (by simp [hlb]), List.cons_append]
    · rw [if_neg hlb, hrest, List.filter_cons_of_neg (by simpa using Ne.symm hlb)]
  · rw [hchain₂]
    exact (hchain c).1.trans (h.chain c)
  · rw [hchain₂]
    refine ((hchain c).2 ?_).trans (h.idle c fun q hq => hc q (List.mem_append_left _ hq))
    rw [h.home_eq]
    exact hc p (List.mem_append_right _ (List.mem_singleton_self p))

/-- An address is visited. -/
theorem hateAt (h : Hated s s' ps) (a : ℕ) :
    ∃ s'', s'.hateAt lookup a = .ok s'' ∧ Hated s s'' (ps ++ (lookup a).toList) := by
  rw [Mm.hateAt, getUserPage]
  cases ha : lookup a with
  | none => exact ⟨s', rfl, by rwa [Option.toList_none, List.append_nil]⟩
  | some p =>
    obtain ⟨s₁, heq, ht⟩ := markPageAccessed_spec h.linked p
    obtain ⟨hhate, -⟩ := h.page_hateable p
    rw [← Page.accessed_hateable, ← Function.update_self p (s'.page p).accessed s'.page,
      ← ht.page_eq] at hhate
    dsimp only
    rw [heq]
    cases hp : (s.page p).hateable with
    | true =>
      rw [hp, Page.hateable, Bool.and_eq_true, Bool.not_eq_true'] at hhate
      refine ⟨s₁.hatePage p, ?_, h.hatePage hp heq⟩
      change Except.ok (if (s₁.page p).linked = true then s₁ else s₁.hatePage p) = _
      rw [hhate.2, if_neg Bool.false_ne_true]
    | false =>
      refine ⟨s₁, ?_, h.touch hp heq⟩
      rw [hp, Page.hateable, Bool.and_eq_false_iff, Bool.not_eq_false'] at hhate
      change Except.ok (if (s₁.page p).linked = true then s₁ else s₁.hatePage p) = _
      split_ifs with hlinked
      · rfl
      · -- The page is not on the LRU lists.
        rw [Mm.hatePage, hhate.resolve_right hlinked]
        rfl

/-- The addresses are visited, one after the other. -/
theorem foldlM (addrs : List ℕ) (h : Hated s s' ps) :
    ∃ s'', addrs.foldlM (Mm.hateAt lookup) s' = .ok s'' ∧
      Hated s s'' (ps ++ addrs.filterMap lookup) := by
  induction addrs generalizing s' ps with
  | nil => exact ⟨s', rfl, by rwa [List.filterMap_nil, List.append_nil]⟩
  | cons a addrs ih =>
    obtain ⟨s₁, hs₁, h₁⟩ := h.hateAt a
    obtain ⟨s₂, hs₂, h₂⟩ := ih h₁
    refine ⟨s₂, ?_, ?_⟩
    · rw [List.foldlM_cons, hs₁]
      exact hs₂
    · have hcons : (a :: addrs).filterMap lookup = (lookup a).toList ++ addrs.filterMap lookup := by
        cases ha : lookup a with
        | none => rw [List.filterMap_cons_none ha, Option.toList_none, List.nil_append]
        | some p => rw [List.filterMap_cons_some ha, Option.toList_some, List.singleton_append]
      rw [hcons, ← List.append_assoc]
      exact h₂

end Hated

/-- The system call `hate`: the pages that are mapped in the range, each at the addresses of `addrs`, are
    visited in the order of the addresses. -/
theorem hate_effect {vmas : List Vma} {start len : ℕ} (h : Areas vmas)
    (hwrap : (start + len + (pageSize - 1)) / pageSize * pageSize < addressSpace)
    (hlinked : s.Linked) (hn : ∀ l, (s.zone.list l).Nodup) (lookup : ℕ → Option PageRef) :
    ∃ s' r, ∃ addrs : List ℕ, s.hate vmas lookup start len = .ok (s', r) ∧ addrs.Pairwise (· < ·) ∧
      (∀ a, a ∈ addrs ↔ pageSize ∣ a ∧ pageMask start ≤ a ∧ a < start + len ∧ ∃ v ∈ vmas, v.Has a) ∧
        Hated s s' (addrs.filterMap lookup) := by
  obtain ⟨hstop, -⟩ := range_end hwrap
  have hs : pageSize ∣ pageMask start := ⟨start / pageSize, by
    rw [pageMask, pageSize]
    omega⟩
  have hmask : pageMask start ≤ start ∧ start < pageMask start + pageSize := by
    rw [pageMask, pageSize]
    omega
  obtain ⟨hsorted, hmem⟩ := rangeAddrsFrom_spec h hs hmask.1 hmask.2 (start + len)
  obtain ⟨s', hs', hhated⟩ : ∃ s', (rangeAddrsFrom vmas start (pageMask start) (start + len)).foldlM
      (hateAt lookup) s = .ok s' ∧ Hated s s' _ := (Hated.refl hlinked hn).foldlM _
  have hmod : (start + len) % addressSpace = start + len := Nat.mod_eq_of_lt (by omega)
  have hwalk : (s.hate vmas lookup start len).map Prod.fst = .ok s' := by
    rw [hate, hmod, ← hs']
    exact walkRange_spec (fun s v b e => hateVmaPagesRange_spec hstop s) h hs hmask.1 s
  cases hr : s.hate vmas lookup start len with
  | error e =>
    rw [hr] at hwalk
    cases hwalk
  | ok r =>
    rw [hr] at hwalk
    obtain rfl := Except.ok.inj hwalk
    exact ⟨r.1, r.2, _, rfl, hsorted, hmem, hhated⟩

/-- An active page, and a page on a chain. -/
def activeAndLinked : Mm where
  page p :=
    if p = 7 then { flags := fun f => decide (f = .lru ∨ f = .active) }
    else { chain := if p = 3 then some 5 else none, flags := fun f => decide (f = .lru ∧ p = 3) }
  chain c := if c = 5 then some { id := 0, links := [3], nrLinks := 1 } else none
  allocated p := decide (p = 3 ∨ p = 7)
  zone := (({} : Zone).addPageToLruList 7 (lruInactiveFile + lruActive)).addPageToLruList 3 lruInactiveFile

/-- The pages of the chain are linked to it. -/
theorem activeAndLinked_linked : activeAndLinked.Linked := by
  have hhome : ∀ p, activeAndLinked.home p = if p = 3 then some 5 else none := fun p => by
    by_cases hp : p = 7
    · subst hp
      rfl
    · change Page.chain (if p = 7 then _ else _) = _
      rw [if_neg hp]
  have hlinks : ∀ c, activeAndLinked.links c = if c = 5 then [3] else [] := fun c => by
    change Option.elim (if c = 5 then _ else _) _ _ = _
    split_ifs
    · rfl
    · rfl
  refine ⟨⟨fun c => ?_, fun p c => ?_⟩, fun c m hm => ?_, fun p hp => ?_, fun p hp => ?_⟩
  · rw [hlinks]
    split_ifs
    · exact List.nodup_singleton 3
    · exact .nil
  · rw [hlinks, hhome]
    by_cases hc : c = 5
    · rw [hc, if_pos rfl, List.mem_singleton]
      by_cases hp : p = 3
      · simp [hp]
      · simp [hp]
    · rw [if_neg hc]
      refine iff_of_false List.not_mem_nil ?_
      split_ifs
      · exact fun h => hc (Option.some.inj h).symm
      · exact fun h => absurd h (by simp)
  · change (if c = 5 then _ else _) = some m at hm
    split_ifs at hm
    obtain rfl := Option.some.inj hm
    exact ⟨rfl, rfl, fun p hp => absurd hp (by simp), fun p hp => absurd hp (by simp)⟩
  · rw [hhome]
    exact if_neg fun h => of_decide_eq_false hp (.inl h)
  · rcases of_decide_eq_true hp with rfl | rfl
    all_goals decide

/-- The pages of two addresses. -/
def chainThenLru (a : ℕ) : Option PageRef :=
  if a = 4096 then some 3 else if a = 8192 then some 7 else none

/-- The page on the chain stays on it, and the active page becomes inactive. -/
theorem hate_effect_activeAndLinked : ∃ s' r,
    activeAndLinked.hate [⟨4096, 12288, false⟩] chainThenLru 4096 8192 = .ok (s', r) ∧
      (s'.page 7).testBit .active = false ∧ 7 ∈ s'.zone.list lruInactiveFile ∧ s'.home 3 = some 5 := by
  have hareas : Areas [⟨4096, 12288, false⟩] := by
    refine ⟨?_, ?_, ?_, ?_⟩
    all_goals decide
  have hn : ∀ l, (activeAndLinked.zone.list l).Nodup := fun l => by
    change (Function.update (Function.update (fun _ => []) (lruInactiveFile + lruActive) [7])
      lruInactiveFile [3] l).Nodup
    rw [Function.update_apply, Function.update_apply]
    split_ifs
    all_goals simp
  obtain ⟨s', r, addrs, hr, -, hmem, hhated⟩ := hate_effect hareas
    (by decide : (4096 + 8192 + (pageSize - 1)) / pageSize * pageSize < addressSpace)
    activeAndLinked_linked hn chainThenLru
  have hvisited : 7 ∈ addrs.filterMap chainThenLru := by
    refine List.mem_filterMap.2 ⟨8192, ?_, rfl⟩
    exact (hmem 8192).2 ⟨by decide, by decide, by decide, _, List.mem_singleton_self _, by decide,
      by decide, rfl⟩
  have hhateable : (activeAndLinked.page 7).hateable = true := rfl
  refine ⟨s', r, hr, ?_, ?_, ?_⟩
  · rw [hhated.page, if_pos ⟨hvisited, hhateable⟩]
    rfl
  · have hlist : 7 ∈ (s'.zone.list lruInactiveFile).filter fun p =>
        !(activeAndLinked.page p).linked := by
      rw [hhated.list]
      exact List.mem_append_left _ (List.mem_filter.2 ⟨mem_hatedFirst.2 ⟨hvisited, hhateable⟩, rfl⟩)
    exact (List.mem_filter.1 hlist).1
  · rw [hhated.home_eq]
    rfl

end Mm

end Mcpq.Kernel
