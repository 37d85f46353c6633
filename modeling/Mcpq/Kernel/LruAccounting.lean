import Mcpq.Kernel.LruLists
import Mcpq.Lib.Transition

/-!
# The accounting of the LRU lists

A zone counts the pages on each of its LRU lists. A page that is taken off its list is charged to the
list it should be on, which depends on its flags and on whether it is linked; but a page that is linked
or unlinked stays on the list it is on. If it is taken off that list later, the counters of two lists
are wrong: these are the steps that break the accounting (`lru_accounting`). The pages that are linked
and unlinked off the lists are charged right (`accounted_of_keeps`).
-/

namespace Mcpq.Kernel

/-- An operation on the pages of a zone. -/
inductive LruOp
  | putbackPage (p : PageRef)
  | isolateLruPage (p : PageRef)
  | pageCacheRelease (p : PageRef)
  | activatePage (p : PageRef)
  | markPageAccessed (p : PageRef)
  | linkPage (c : ChainRef) (p : PageRef)
  | unlinkPage (p : PageRef)

namespace LruOp

/-- The page of the operation. -/
def page : LruOp → PageRef
  | putbackPage p => p
  | isolateLruPage p => p
  | pageCacheRelease p => p
  | activatePage p => p
  | markPageAccessed p => p
  | linkPage _ p => p
  | unlinkPage p => p

/-- What an operation does. -/
def exec [Mlock] (s : Mm) : LruOp → Result Mm
  | putbackPage p => s.putbackPage p
  | isolateLruPage p => .ok (s.isolateLruPage p).1
  | pageCacheRelease p => .ok (s.pageCacheRelease p)
  | activatePage p => .ok (s.activatePage p)
  | markPageAccessed p => s.markPageAccessed p
  | linkPage c p => s.linkPage c p
  | unlinkPage p => s.unlinkPage p

end LruOp

/-- The runs of the operations on the pages in use, from a zone whose lists are empty: the pages are not
    linked, and the chains have just been allocated. -/
def LruSystem [Mlock] : Transition Mm LruOp where
  init s := (∀ l, s.zone.list l = [] ∧ s.zone.nr l = 0) ∧
    (∀ p, (s.page p).testBit .lru = false ∧ (s.page p).chain = none ∧
      (s.allocated p = true → p < maxPages)) ∧
    ∀ c m, s.chain c = some m → m = { id := m.id }
  step s op s' := s.allocated op.page = true ∧ op.exec s = .ok s'

namespace Mm

/-- The counter of each list is the number of the pages on the list. -/
def Accounted (s : Mm) : Prop := ∀ l, s.zone.nr l = (s.zone.list l).length

end Mm

/-- A page that the operation takes off its list is on the list it should be on. -/
def LruOp.Charges (s : Mm) : LruOp → Prop
  | isolateLruPage p => (s.page p).testBit .lru = true ∧ (s.page p).count ≠ 0 →
    p ∈ s.zone.list (s.page p).lruList
  | pageCacheRelease p => (s.page p).testBit .lru = true → p ∈ s.zone.list (s.page p).lruList
  | activatePage p => (s.page p).activates = true → p ∈ s.zone.list (s.page p).lruList
  | markPageAccessed p => (s.page p).promotes = true → p ∈ s.zone.list (s.page p).lruList
  | _ => True

/-- A page is neither linked nor unlinked while it is on a list that tells the two apart. -/
def LruOp.Keeps (s : Mm) : LruOp → Prop
  | linkPage _ p => (s.page p).linked = true ∨ (s.page p).testBit .lru = false ∨
    (s.page p).testBit .unevictable = true
  | unlinkPage p => (s.page p).linked = false ∨ (s.page p).testBit .lru = false ∨
    (s.page p).testBit .unevictable = true
  | _ => True

namespace Mm

variable {s s' s₁ : Mm} {p q : PageRef} {c d : ChainRef} {m : MemoryChain}

/-- The state of the chains, and of the pages on the lists. -/
structure LruOk (s : Mm) : Prop where
  linked : s.Linked
  unanchored : s.Unanchored
  lists : s.zone.Lists fun p => (s.page p).testBit .lru

/-- The chains stay as they are. -/
theorem Linked.of_page (h : s.Linked) {x : Page} (hchain : s'.chain = s.chain)
    (halloc : s'.allocated = s.allocated) (hpage : s'.page = Function.update s.page p x)
    (hx : x.chain = (s.page p).chain) : s'.Linked := by
  have hhome : s'.home = s.home := by
    rw [home_of_page hpage, hx]
    exact Function.update_eq_self p s.home
  have hlinks : s'.links = s.links := by
    funext d
    rw [links, links, hchain]
  refine ⟨by rw [hhome, hlinks]; exact h.members, fun d m hm => ?_, fun q hq => ?_,
    halloc ▸ h.few⟩
  · exact h.chain d m (hchain ▸ hm)
  · rw [hhome]
    exact h.free q (halloc ▸ hq)

/-- What an operation does to the page it is about and to the lists: the page stays where it is, is put
    on a list, is taken off its list, or is moved to the active list. The counters stay right if
    `charges`, and the page stays on the list it should be on if `keeps`. -/
inductive Moves (s : Mm) (p : PageRef) (x : Page) (z : Zone) (charges keeps : Prop) : Prop
  | stay (hz : z = s.zone) (hx : x.testBit .lru = (s.page p).testBit .lru) (hc : charges)
    (hk : keeps → x.testBit .lru = true → x.lruList = (s.page p).lruList)
  | put (hp : (s.page p).testBit .lru = false) (hx : x.testBit .lru = true)
    (hz : z = s.zone.addPageToLruList p x.lruList) (hc : charges)
  | take (hp : (s.page p).testBit .lru = true) (hx : x.testBit .lru = false)
    (hz : z = s.zone.delPageFromLruList p (s.page p).lruList)
    (hc : charges ↔ p ∈ s.zone.list (s.page p).lruList)
  | move (hp : (s.page p).activates = true) (hx : x.testBit .lru = true)
    (hl : x.lruList = (s.page p).lruBaseType + lruActive) (hz : z = s.movedZone p)
    (hc : charges ↔ p ∈ s.zone.list (s.page p).lruList)

/-- The list of a page that has been activated. -/
theorem lruList_of_active {x y : Page} (hy : y.activates = true) (hc : x.chain = y.chain)
    (hs : x.testBit .swapbacked = y.testBit .swapbacked) (ha : x.testBit .active = true)
    (hu : x.testBit .unevictable = y.testBit .unevictable) :
    x.lruList = y.lruBaseType + lruActive := by
  simp only [Page.activates, Bool.and_eq_true, Bool.not_eq_true'] at hy
  rw [Page.lruList, hu, hy.2, if_neg Bool.false_ne_true, if_pos ha, Page.lruBaseType_congr hc hs]

/-- A page that gets another chain keeps its list, if it is as linked as before, is on no list, or is
    unevictable. -/
theorem lruList_of_relink {x : Page} (o : Option ChainRef)
    (hk : x.linked = o.isSome ∨ x.testBit .lru = false ∨ x.testBit .unevictable = true)
    (hx : Page.testBit { x with chain := o } .lru = true) :
    Page.lruList { x with chain := o } = x.lruList := by
  rcases hk with hlink | hlru | hun
  · rw [Page.lruList, Page.lruList, Page.lruBaseType, Page.lruBaseType, hlink]
    rfl
  · cases hlru.symm.trans hx
  · rw [Page.lruList, Page.lruList, if_pos hun, if_pos (by exact hun)]

/-- A page that is activated is moved to the active list. -/
theorem Moves.activate {x : Page} {charges keeps : Prop} (hact : (s.page p).activates = true)
    (hlru : x.testBit .lru = (s.page p).testBit .lru) (hx : x.chain = (s.page p).chain)
    (hs : x.testBit .swapbacked = (s.page p).testBit .swapbacked) (ha : x.testBit .active = true)
    (hu : x.testBit .unevictable = (s.page p).testBit .unevictable)
    (hc : charges ↔ p ∈ s.zone.list (s.page p).lruList) :
    Moves s p x (s.movedZone p) charges keeps := by
  refine .move hact ?_ (lruList_of_active hact hx hs ha hu) rfl hc
  rw [Page.activates, Bool.and_eq_true, Bool.and_eq_true] at hact
  rw [hlru, hact.1.1]

/-- A page that is left alone. -/
theorem Moves.refl {charges keeps : Prop} (hc : charges) :
    Moves s p (s.page p) s.zone charges keeps := .stay rfl rfl hc fun _ _ => rfl

/-- Nothing has been done to the page yet. -/
theorem Changes.refl (s : Mm) (p : PageRef) : Changes s s p (s.page p) s.zone :=
  ⟨(Function.update_eq_self ..).symm, rfl⟩

/-- The operation has moved a page between the lists, and has kept the structure of the chains. -/
def Moved (s : Mm) (op : LruOp) (s' : Mm) : Prop :=
  ∃ p x z, Changes s s' p x z ∧ Moves s p x z (op.Charges s) (op.Keeps s) ∧ s'.Linked ∧
    s'.Unanchored ∧ s'.allocated = s.allocated

namespace LruOk

variable {x : Page} {z : Zone} {op : LruOp}

/-- What one operation does to the page and to its list is a move. -/
theorem moved (h : s.LruOk) (hch : Changes s s' p x z)
    (hm : Moves s p x z (op.Charges s) (op.Keeps s)) (hc : s'.chain = s.chain)
    (ha : s'.allocated = s.allocated) (hx : x.chain = (s.page p).chain) : Moved s op s' :=
  ⟨p, x, z, hch, hm, h.linked.of_page hc ha hch.page_eq hx, fun d m hdm =>
    h.unanchored d m (hc ▸ hdm), ha⟩

/-- Nothing has been done, and nothing was to be charged. -/
theorem moved_refl (h : s.LruOk) (p : PageRef) (hc : op.Charges s) : Moved s op s :=
  h.moved (.refl s p) (.refl hc) rfl rfl rfl

/-- A page is put back on the list of its flags. -/
theorem putbackPage (h : s.LruOk) (heq : s.putbackPage p = .ok s') :
    Moved s (.putbackPage p) s' := by
  rw [Mm.putbackPage] at heq
  split_ifs at heq with hp
  obtain rfl := Except.ok.inj heq
  refine h.moved (p := p) (x := (s.page p).setBit .lru) ⟨rfl, rfl⟩
    (.put (by simpa using hp) (by simp) ?_ trivial) rfl rfl rfl
  dsimp only
  rw [modifyPage_self]
  rfl

/-- A page is taken off its list. -/
theorem isolateLruPage (h : s.LruOk) (p : PageRef) :
    Moved s (.isolateLruPage p) (s.isolateLruPage p).1 := by
  rw [Mm.isolateLruPage]
  split_ifs with hp hcount
  · rw [hp, Bool.true_and, decide_eq_true_iff] at hcount
    refine h.moved (p := p)
      (x := Page.clearBit { s.page p with count := (s.page p).count + 1 } .lru)
      ⟨?_, rfl⟩ (.take hp (by simp) ?_ ?_) rfl rfl rfl
    · change Function.update (Function.update s.page p _) p _ = _
      rw [Function.update_idem, modifyPage_self]
    · dsimp only
      rw [modifyPage_self]
      rfl
    · exact ⟨fun hc => hc ⟨hp, hcount⟩, fun hmem _ => hmem⟩
  · -- The page has no users, and is about to be freed.
    refine h.moved_refl p fun hc => ?_
    rw [hp, Bool.true_and, decide_eq_true_iff] at hcount
    exact absurd hc.2 hcount
  · exact h.moved_refl p fun hc => absurd hc.1 hp

/-- A page is taken off its list when it is freed. -/
theorem pageCacheRelease (h : s.LruOk) (p : PageRef) :
    Moved s (.pageCacheRelease p) (s.pageCacheRelease p) := by
  rw [Mm.pageCacheRelease]
  split_ifs with hp
  · obtain ⟨x, hx, hxc, hch, hchain, halloc⟩ :=
      delPageFromLru_changes (s.modifyPage p (·.clearBit .lru)) p
    rw [modifyPage_self] at hx hxc hch
    refine h.moved (p := p) (x := x) ⟨?_, hch.zone_eq⟩ (.take hp (by simpa using hx) ?_
      ⟨fun hc => hc hp, fun hmem _ => hmem⟩) hchain halloc hxc
    · rw [hch.page_eq]
      exact Function.update_idem ..
    · rw [Page.lruList_congr (p := (s.page p).clearBit .lru) rfl fun f hf _ => by simp [hf]]
      rfl
  · exact h.moved_refl p fun hc => absurd hc hp

/-- A page moves from an inactive list to the active one. -/
theorem activatePage (h : s.LruOk) (p : PageRef) : Moved s (.activatePage p) (s.activatePage p) := by
  have hch := activatePage_changes s p
  have hchain : (s.activatePage p).chain = s.chain := by
    rw [Mm.activatePage]
    split_ifs
    · rfl
    · rfl
  have halloc : (s.activatePage p).allocated = s.allocated :=
    (activatePage_spec h.linked p).allocated_eq
  cases hact : (s.page p).activates with
  | true =>
    rw [hact, if_pos rfl, if_pos rfl] at hch
    exact h.moved hch (.activate hact (by simp) rfl (by simp) (by simp) (by simp)
      ⟨fun hc => hc hact, fun hmem _ => hmem⟩) hchain halloc rfl
  | false =>
    rw [hact, if_neg Bool.false_ne_true, if_neg Bool.false_ne_true] at hch
    refine h.moved hch (.refl fun hc => ?_) hchain halloc rfl
    rw [hact] at hc
    cases hc

/-- A page moves to the active list at its second access. -/
theorem markPageAccessed (h : s.LruOk) (heq : s.markPageAccessed p = .ok s') :
    Moved s (.markPageAccessed p) s' := by
  obtain ⟨s₁, heq₁, ht⟩ := markPageAccessed_spec h.linked p
  obtain rfl := Except.ok.inj (heq₁.symm.trans heq)
  obtain ⟨hch, hu⟩ := markPageAccessed_changes h.linked heq
  refine ⟨p, _, _, hch, ?_, ht.linked, hu h.unanchored, ht.allocated_eq⟩
  rw [Page.accessed]
  cases hpr : (s.page p).promotes with
  | true =>
    rw [if_pos rfl, if_pos rfl]
    exact .activate (Page.activates_of_promotes hpr) (by simp) rfl (by simp) (by simp) (by simp)
      ⟨fun hc => hc hpr, fun hmem _ => hmem⟩
  | false =>
    -- The page is marked as referenced at most, which its list does not depend on.
    rw [if_neg Bool.false_ne_true, if_neg Bool.false_ne_true]
    refine .stay rfl (by simp) (fun hc => ?_) fun _ _ => ?_
    · rw [hpr] at hc
      cases hc
    · exact Page.lruList_congr rfl fun f _ hf => by simp [hf]

variable [Mlock]

/-- What an operation does to the lists. -/
theorem exec (h : s.LruOk) (hp : s.allocated op.page = true) (heq : op.exec s = .ok s') :
    Moved s op s' := by
  cases op with
  | putbackPage p => exact h.putbackPage heq
  | isolateLruPage p => exact Except.ok.inj heq ▸ h.isolateLruPage p
  | pageCacheRelease p => exact Except.ok.inj heq ▸ h.pageCacheRelease p
  | activatePage p => exact Except.ok.inj heq ▸ h.activatePage p
  | markPageAccessed p => exact h.markPageAccessed heq
  | linkPage c p =>
    obtain ⟨hch, hl⟩ := linkPage_changes h.linked h.unanchored hp heq
    exact ⟨p, _, _, hch, .stay rfl rfl trivial (lruList_of_relink (some c)), hl⟩
  | unlinkPage p =>
    obtain ⟨hch, hl⟩ := unlinkPage_changes h.linked h.unanchored heq
    exact ⟨p, _, _, hch, .stay rfl rfl trivial (lruList_of_relink none), hl⟩

end LruOk

variable [Mlock]

omit [Mlock] in
/-- The counters are the lengths of the lists when nothing is left over. -/
theorem accounted_iff : s.Accounted ↔ ∀ l, s.zone.surplus l = 0 :=
  forall_congr' fun _ => sub_eq_zero.symm

omit [Mlock] in
/-- `PG_lru` changes for one page only. -/
theorem Changes.lru_eq {x : Page} {z : Zone} (h : Changes s s' p x z) :
    (fun q => (s'.page q).testBit .lru) =
      Function.update (fun q => (s.page q).testBit .lru) p (x.testBit .lru) := by
  funext q
  rw [h.page_eq]
  by_cases hq : q = p
  · rw [hq, Function.update_self, Function.update_self]
  · rw [Function.update_of_ne hq, Function.update_of_ne hq]

omit [Mlock] in
/-- The zone after a move, and when its counters stay right. -/
theorem Moves.lists {x : Page} {z : Zone} {charges keeps : Prop}
    (hm : Moves s p x z charges keeps)
    (hs : s.zone.Lists fun q => (s.page q).testBit .lru) :
    z.Lists (Function.update (fun q => (s.page q).testBit .lru) p (x.testBit .lru)) ∧
      ((∀ l, s.zone.surplus l = 0) → ((∀ l, z.surplus l = 0) ↔ charges)) := by
  cases hm with
  | stay hz hx hc _ =>
    subst hz
    refine ⟨?_, fun h0 => iff_of_true h0 hc⟩
    rw [hx, Function.update_eq_self p fun q => (s.page q).testBit .lru]
    exact hs
  | put hp hx hz hc =>
    subst hz
    obtain ⟨hl, hsur⟩ := hs.add hp x.lruList
    rw [hx]
    exact ⟨hl, fun h0 => iff_of_true (fun l => (hsur l).trans (h0 l)) hc⟩
  | take hp hx hz hc =>
    subst hz
    obtain ⟨k, -, hl, -⟩ := hs.del hp (s.page p).lruList
    rw [hx]
    exact ⟨hl, fun h0 => (hs.del_surplus hp h0 _).trans hc.symm⟩
  | move hp hx hl hz hc =>
    subst hz
    have hlru : (s.page p).testBit .lru = true := by
      rw [Page.activates, Bool.and_eq_true, Bool.and_eq_true] at hp
      exact hp.1.1
    obtain ⟨k, -, hdel, -⟩ := hs.del hlru (s.page p).lruBaseType
    obtain ⟨hadd, hsur⟩ := hdel.add (Function.update_self ..) ((s.page p).lruBaseType + lruActive)
    rw [Function.update_idem] at hadd
    rw [hx]
    refine ⟨hadd, fun h0 => ?_⟩
    rw [hc, Page.lruList_of_activates hp, ← hs.del_surplus hlru h0]
    exact forall_congr' fun l => by rw [← hsur l]; rfl

/-- A step keeps the state of the chains and of the pages on the lists; and it keeps the counters right
    exactly if it charges the page it takes off to its list. -/
theorem LruOk.step (h : s.LruOk) {op : LruOp} (hst : LruSystem.step s op s') :
    s'.LruOk ∧ (s.Accounted → (s'.Accounted ↔ op.Charges s)) := by
  obtain ⟨p, x, z, hch, hm, hl, hu, -⟩ := h.exec hst.1 hst.2
  obtain ⟨hlists, hcount⟩ := hm.lists h.lists
  rw [← hch.lru_eq, ← hch.zone_eq] at hlists
  rw [accounted_iff, accounted_iff, hch.zone_eq]
  exact ⟨⟨hl, hu, hlists⟩, hcount⟩

/-- The first states are accounted. -/
theorem LruOk.init (h : LruSystem.init s) : s.LruOk ∧ s.Accounted := by
  obtain ⟨hzone, hpage, hchain⟩ := h
  have hhome : s.home = fun _ => none := funext fun p => (hpage p).2.1
  have hlinks : s.links = fun _ => [] := by
    funext c
    rw [links]
    cases hm : s.chain c with
    | none => rfl
    | some m =>
      rw [hchain c m hm]
      rfl
  refine ⟨⟨⟨?_, fun c m hm => ?_, fun p _ => (hpage p).2.1, fun p => (hpage p).2.2⟩,
    fun c m hm => ?_, fun _ => none, ?_, fun p => (hpage p).1.symm⟩, fun l => ?_⟩
  · rw [hhome, hlinks]
    exact .empty
  · rw [hchain c m hm]
    exact ⟨rfl, rfl, fun p hp => (by cases hp), fun p hp => (by cases hp)⟩
  · rw [hchain c m hm]
  · rw [show s.zone.list = fun _ => [] from funext fun l => (hzone l).1]
    exact .empty
  · rw [(hzone l).1, (hzone l).2]
    rfl

/-- The counters of the lists are right in the runs whose steps take pages off the lists they should be
    on; and a step of such a run that takes a page off another list makes a counter wrong. -/
theorem lru_accounting : (∀ s, LruSystem.ReachableBy LruOp.Charges s → s.Accounted) ∧
    ∀ s op s', LruSystem.ReachableBy LruOp.Charges s → LruSystem.step s op s' →
      (s'.Accounted ↔ op.Charges s) := by
  have hok : ∀ s, LruSystem.ReachableBy LruOp.Charges s → s.LruOk ∧ s.Accounted := fun s hs => by
    refine hs.invariant (fun s h => LruOk.init h) fun s op s' h hc heq => ?_
    obtain ⟨hs', hacc⟩ := h.1.step heq
    exact ⟨hs', (hacc h.2).2 hc⟩
  exact ⟨fun s hs => (hok s hs).2, fun s op s' hs heq => ((hok s hs).1.step heq).2 (hok s hs).2⟩

omit [Mlock] in
/-- Pages in use, and a chain. -/
def fresh (c : ChainRef) : Mm where
  allocated p := decide (p < maxPages)
  chain := Function.update (fun _ => none) c (some { id := 0 })

omit [Mlock] in
theorem fresh_init (mlock : Mlock) (c : ChainRef) : (@LruSystem mlock).init (fresh c) := by
  refine ⟨fun _ => ⟨rfl, rfl⟩, fun _ => ⟨rfl, rfl, of_decide_eq_true⟩, fun d m hm => ?_⟩
  have hm : Function.update (fun _ => none) c (some { id := 0 }) d = some m := hm
  by_cases hd : d = c
  · rw [hd, Function.update_self] at hm
    obtain rfl := Option.some.inj hm
    rfl
  · rw [Function.update_of_ne hd] at hm
    cases hm

omit [Mlock] in
/-- A page that is put on its list after it has been linked. -/
theorem lru_accounting_linked : ∃ s, (@LruSystem Mlock.flag).Reachable s ∧
    (s.page 0).chain = some 7 ∧ s.zone.list (lruInactiveFile + lruLinked) = [0] ∧ s.Accounted := by
  let _ := Mlock.flag
  have hs : LruSystem.ReachableBy LruOp.Charges (fresh 7) := .init (fresh_init Mlock.flag 7)
  obtain ⟨s, hr, hc, hl⟩ : ∃ s, LruSystem.RunBy LruOp.Charges (fresh 7) [.putbackPage 1,
      .linkPage 7 0, .putbackPage 0, .pageCacheRelease 1] s ∧ (s.page 0).chain = some 7 ∧
        s.zone.list (lruInactiveFile + lruLinked) = [0] := by
    refine ⟨_, .cons trivial ⟨by decide, rfl⟩ (.cons trivial ⟨by decide, rfl⟩
      (.cons trivial ⟨by decide, rfl⟩ (.cons (fun _ => ?_) ⟨by decide, rfl⟩ .nil))), rfl, rfl⟩
    exact List.mem_singleton.2 rfl
  exact ⟨s, (hr.reachable hs).reachable, hc, hl, lru_accounting.1 s (hr.reachable hs)⟩

omit [Mlock] in
/-- A page that is linked on its list is taken off it, and charged to another. -/
theorem lru_accounting_fails : ∃ s, (@LruSystem Mlock.flag).Reachable s ∧
    s.zone.nr (lruInactiveFile + lruLinked) = -1 ∧ s.zone.list (lruInactiveFile + lruLinked) = [] ∧
      s.zone.nr lruInactiveFile = 1 ∧ s.zone.list lruInactiveFile = [] := by
  let _ := Mlock.flag
  have hs : LruSystem.Reachable (fresh 7) := .init (fresh_init Mlock.flag 7)
  obtain ⟨s, hr, hnr⟩ : ∃ s, LruSystem.RunBy (fun _ _ => True) (fresh 7) [.putbackPage 0,
      .linkPage 7 0, .pageCacheRelease 0] s ∧ s.zone.nr (lruInactiveFile + lruLinked) = -1 ∧
        s.zone.list (lruInactiveFile + lruLinked) = [] ∧ s.zone.nr lruInactiveFile = 1 ∧
          s.zone.list lruInactiveFile = [] :=
    ⟨_, .cons trivial ⟨by decide, rfl⟩ (.cons trivial ⟨by decide, rfl⟩
      (.cons trivial ⟨by decide, rfl⟩ .nil)), rfl, rfl, rfl, rfl⟩
  exact ⟨s, hr.reachable hs, hnr⟩

/-! ## Links off the lists -/

/-- The pages on a list are on the list they should be on. -/
def Placed (s : Mm) : Prop :=
  ∀ p, (s.page p).testBit .lru = true → p ∈ s.zone.list (s.page p).lruList

omit [Mlock] in
/-- A page is placed on the list of its flags. -/
theorem Moves.placed {x : Page} {z : Zone} {charges keeps : Prop}
    (hm : Moves s p x z charges keeps) (hk : keeps) (hs : s.Placed) (hch : Changes s s' p x z) :
    s'.Placed := by
  intro q hq
  rw [hch.page_eq] at hq ⊢
  rw [hch.zone_eq]
  -- The pages other than `p` stay on their lists.
  have hdel : ∀ l k, q ≠ p → q ∈ s.zone.list k → q ∈ (s.zone.delPageFromLruList p l).list k :=
    fun l k hne hmem => (List.mem_erase_of_ne hne).2 hmem
  have hadd : ∀ (z : Zone) l k, q ∈ z.list k → q ∈ (z.addPageToLruList p l).list k :=
    fun z l k hmem => by
      change q ∈ Function.update z.list l (p :: z.list l) k
      by_cases hkl : k = l
      · subst hkl
        rw [Function.update_self]
        exact List.mem_cons_of_mem p hmem
      · rwa [Function.update_of_ne hkl]
  have hself : ∀ (z : Zone) l, p ∈ (z.addPageToLruList p l).list l := fun z l => by
    change p ∈ Function.update z.list l (p :: z.list l) l
    rw [Function.update_self]
    exact List.mem_cons_self
  by_cases hne : q = p
  · subst hne
    rw [Function.update_self] at hq ⊢
    cases hm with
    | stay hz hx _ hl => exact hz ▸ hl hk hq ▸ hs q (hx ▸ hq)
    | put _ _ hz _ => exact hz ▸ hself _ _
    | take _ hx _ _ => cases hx.symm.trans hq
    | move _ _ hl hz _ => exact hl ▸ hz ▸ hself _ _
  · rw [Function.update_of_ne hne] at hq ⊢
    cases hm with
    | stay hz _ _ _ => exact hz ▸ hs q hq
    | put _ _ hz _ => exact hz ▸ hadd _ _ _ (hs q hq)
    | take _ _ hz _ => exact hz ▸ hdel _ _ hne (hs q hq)
    | move _ _ _ hz _ => exact hz ▸ hadd _ _ _ (hdel _ _ hne (hs q hq))

/-- The counters are right in the runs that link and unlink pages off the lists only. -/
theorem accounted_of_keeps (hs : LruSystem.ReachableBy LruOp.Keeps s) : s.Accounted := by
  suffices h : s.LruOk ∧ s.Accounted ∧ s.Placed from h.2.1
  refine hs.invariant (I := fun s => s.LruOk ∧ s.Accounted ∧ s.Placed) (fun s h => ?_)
    fun s op s' h hk heq => ?_
  · refine ⟨(LruOk.init h).1, (LruOk.init h).2, fun p hp => ?_⟩
    cases (h.2.1 p).1.symm.trans hp
  · obtain ⟨hs', hacc⟩ := h.1.step heq
    obtain ⟨p, x, z, hch, hm, -⟩ := h.1.exec heq.1 heq.2
    refine ⟨hs', (hacc h.2.1).2 ?_, hm.placed hk h.2.2 hch⟩
    cases op with
    | isolateLruPage p => exact fun hp => h.2.2 p hp.1
    | pageCacheRelease p => exact fun hp => h.2.2 p hp
    | activatePage p =>
      intro hp
      rw [Page.activates, Bool.and_eq_true, Bool.and_eq_true] at hp
      exact h.2.2 p hp.1.1
    | markPageAccessed p =>
      intro hp
      rw [Page.promotes, Bool.and_eq_true] at hp
      exact h.2.2 p hp.2
    | _ => trivial

end Mm

end Mcpq.Kernel
