import Mcpq.Hierarchical.Run
import Mcpq.Hierarchical.ChainSpec

/-!
# The chains of the manager

The invariant of the chains of a manager (`ChainsOk`): each chain holds the list `L id` of the
pages that reside on it, in the order they were linked, and the other pages have no links. It is
kept by every method of a chain:

* `ChainsOk.unlink`, `ChainsOk.link`: a page leaves its chain, or joins one;
* `ChainsOk.setAnchor`: a chain gets an anchor;
* `ChainsOk.congr`: anything that leaves the links of the pages and the lists of the chains alone.

What these methods do to the rest of the manager is `Moves`: nothing but where pages reside, and
which chains they are assigned to. A page up to these is its `Page.core`.
-/

namespace Mcpq.Hierarchical

/-- The page without its place on a chain, nor its assigned chain. -/
def Page.core (p : Page) : Page :=
  { p.detach with resides := -1, linkedAt := 0, assigned := -1 }

/-- The place of a page on a chain. -/
def Page.place (p : Page) : Option PageRef × Option PageRef × ℤ × ℕ :=
  (p.next, p.prev, p.resides, p.linkedAt)

/-- The core has nothing of the pointers. -/
theorem Page.core_eq_of_detach {p q : Page} (h : p.detach = q.detach) : p.core = q.core := by
  rw [core, h, core]

/-- The chain but for its cached timestamp. -/
def MemoryChain.frame (c : MemoryChain) : MemoryChain :=
  { c with timestamp := 0, representative := none }

/-- The pages of a chain do not depend on its representative. -/
theorem Holds.congr_frame {c c' : MemoryChain} {h : Heap} {l : List PageRef} (hc : Holds c h l)
    (hf : c'.frame = c.frame) : Holds c' h l := by
  have hhead : c'.head = c.head :=
    (congrArg MemoryChain.head hf :)
  have htail : c'.tail = c.tail :=
    (congrArg MemoryChain.tail hf :)
  have hsize : c'.size = c.size :=
    (congrArg MemoryChain.size hf :)
  have hanchor : c'.anchor = c.anchor :=
    (congrArg MemoryChain.anchor hf :)
  exact ⟨hhead ▸ htail ▸ hc.list, hsize ▸ hc.size, hanchor ▸ hc.anchor⟩

namespace HierarchicalMemoryManager

/-- The three identifiers of the system chains. -/
theorem isSysMemChain_iff {id : ℤ} : isSysMemChain id = true ↔ 0 ≤ id ∧ id ≤ 2 := by
  rw [isSysMemChain, decide_eq_true_iff]
  rfl

/-- All others are user chains. -/
theorem isUsrMemChain_iff {id : ℤ} : isUsrMemChain id = true ↔ ¬(0 ≤ id ∧ id ≤ 2) := by
  rw [← isSysMemChain_iff, isUsrMemChain]
  simp

/-- The chains that exist: the system chains and the live user chains. -/
def IsChain (s : HierarchicalMemoryManager) (id : ℤ) : Prop :=
  isSysMemChain id = true ∨ id ∈ s.usrChains

/-- The identifiers of the user chains are those given out by the manager. -/
structure IdsOk (s : HierarchicalMemoryManager) : Prop where
  nodup : s.usrChains.Nodup
  range : ∀ id ∈ s.usrChains, 3 ≤ id ∧ id < s.chainId
  three_le : 3 ≤ s.chainId

/-- The user chains are user chains by their identifiers. -/
theorem IdsOk.isUsr {s : HierarchicalMemoryManager} (hs : s.IdsOk) {id : ℤ}
    (hid : id ∈ s.usrChains) : isUsrMemChain id = true := by
  rw [isUsrMemChain_iff]
  have := hs.range id hid
  omega

/-- The identifiers of chains are below the next one. -/
theorem IdsOk.isChain_nonneg {s : HierarchicalMemoryManager} (hs : s.IdsOk) {id : ℤ}
    (hid : s.IsChain id) : 0 ≤ id ∧ id < s.chainId := by
  have h3 := hs.three_le
  rcases hid with hid | hid
  · have := isSysMemChain_iff.1 hid
    omega
  · have := hs.range id hid
    omega

/-- A chain that exists is found. -/
theorem chainOf_eq {s : HierarchicalMemoryManager} {id : ℤ} (hid : s.IsChain id) :
    s.chainOf id = .ok id := by
  rw [chainOf, usrChain]
  rcases hid with hid | hid
  · rw [if_pos hid]
  · rw [if_pos hid, ite_self]

/-- `chain.anchor = page`. -/
def setAnchor (s : HierarchicalMemoryManager) (id : ℤ) (p : PageRef) :
    HierarchicalMemoryManager :=
  { s with chains := Function.update s.chains id { s.chains id with anchor := some p } }

/-- An anchor is a link, and the page becomes the anchor. -/
theorem chainAnchor_eq (s : HierarchicalMemoryManager) (id : ℤ) (p : PageRef) :
    s.chainAnchor id p = (s.chainLink id p).map fun (e, s') => (e, s'.setAnchor id p) := by
  rw [chainAnchor, chainLink, MemoryChain.anchorPage]
  cases (s.chains id).link s.heap p with
  | error e => rfl
  | ok r =>
    obtain ⟨e, h, c⟩ := r
    simp only [ok_bind, pure_eq_ok, Except.map, setAnchor, setChain, Function.update_self,
      Function.update_idem]

/-- The chains hold the pages `L`. -/
structure ChainsOk (s : HierarchicalMemoryManager) (L : ℤ → List PageRef) : Prop where
  holds : ∀ id, Holds (s.chains id) s.heap (L id)
  id_eq : ∀ id, (s.chains id).id = id
  bounded : ∀ id, (s.chains id).bounded = false
  mem_iff : ∀ id r, r ∈ L id ↔ (s.heap.page r).resides = id ∧ id ≠ -1
  resides : ∀ r, (s.heap.page r).resides ≠ -1 → s.IsChain (s.heap.page r).resides
  off : ∀ r, (s.heap.page r).resides = -1 → s.heap.next r = none ∧ s.heap.prev r = none
  blank : ∀ r, s.heap.fresh ≤ r → s.heap.page r = {}
  ordered : ∀ id, (L id).Pairwise fun a b =>
    (s.heap.page b).linkedAt < (s.heap.page a).linkedAt
  linkedAt_lt : ∀ r, (s.heap.page r).resides ≠ -1 → (s.heap.page r).linkedAt < s.heap.links

/-- The manager `s'` differs from `s` by where pages reside and are assigned, and by the cached
    timestamps. -/
structure Moves (s s' : HierarchicalMemoryManager) : Prop where
  rest : s' = { s with heap := s'.heap, chains := s'.chains }
  core_eq : ∀ q, (s'.heap.page q).core = (s.heap.page q).core
  fresh_eq : s'.heap.fresh = s.heap.fresh
  clock_eq : s'.heap.clock = s.heap.clock

namespace Moves

variable {s s' s'' : HierarchicalMemoryManager}

/-- Nothing has moved. -/
theorem refl (s : HierarchicalMemoryManager) : Moves s s := ⟨rfl, fun _ => rfl, rfl, rfl⟩

/-- One move after the other. -/
theorem trans (h : Moves s s') (h' : Moves s' s'') : Moves s s'' :=
  ⟨by rw [h'.rest, h.rest], fun q => (h'.core_eq q).trans (h.core_eq q),
    h'.fresh_eq.trans h.fresh_eq, h'.clock_eq.trans h.clock_eq⟩

variable (h : Moves s s')
include h

theorem memory_eq : s'.memory = s.memory := by rw [h.rest]
theorem pageTable_eq : s'.pageTable = s.pageTable := by rw [h.rest]
theorem swap_eq : s'.swap = s.swap := by rw [h.rest]
theorem usrChains_eq : s'.usrChains = s.usrChains := by rw [h.rest]
theorem chainId_eq : s'.chainId = s.chainId := by rw [h.rest]
theorem size_eq : s'.size = s.size := by rw [h.rest]

theorem address_eq (q : PageRef) : (s'.heap.page q).address = (s.heap.page q).address :=
  (congrArg Page.address (h.core_eq q) :)

theorem frame_eq (q : PageRef) : (s'.heap.page q).frame = (s.heap.page q).frame :=
  (congrArg Page.frame (h.core_eq q) :)

theorem timestamp_eq (q : PageRef) : (s'.heap.page q).timestamp = (s.heap.page q).timestamp :=
  (congrArg Page.timestamp (h.core_eq q) :)

end Moves

/-- The page `p` leaves the chain `id`. -/
structure Unlinks (s s' : HierarchicalMemoryManager) (id : ℤ) (p : PageRef) : Prop
    extends Moves s s' where
  assigned_eq : ∀ q, (s'.heap.page q).assigned = (s.heap.page q).assigned
  resides_eq : ∀ q, (s'.heap.page q).resides = if q = p then -1 else (s.heap.page q).resides
  stamp_eq : ∀ d, (s'.chains d).timestamp = (s.chains d).timestamp
  representative_eq : ∀ d, (s'.chains d).representative =
    if d = id ∧ (s.chains d).representative = some p then none else (s.chains d).representative

/-- The page `p` joins the chain `id`, and represents it if its timestamp is greater. -/
structure Links (s s' : HierarchicalMemoryManager) (id : ℤ) (p : PageRef) : Prop
    extends Moves s s' where
  assigned_eq : ∀ q, (s'.heap.page q).assigned = (s.heap.page q).assigned
  resides_eq : ∀ q, (s'.heap.page q).resides = if q = p then id else (s.heap.page q).resides
  stamp_eq : ∀ d, (s'.chains d).timestamp =
    if d = id ∧ (s.heap.page p).timestamp > (s.chains d).timestamp
    then (s.heap.page p).timestamp else (s.chains d).timestamp
  representative_eq : ∀ d, (s'.chains d).representative =
    if d = id ∧ (s.heap.page p).timestamp > (s.chains d).timestamp
    then some p else (s.chains d).representative

namespace ChainsOk

variable {s s' : HierarchicalMemoryManager} {L : ℤ → List PageRef} {id : ℤ} {p : PageRef}

/-- A page on a chain exists. -/
theorem lt_fresh (hs : s.ChainsOk L) {r : PageRef} (hr : (s.heap.page r).resides ≠ -1) :
    r < s.heap.fresh := by
  by_contra hlt
  rw [hs.blank r (not_lt.1 hlt)] at hr
  exact hr rfl

/-- The pages of a chain exist. -/
theorem mem_lt_fresh (hs : s.ChainsOk L) {r : PageRef} (hr : r ∈ L id) : r < s.heap.fresh := by
  obtain ⟨h₁, h₂⟩ := (hs.mem_iff id r).1 hr
  exact hs.lt_fresh (h₁ ▸ h₂)

/-- A chain has no more pages than there are. -/
theorem length_le_fresh (hs : s.ChainsOk L) (id : ℤ) : (L id).length ≤ s.heap.fresh :=
  (hs.holds id).length_le fun _ hq => hs.mem_lt_fresh hq

/-- Only chains have pages. -/
theorem isChain_of_mem (hs : s.ChainsOk L) {r : PageRef} (hr : r ∈ L id) : s.IsChain id := by
  obtain ⟨h₁, h₂⟩ := (hs.mem_iff id r).1 hr
  exact h₁ ▸ hs.resides r (h₁ ▸ h₂)

/-- A page that resides on a chain is in its list. -/
theorem mem_resides (hs : s.ChainsOk L) {r : PageRef} (hr : (s.heap.page r).resides ≠ -1) :
    r ∈ L (s.heap.page r).resides :=
  (hs.mem_iff _ r).2 ⟨rfl, hr⟩

/-- What leaves the places of the pages and the lists of the chains alone keeps the invariant. -/
theorem congr (hs : s.ChainsOk L) (hplace : ∀ q, (s'.heap.page q).place = (s.heap.page q).place)
    (hblank : ∀ r, s'.heap.fresh ≤ r → s'.heap.page r = {}) (hlinks : s'.heap.links = s.heap.links)
    (hframe : ∀ id, (s'.chains id).frame = (s.chains id).frame)
    (hchain : ∀ id, L id ≠ [] → s.IsChain id → s'.IsChain id) : s'.ChainsOk L := by
  have hnext : ∀ q, s'.heap.next q = s.heap.next q := fun q => (congrArg (·.1) (hplace q) :)
  have hprev : ∀ q, s'.heap.prev q = s.heap.prev q := fun q => (congrArg (·.2.1) (hplace q) :)
  have hres : ∀ q, (s'.heap.page q).resides = (s.heap.page q).resides :=
    fun q => (congrArg (·.2.2.1) (hplace q) :)
  have hat : ∀ q, (s'.heap.page q).linkedAt = (s.heap.page q).linkedAt :=
    fun q => (congrArg (·.2.2.2) (hplace q) :)
  refine ⟨fun id => ?_, fun id => ?_, fun id => ?_, fun id r => ?_, fun r hr => ?_, fun r hr => ?_,
    hblank, fun id => ?_, fun r hr => ?_⟩
  · have hc := (hs.holds id).congr_frame (hframe id)
    exact ⟨hc.list.congr (fun q _ => hnext q) fun q _ => hprev q, hc.size, hc.anchor⟩
  · exact (congrArg MemoryChain.id (hframe id) :).trans (hs.id_eq id)
  · exact (congrArg MemoryChain.bounded (hframe id) :).trans (hs.bounded id)
  · rw [hres, hs.mem_iff]
  · rw [hres] at hr ⊢
    exact hchain _ (List.ne_nil_of_mem (hs.mem_resides hr)) (hs.resides r hr)
  · rw [hres] at hr
    rw [hnext, hprev]
    exact hs.off r hr
  · simpa only [hat] using hs.ordered id
  · rw [hres] at hr
    rw [hat, hlinks]
    exact hs.linkedAt_lt r hr

/-- A method that moves the page `p` to or from the chain `id` keeps the invariant. -/
private theorem move (hs : s.ChainsOk L) {h' : Heap} {c' : MemoryChain} {l : List PageRef}
    (hne : id ≠ -1) (hw : Writes s.heap h' (L id) p) (hc : Holds c' h' l) (hid : c'.id = id)
    (hb : c'.bounded = false) (hp : p < s.heap.fresh)
    (hbefore : (s.heap.page p).resides = id ∨ (s.heap.page p).resides = -1)
    (hlinks : s.heap.links ≤ h'.links)
    (hmem : ∀ q, q ∈ l ↔ (h'.page q).resides = id)
    (hafter : (h'.page p).resides = -1 ∧ h'.next p = none ∧ h'.prev p = none ∨
      (h'.page p).resides = id ∧ s.IsChain id ∧ (h'.page p).linkedAt < h'.links)
    (hord : l.Pairwise fun a b => (h'.page b).linkedAt < (h'.page a).linkedAt) :
    (s.setChain id h' c').ChainsOk (Function.update L id l) := by
  have hres : ∀ q, q ≠ p → (h'.page q).resides = (s.heap.page q).resides :=
    fun q hq => (congrArg Page.resides (hw.detach_eq q hq) :)
  have hat : ∀ q, q ≠ p → (h'.page q).linkedAt = (s.heap.page q).linkedAt :=
    fun q hq => (congrArg Page.linkedAt (hw.detach_eq q hq) :)
  -- The pages of the other chains are left as they are.
  have hother : ∀ d, d ≠ id → ∀ q ∈ L d, q ≠ p ∧ h'.page q = s.heap.page q := fun d hd q hq => by
    obtain ⟨h₁, h₂⟩ := (hs.mem_iff d q).1 hq
    have hqp : q ≠ p := by
      rintro rfl
      rcases hbefore with h | h
      · exact hd (h₁.symm.trans h)
      · exact h₂ (h₁.symm.trans h)
    exact ⟨hqp, hw.page_eq q (fun h => hd (h₁.symm.trans ((hs.mem_iff id q).1 h).1)) hqp⟩
  refine ⟨fun d => ?_, fun d => ?_, fun d => ?_, fun d q => ?_, fun q hq => ?_, fun q hq => ?_,
    fun q hq => ?_, fun d => ?_, fun q hq => ?_⟩
  · by_cases hd : d = id
    · subst hd
      simpa [setChain] using hc
    · simpa [setChain, hd] using (hs.holds d).congr fun q hq => (hother d hd q hq).2
  · by_cases hd : d = id
    · subst hd
      simpa [setChain] using hid
    · simpa [setChain, hd] using hs.id_eq d
  · by_cases hd : d = id
    · subst hd
      simpa [setChain] using hb
    · simpa [setChain, hd] using hs.bounded d
  · by_cases hd : d = id
    · subst hd
      simpa [setChain, hne] using hmem q
    · rw [Function.update_of_ne hd]
      by_cases hqp : q = p
      · subst hqp
        refine ⟨fun h => absurd rfl (hother d hd q h).1, fun ⟨h₁, h₂⟩ => ?_⟩
        rcases hafter with ⟨h, _⟩ | ⟨h, _⟩
        · exact absurd (h₁.symm.trans h) h₂
        · exact absurd (h₁.symm.trans h) hd
      · rw [hs.mem_iff]
        simp only [setChain, hres q hqp]
  · by_cases hqp : q = p
    · subst hqp
      rcases hafter with ⟨h, _⟩ | ⟨h, hch, _⟩
      · exact absurd h hq
      · simp only [setChain] at *
        rw [h]
        exact hch
    · simp only [setChain, hres q hqp] at hq ⊢
      exact hs.resides q hq
  · by_cases hqp : q = p
    · subst hqp
      rcases hafter with ⟨_, h⟩ | ⟨h, _⟩
      · exact h
      · exact absurd (h.symm.trans hq) hne
    · simp only [setChain, hres q hqp] at hq
      have hql : q ∉ L id := fun h => hne (((hs.mem_iff id q).1 h).1.symm.trans hq)
      simpa only [setChain, Heap.next, Heap.prev, hw.page_eq q hql hqp] using hs.off q hq
  · simp only [setChain, hw.fresh_eq] at hq ⊢
    rw [hw.page_eq q (fun h => absurd (hs.mem_lt_fresh h) (not_lt.2 hq)) (hp.trans_le hq).ne']
    exact hs.blank q hq
  · by_cases hd : d = id
    · subst hd
      simpa [setChain] using hord
    · rw [Function.update_of_ne hd]
      refine (hs.ordered d).imp_of_mem fun {a b} ha hb hab => ?_
      simp only [setChain]
      rw [hat a (hother d hd a ha).1, hat b (hother d hd b hb).1]
      exact hab
  · by_cases hqp : q = p
    · subst hqp
      rcases hafter with ⟨h, _⟩ | ⟨_, _, h⟩
      · exact absurd h hq
      · exact h
    · simp only [setChain, hres q hqp, hat q hqp] at hq ⊢
      exact (hs.linkedAt_lt q hq).trans_le hlinks

/-! ## Unlinking and linking -/

/-- What `unlink` does to the manager, for a page of the chain. -/
theorem unlink (hs : s.ChainsOk L) (hp : p ∈ L id) :
    (s.chainUnlink id (some p)).ChainsOk (Function.update L id ((L id).erase p)) ∧
      Unlinks s (s.chainUnlink id (some p)) id p := by
  obtain ⟨hr, hne⟩ := (hs.mem_iff id p).1 hp
  obtain ⟨h', head, tail, heq, hc, hw, hlinks, hpage⟩ :=
    MemoryChain.unlink_spec (hs.holds id) hp (hr ▸ hne)
  have hs' : s.chainUnlink id (some p) =
      s.setChain id h' ((s.chains id).unlink s.heap (some p)).2 := by
    rw [chainUnlink, heq]
  have hres : ∀ q, q ≠ p → (h'.page q).resides = (s.heap.page q).resides :=
    fun q hq => (congrArg Page.resides (hw.detach_eq q hq) :)
  have hresp : (h'.page p).resides = -1 := by rw [hpage]
  have hat : ∀ q, (h'.page q).linkedAt = (s.heap.page q).linkedAt := fun q => by
    by_cases hq : q = p
    · rw [hq, hpage]
    · exact (congrArg Page.linkedAt (hw.detach_eq q hq) :)
  refine ⟨?_, ⟨?_, fun q => ?_, ?_, ?_⟩, fun q => ?_, fun q => ?_, fun d => ?_, fun d => ?_⟩
  · rw [hs']
    refine hs.move hne hw hc ?_ ?_ (hs.mem_lt_fresh hp) (.inl hr) hlinks.ge (fun q => ?_)
      (.inl ⟨hresp, ?_, ?_⟩) ?_
    · rw [heq]
      exact hs.id_eq id
    · rw [heq]
      exact hs.bounded id
    · -- The pages that reside on the chain are the others of its list.
      rw [(hs.holds id).list.nodup.mem_erase_iff, hs.mem_iff]
      by_cases hq : q = p
      · subst hq
        simp [hresp, hne.symm]
      · simp [hq, hres q hq, hne]
    · rw [Heap.next, hpage]
    · rw [Heap.prev, hpage]
    · -- The order in which they were linked is that of before.
      simp only [hat]
      exact (hs.ordered id).sublist List.erase_sublist
  · rw [hs']
    rfl
  · rw [hs']
    by_cases hq : q = p
    · subst hq
      change (h'.page q).core = _
      rw [hpage]
      rfl
    · exact Page.core_eq_of_detach (hw.detach_eq q hq)
  · rw [hs']
    exact hw.fresh_eq
  · rw [hs']
    exact hw.clock_eq
  · rw [hs']
    by_cases hq : q = p
    · subst hq
      change (h'.page q).assigned = _
      rw [hpage]
    · exact (congrArg Page.assigned (hw.detach_eq q hq) :)
  · rw [hs']
    split_ifs with hq
    · rw [hq]
      exact hresp
    · exact hres q hq
  · rw [hs', heq]
    by_cases hd : d = id
    · subst hd
      simp [setChain]
    · simp [setChain, hd]
  · rw [hs', heq]
    by_cases hd : d = id
    · subst hd
      simp [setChain]
    · simp [setChain, hd]

/-- What `link` does to the manager, for a page that is on no chain. -/
theorem link (hs : s.ChainsOk L) (hid : s.IsChain id) (hne : id ≠ -1) (hp : p < s.heap.fresh)
    (hr : (s.heap.page p).resides = -1) :
    ∃ s', s.chainLink id p = .ok (none, s') ∧
      s'.ChainsOk (Function.update L id (p :: L id)) ∧ Links s s' id p := by
  have hpl : p ∉ L id := fun h => hne (((hs.mem_iff id p).1 h).1.symm.trans hr)
  have hrid : (s.heap.page p).resides ≠ (s.chains id).id := by
    rw [hs.id_eq, hr]
    exact hne.symm
  obtain ⟨hn, hpv⟩ := hs.off p hr
  obtain ⟨h', head, tail, heq, hc, hw, hlinks, hpage⟩ :=
    MemoryChain.link_spec (hs.bounded id) (hs.holds id) hpl hrid hn hpv
  have hres : ∀ q, q ≠ p → (h'.page q).resides = (s.heap.page q).resides :=
    fun q hq => (congrArg Page.resides (hw.detach_eq q hq) :)
  have hresp : (h'.page p).resides = id :=
    (congrArg Page.resides hpage :).trans (hs.id_eq id)
  have hat : ∀ q, q ≠ p → (h'.page q).linkedAt = (s.heap.page q).linkedAt :=
    fun q hq => (congrArg Page.linkedAt (hw.detach_eq q hq) :)
  have hatp : (h'.page p).linkedAt = s.heap.links := (congrArg Page.linkedAt hpage :)
  refine ⟨_, by rw [chainLink, heq]; rfl, ?_, ⟨rfl, fun q => ?_, hw.fresh_eq, hw.clock_eq⟩,
    fun q => ?_, fun q => ?_, fun d => ?_, fun d => ?_⟩
  · refine hs.move hne hw ⟨hc.list, hc.size, hc.anchor⟩ (hs.id_eq id) (hs.bounded id) hp (.inr hr)
      (by omega) (fun q => ?_) (.inr ⟨hresp, hid, by omega⟩) ?_
    · -- The pages that reside on the chain are those of before and the page.
      rw [List.mem_cons, hs.mem_iff]
      by_cases hq : q = p
      · simp [hq, hresp]
      · simp [hq, hres q hq, hne]
    · -- The page is linked after the others.
      refine List.pairwise_cons.2 ⟨fun q hq => ?_, (hs.ordered id).imp_of_mem ?_⟩
      · obtain ⟨hq₁, hq₂⟩ := (hs.mem_iff id q).1 hq
        rw [hat q (fun h => hpl (h ▸ hq)), hatp]
        exact hs.linkedAt_lt q (hq₁ ▸ hq₂)
      · intro a b ha hb hab
        rw [hat a (fun h => hpl (h ▸ ha)), hat b (fun h => hpl (h ▸ hb))]
        exact hab
  · by_cases hq : q = p
    · subst hq
      exact (congrArg Page.core hpage :)
    · exact Page.core_eq_of_detach (hw.detach_eq q hq)
  · by_cases hq : q = p
    · subst hq
      exact (congrArg Page.assigned hpage :)
    · exact (congrArg Page.assigned (hw.detach_eq q hq) :)
  · by_cases hq : q = p
    · rw [if_pos hq, hq]
      exact hresp
    · rw [if_neg hq]
      exact hres q hq
  · by_cases hd : d = id
    · subst hd
      simp [setChain]
    · simp [setChain, hd]
  · by_cases hd : d = id
    · subst hd
      simp [setChain]
    · simp [setChain, hd]

/-! ## Anchoring -/

/-- A page of the chain becomes its anchor. -/
theorem setAnchor (hs : s.ChainsOk L) (hp : p ∈ L id) : (s.setAnchor id p).ChainsOk L := by
  refine ⟨fun d => ?_, fun d => ?_, fun d => ?_, hs.mem_iff, hs.resides, hs.off, hs.blank,
    hs.ordered, hs.linkedAt_lt⟩
  · by_cases hd : d = id
    · subst hd
      have hc := hs.holds d
      simp only [HierarchicalMemoryManager.setAnchor, Function.update_self]
      exact ⟨hc.list, hc.size, fun a ha => Option.some.inj ha ▸ hp⟩
    · simp only [HierarchicalMemoryManager.setAnchor, Function.update_of_ne hd]
      exact hs.holds d
  · by_cases hd : d = id
    · subst hd
      simpa [HierarchicalMemoryManager.setAnchor] using hs.id_eq d
    · simpa [HierarchicalMemoryManager.setAnchor, hd] using hs.id_eq d
  · by_cases hd : d = id
    · subst hd
      simpa [HierarchicalMemoryManager.setAnchor] using hs.bounded d
    · simpa [HierarchicalMemoryManager.setAnchor, hd] using hs.bounded d

/-! ## Assigning -/

theorem assign_place (q : PageRef) :
    ((s.assign p id).heap.page q).place = (s.heap.page q).place := by
  simp only [assign, Heap.modify_page]
  split_ifs with hq
  · rw [hq]; rfl
  · rfl

theorem assign_resides (q : PageRef) :
    ((s.assign p id).heap.page q).resides = (s.heap.page q).resides :=
  (congrArg (·.2.2.1) (assign_place q) :)

/-- An assignment does not change what is on the chains. -/
theorem assign (hs : s.ChainsOk L) (hp : p < s.heap.fresh) : (s.assign p id).ChainsOk L := by
  refine hs.congr assign_place (fun r hr => ?_) rfl (fun _ => rfl) fun _ _ h => h
  have hrp : r ≠ p := (hp.trans_le hr).ne'
  simp only [HierarchicalMemoryManager.assign, Heap.modify_page_of_ne _ _ hrp]
  exact hs.blank r hr

/-- An assignment moves no page. -/
theorem assign_moves (s : HierarchicalMemoryManager) (p : PageRef) (id : ℤ) :
    Moves s (s.assign p id) := by
  refine ⟨rfl, fun q => ?_, rfl, rfl⟩
  simp only [HierarchicalMemoryManager.assign, Heap.modify_page]
  split_ifs with hq
  · rw [hq]; rfl
  · rfl

/-! ## Breaking -/

/-- What `unchain` does to the manager: the chain holds no page any more, and its cached
    timestamp is kept. -/
theorem unchain (hs : s.ChainsOk L) (hne : id ≠ -1) :
    ∃ h c, (s.chains id).unchain s.heap = .ok ((L id).map some, h, c) ∧
      (s.setChain id h c).ChainsOk (Function.update L id []) ∧ Moves s (s.setChain id h c) ∧
      (∀ q, (h.page q).assigned = (s.heap.page q).assigned) ∧
      (∀ q, (h.page q).resides = if q ∈ L id then -1 else (s.heap.page q).resides) ∧
      c.timestamp = (s.chains id).timestamp ∧ c.representative = (s.chains id).representative := by
  have hpage := MemoryChain.foldl_reset_page (L id) s.heap
  obtain ⟨hf₁, hf₂, hf₃, hf₄⟩ := MemoryChain.foldl_reset_fields (L id) s.heap
  have hout : ∀ q, q ∉ L id → ((L id).foldl MemoryChain.reset s.heap).page q = s.heap.page q :=
    fun q hq => by rw [hpage, if_neg hq]
  have hres : ∀ q, (((L id).foldl MemoryChain.reset s.heap).page q).resides =
      if q ∈ L id then -1 else (s.heap.page q).resides := fun q => by
    rw [hpage]
    split_ifs <;> rfl
  have hat : ∀ q, (((L id).foldl MemoryChain.reset s.heap).page q).linkedAt =
      (s.heap.page q).linkedAt := fun q => by
    rw [hpage]
    split_ifs <;> rfl
  -- The pages of the other chains are left as they are.
  have hother : ∀ d, d ≠ id → ∀ q ∈ L d, q ∉ L id := fun d hd q hq hq' =>
    hd (((hs.mem_iff d q).1 hq).1.symm.trans ((hs.mem_iff id q).1 hq').1)
  refine ⟨_, _, MemoryChain.unchain_spec (hs.holds id), ⟨fun d => ?_, fun d => ?_, fun d => ?_,
    fun d q => ?_, fun q hq => ?_, fun q hq => ?_, fun q hq => ?_, fun d => ?_, fun q hq => ?_⟩,
    ⟨rfl, fun q => ?_, hf₁, hf₂⟩, fun q => ?_, hres, rfl, rfl⟩
  · by_cases hd : d = id
    · subst hd
      simpa [setChain] using MemoryChain.holds_unchained (s.chains d) _
    · simpa [setChain, hd] using (hs.holds d).congr fun q hq => hout q (hother d hd q hq)
  · by_cases hd : d = id
    · subst hd
      simpa [setChain] using hs.id_eq d
    · simpa [setChain, hd] using hs.id_eq d
  · by_cases hd : d = id
    · subst hd
      simpa [setChain] using hs.bounded d
    · simpa [setChain, hd] using hs.bounded d
  · simp only [setChain, hres]
    by_cases hd : d = id
    · subst hd
      have := hs.mem_iff d q
      by_cases hq : q ∈ L d
      · simpa [hq] using fun h : -1 = d => h.symm
      · simpa [hq] using fun h₁ => not_and.1 (mt this.2 hq) h₁
    · rw [Function.update_of_ne hd, hs.mem_iff]
      by_cases hq : q ∈ L id
      · have := ((hs.mem_iff id q).1 hq).1
        simp only [hq, if_true, this]
        constructor
        · rintro ⟨h, _⟩
          exact absurd h.symm hd
        · rintro ⟨h, h'⟩
          exact absurd h.symm h'
      · simp only [hq, if_false]
  · simp only [setChain, hres] at hq ⊢
    by_cases hql : q ∈ L id
    · simp [hql] at hq
    · simp only [hql, if_false] at hq ⊢
      exact hs.resides q hq
  · simp only [setChain, Heap.next, Heap.prev, hpage]
    by_cases hql : q ∈ L id
    · simp [hql]
    · simp only [setChain, hres, hql, if_false] at hq
      simp only [hql, if_false]
      exact hs.off q hq
  · simp only [setChain, hf₁] at hq ⊢
    rw [hout q fun h => absurd (hs.mem_lt_fresh h) (not_lt.2 hq)]
    exact hs.blank q hq
  · simp only [setChain, hat]
    by_cases hd : d = id
    · subst hd
      simp
    · rw [Function.update_of_ne hd]
      exact hs.ordered d
  · simp only [setChain, hres, hat, hf₄] at hq ⊢
    by_cases hql : q ∈ L id
    · simp [hql] at hq
    · simp only [hql, if_false] at hq
      exact hs.linkedAt_lt q hq
  · simp only [setChain, hpage]
    split_ifs <;> rfl
  · rw [hpage]
    split_ifs <;> rfl

end ChainsOk

end HierarchicalMemoryManager

end Mcpq.Hierarchical
