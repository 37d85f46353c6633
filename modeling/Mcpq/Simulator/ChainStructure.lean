import Mcpq.Simulator.ChainTable
import Mcpq.Lib.Transition

/-!
# The structure of the chains

The runs of a memory manager with the chained LRU policy, whose methods may also be called directly
(`ChainedSystem`). The chains are doubly linked lists of the pages that name them (`WellFormed`) as long
as no page is unlinked from a chain other than its own; otherwise they are not any more
(`chain_structure`).
-/

namespace Mcpq.Simulator

open ChainedLeastRecentlyUsed

/-- A call to the manager or to its policy. -/
inductive PolicyCall
  | access (address : ℤ)
  | newChain
  | newAnchoredChain (anchored : Bool)
  | love (page link : ℤ)
  | lovePin (page link : ℤ) (pin : Bool)
  | hate (page : ℤ)
  | hateLink (page link : ℤ)
  | hateChain (link : ℤ)
  | findPageToEvict (pages : List ℤ)
  deriving DecidableEq, Repr

/-- A manager with the chained LRU policy. -/
abbrev ChainedManager := MemoryManager ChainedLeastRecentlyUsed

namespace PolicyCall

/-- The pages a call is given. -/
def pages : PolicyCall → List ℤ
  | love page _ => [page]
  | lovePin page _ _ => [page]
  | hate page => [page]
  | hateLink page _ => [page]
  | findPageToEvict pages => pages
  | _ => []

/-- The chain a call is given. -/
def link? : PolicyCall → Option ℤ
  | love _ link => some link
  | lovePin _ link _ => some link
  | hateLink _ link => some link
  | hateChain link => some link
  | _ => none

/-- Execute a call. -/
def exec (m : ChainedManager) : PolicyCall → Java ChainedManager
  | access address => (m.access chainedLeastRecentlyUsedReplacementPolicy address).map (·.1)
  | newChain => .ok { m with policy := m.policy.newChain.2 }
  | newAnchoredChain anchored => .ok { m with policy := (m.policy.newAnchoredChain anchored).2 }
  | love page link => m.love chainedLeastRecentlyUsedReplacementPolicy page link
  | lovePin page link pin => m.lovePin chainedLeastRecentlyUsedReplacementPolicy page link pin
  | hate page => do
    let (heap, policy) ← m.policy.hate m.heap (m.getFromMemory page)
    pure { m with heap, policy }
  | hateLink page link => m.hate chainedLeastRecentlyUsedReplacementPolicy page link
  | hateChain link => do
    let (heap, policy) ← m.policy.hateChain m.heap link
    pure { m with heap, policy }
  | findPageToEvict pages => do
    let (_, heap, policy) ← m.policy.findPageToEvict m.heap (pages.map some)
    pure { m with heap, policy }

end PolicyCall

/-- Execute a call with pages in memory and a chain of the table. -/
def PolicyCall.checked (m : ChainedManager) (call : PolicyCall) : Java ChainedManager :=
  if (∀ p ∈ call.pages, (m.getFromMemory p).isSome = true) ∧
      ∀ link ∈ call.link?, link ∈ m.policy.linkTable
  then call.exec m else .error .illegalArgument

/-- A call that returns normally, with pages in memory and a chain of the table. -/
structure PolicyStep (m : ChainedManager) (call : PolicyCall) (m' : ChainedManager) : Prop where
  resident : ∀ p ∈ call.pages, (m.getFromMemory p).isSome = true
  exists_link : ∀ link, call.link? = some link → link ∈ m.policy.linkTable
  returns : call.exec m = .ok m'

/-- The runs of a manager of capacity `n` with the chained LRU policy. -/
def ChainedSystem (n : ℕ) : Transition ChainedManager PolicyCall where
  init m := ∃ clock, m = .make {} n clock
  step := PolicyStep

theorem PolicyStep.of_checked {m m' : ChainedManager} {call : PolicyCall}
    (h : call.checked m = .ok m') : PolicyStep m call m' := by
  rw [PolicyCall.checked] at h
  split_ifs at h with hc
  exact ⟨hc.1, hc.2, h⟩

/-- The chains of the table hold the pages `L`. -/
structure ChainLists (s : ChainedLeastRecentlyUsed) (h : Heap) (L : ℤ → List PageRef) : Prop where
  list : ∀ id ∈ s.linkTable, DList h.next h.prev (s.chains id).head (s.chains id).tail (L id)
  size_eq : ∀ id ∈ s.linkTable, (s.chains id).size = (L id).length
  anchor_mem : ∀ id ∈ s.linkTable, ∀ a, (s.chains id).anchor = some a → a ∈ L id
  mem_iff : ∀ id ∈ s.linkTable, ∀ p, p ∈ L id ↔ (h.page p).link = id
  unique : ∀ id ∈ s.linkTable, ∀ id' ∈ s.linkTable, ∀ p ∈ L id, p ∈ L id' → id = id'
  link_mem : ∀ p, (h.page p).link = -1 ∨ (h.page p).link ∈ s.linkTable

/-- The chains of the table are doubly linked lists of the pages that name them. -/
def WellFormed (s : ChainedLeastRecentlyUsed) (h : Heap) : Prop := ∃ L, ChainLists s h L

/-- A page is not unlinked from a chain other than its own. -/
def OwnChain (m : ChainedManager) : PolicyCall → Prop
  | .hateLink page link => (m.heap.page page).link = link ∨ (m.heap.page page).link = -1
  | _ => True

theorem Structured.wellFormed {s : ChainedLeastRecentlyUsed} {h : Heap} {L : ℤ → List PageRef}
    (hs : Structured s h L) : WellFormed s h := by
  refine ⟨L, fun id hid => (hs.holds id hid).list, fun id hid => (hs.holds id hid).size,
    fun id hid => (hs.holds id hid).anchor, fun id hid p => ?_, fun id _ id' _ p hp hp' => ?_,
    fun p => ?_⟩
  · rw [hs.mem_iff]
    exact and_iff_left (hs.ne_of_mem_table hid)
  · exact hs.members.eq_of_mem hp hp'
  · by_cases hp : h.link p = -1
    · exact .inl hp
    · exact .inr (hs.link_mem_table hp)

/-! ## What calls keep -/

/-- The memory holds the pages `slots`, and the chains the pages `L`, which are in memory. The chains have
    no bound below that of an `int`. -/
structure Chained (n : ℕ) (m : ChainedManager) (slots : List PageRef) (L : ℤ → List PageRef) : Prop
    where
  frames : Frames n m slots
  structured : Structured m.policy m.heap L
  resident : ∀ p, m.heap.link p ≠ -1 → p ∈ slots
  capacity_eq : ∀ id ∈ m.policy.linkTable, (m.policy.chains id).capacity = Chain.maxValue

namespace Chained

variable {n : ℕ} {m m' : ChainedManager} {slots : List PageRef} {L : ℤ → List PageRef} {a p : ℤ}
  {id : ℤ}

theorem make (clock : LogicalClock) : Chained n (.make {} n clock) [] fun _ => [] where
  frames := .make _ clock
  structured := .make clock
  resident _ hp := absurd rfl hp
  capacity_eq _ hid := absurd hid List.not_mem_nil

theorem room (h : Chained n m slots L) (hn : n ≤ 2147483647) (hid : id ∈ m.policy.linkTable)
    (hp : p ∈ slots) : Structured.Room m.policy L id p := by
  refine ⟨h.capacity_eq id hid, fun hpl => ?_⟩
  -- The pages on the chain are other pages in memory.
  have hnd : (p :: L id).Nodup := List.nodup_cons.2 ⟨hpl, h.structured.members.nodup id⟩
  have hsub : p :: L id ⊆ slots := List.cons_subset.2 ⟨hp, fun q hq => h.resident q fun hq' =>
    (h.structured.mem_iff.1 hq).2 ((h.structured.link_of_mem hq).symm.trans hq')⟩
  have hle := (hnd.subperm hsub).length_le
  have := h.frames.length_le
  rw [List.length_cons] at hle
  rw [Chain.maxValue]
  omega

/-- The policy writes the links of pages. -/
theorem relink (h : Chained n m slots L) {heap : Heap} {policy : ChainedLeastRecentlyUsed}
    {L' : ℤ → List PageRef} {link : PageRef → ℤ} (hs : Structured policy heap L')
    (hr : Relinks m.policy m.heap policy heap link) (hlink : ∀ q, link q ≠ -1 → q ∈ slots) :
    Chained n { m with heap, policy } slots L' where
  frames := h.frames.congr rfl rfl hr.disk_eq hr.page_eq
  structured := hs
  resident q hq := hlink q (hr.link_eq q ▸ hq)
  capacity_eq id hid := by
    rw [hr.sameTable.table_eq] at hid
    rw [(hr.sameTable.limits_eq id).1]
    exact h.capacity_eq id hid

theorem update_resident (h : Chained n m slots L) (hp : p ∈ slots) (id : ℤ) (q : PageRef)
    (hq : Function.update m.heap.link p id q ≠ -1) : q ∈ slots := by
  rw [Function.update_apply] at hq
  split_ifs at hq with hqp
  · exact hqp ▸ hp
  · exact h.resident q hq

theorem ite_resident (h : Chained n m slots L) (id : ℤ) (q : PageRef)
    (hq : (if m.heap.link q = id then -1 else m.heap.link q) ≠ -1) : q ∈ slots := by
  split_ifs at hq
  · exact absurd rfl hq
  · exact h.resident q hq

/-- A page is referenced. -/
theorem referenced {slots' : List PageRef} {k : ℕ} (h : Chained n m slots L) (hf : Frames n m' slots')
    (hr : References m.heap m'.heap a k) (hpolicy : m'.policy = m.policy)
    (hsub : ∀ q ∈ slots, m.heap.link q ≠ -1 → q ∈ slots') : Chained n m' slots' L := by
  have hlink : ∀ q, m'.heap.link q = m.heap.link q := fun q => congrArg (·.2.1) (hr.hints q)
  refine ⟨hf, ?_, fun q hq => ?_, ?_⟩
  · rw [hpolicy]
    exact h.structured.congr hlink (fun q => congrArg (·.2.2.1) (hr.hints q))
      (fun q => congrArg (·.2.2.2) (hr.hints q)) fun q hq => (hr.mem_disk q).2 (.inr hq)
  · rw [hlink] at hq
    exact hsub q (h.resident q hq) hq
  · rw [hpolicy]
    exact h.capacity_eq

/-- A page is found, which is on no chain then. -/
theorem find {pages : List (Option PageRef)} {pg : Option PageRef} {heap : Heap}
    {policy : ChainedLeastRecentlyUsed} (h : Chained n m slots L)
    (heq : m.policy.findPageToEvict m.heap pages = .ok (pg, heap, policy)) :
    ∃ L', Chained n { m with heap, policy } slots L' ∧
      ∀ q, pg = some q → heap.link q = -1 ∧ (q ∈ slots ∨ some q ∈ pages) := by
  obtain ⟨L', hs, hsame, hdisk, hpage, hlink, hmem⟩ := h.structured.find_ok heq
  refine ⟨L', ⟨h.frames.congr rfl rfl hdisk hpage, hs, fun q hq => ?_, fun id hid => ?_⟩,
    fun q hq => ⟨?_, ?_⟩⟩
  · refine h.resident q fun hq' => hq ?_
    change heap.link q = -1
    rw [hlink, hq', ite_self]
  · rw [(hsame.limits_eq id).1]
    exact h.capacity_eq id (hsame.table_eq ▸ hid)
  · rw [hlink, if_pos hq]
  · rcases hmem q hq with ⟨id, hid⟩ | hq'
    · refine .inl (h.resident q fun hq' => ?_)
      exact (h.structured.mem_iff.1 hid).2 ((h.structured.link_of_mem hid).symm.trans hq')
    · exact .inr hq'

theorem access {o : Outcome ℤ} (h : Chained n m slots L)
    (heq : m.access chainedLeastRecentlyUsedReplacementPolicy a = .ok (m', o)) :
    ∃ slots' L', Chained n m' slots' L' := by
  by_cases ha : a ∈ slots
  · rw [MemoryManager.access, h.frames.getFromMemory_of_mem ha] at heq
    obtain ⟨rfl, -⟩ := Prod.mk.inj (Except.ok.inj heq)
    exact ⟨slots, L, h.referenced (h.frames.hit ha) (references_updateRefStats (h.frames.disk a ha))
      rfl fun _ hq _ => hq⟩
  · rw [MemoryManager.access, h.frames.getFromMemory_of_not_mem ha] at heq
    obtain ⟨⟨m₁, position, evicted⟩, hfree, htail⟩ := bind_eq_ok heq
    obtain ⟨m₂, hload, heq'⟩ := bind_eq_ok htail
    obtain ⟨rfl, -⟩ := Prod.mk.inj (Except.ok.inj heq')
    rw [MemoryManager.freePosition] at hfree
    split_ifs at hfree with hfull
    · obtain ⟨⟨pg, heap, policy⟩, hfind, hfree⟩ := bind_eq_ok hfree
      obtain ⟨p, hp, hfree⟩ := bind_eq_ok hfree
      obtain ⟨rfl, hrest⟩ := Prod.mk.inj (Except.ok.inj hfree)
      obtain ⟨rfl, -⟩ := Prod.mk.inj hrest
      obtain rfl : pg = some p := by
        cases pg with
        | none => cases hp
        | some q => exact congrArg some (Except.ok.inj hp)
      obtain ⟨L', h₁, hpg⟩ := h.find hfind
      obtain ⟨hp, hps⟩ := hpg p rfl
      have hps : p ∈ slots := hps.elim id h.frames.mem_memory.1
      -- The page evicted only gets its counter increased.
      have hevict : ∀ q, ((heap.updateEvictStats p).page q).hints = (heap.page q).hints := fun q => by
        rw [Heap.updateEvictStats, Heap.modify_page]
        split_ifs with hq
        · rw [hq]
          rfl
        · rfl
      have h₂ : Chained n { m with heap := heap.updateEvictStats p, policy } slots L' := by
        refine ⟨h₁.frames.congr rfl rfl rfl fun q hq => ?_, h₁.structured.congr
          (fun q => congrArg (·.2.1) (hevict q)) (fun q => congrArg (·.2.2.1) (hevict q))
          (fun q => congrArg (·.2.2.2) (hevict q)) fun q hq => hq, fun q hq => h₁.resident q ?_,
          h₁.capacity_eq⟩
        · exact Heap.modify_page_of_ne _ _ fun hqp => hq (hqp ▸ h₁.frames.disk p hps)
        · exact (congrArg (·.2.1) (hevict q)).symm.trans_ne hq
      obtain ⟨m₃, slots', heq₃, hpolicy, hr, hf, hmem⟩ :=
        h₂.frames.replace (h.frames.isFull_iff.1 hfull) hps ha
      obtain rfl := Except.ok.inj (hload.symm.trans heq₃)
      refine ⟨slots', L', h₂.referenced hf hr hpolicy fun q hq hlink => (hmem q).2 (.inr ⟨hq, ?_⟩)⟩
      rintro rfl
      exact hlink ((congrArg (·.2.1) (hevict q)).trans hp)
    · obtain ⟨rfl, hrest⟩ := Prod.mk.inj (Except.ok.inj hfree)
      obtain ⟨rfl, -⟩ := Prod.mk.inj hrest
      have hlt : slots.length < n := lt_of_le_of_ne h.frames.length_le
        fun hlen => hfull (h.frames.isFull_iff.2 hlen)
      obtain ⟨m₃, heq₃, hpolicy, hr, hf⟩ := h.frames.append ha hlt
      obtain rfl := Except.ok.inj (hload.symm.trans heq₃)
      exact ⟨slots ++ [a], L, h.referenced hf hr hpolicy fun q hq _ => List.mem_append_left _ hq⟩

/-- A chain is created. -/
theorem addChain (h : Chained n m slots L) (anchored : Bool) : Chained n
    { m with policy := (m.policy.addChain (.unbounded m.policy.linkId anchored)).2 } slots L := by
  refine ⟨h.frames.congr rfl rfl rfl fun _ _ => rfl, h.structured.addChain_spec _ anchored, h.resident,
    fun id hid => ?_⟩
  have hid : id = m.policy.linkId ∨ id ∈ m.policy.linkTable := List.mem_cons.1 hid
  change ((m.policy.setChain m.policy.linkId _).chains id).capacity = _
  by_cases hlink : id = m.policy.linkId
  · rw [hlink, m.policy.setChain_self]
    rfl
  · rw [m.policy.setChain_of_ne hlink]
    exact h.capacity_eq id (hid.resolve_left hlink)

/-- A page in memory is linked to a chain of the table. -/
theorem love (h : Chained n m slots L) (hn : n ≤ 2147483647) (hid : id ∈ m.policy.linkTable)
    (hp : p ∈ slots) :
    ∃ heap policy L', m.policy.love m.heap (some p) id = .ok (heap, policy) ∧
      Chained n { m with heap, policy } slots L' ∧
      Relinks m.policy m.heap policy heap (Function.update m.heap.link p id) := by
  obtain ⟨heap, policy, L', heq, hs, hr⟩ :=
    h.structured.love_spec hid (h.frames.disk p hp) (h.room hn hid hp)
  exact ⟨heap, policy, L', heq, h.relink hs hr (h.update_resident hp id), hr⟩

theorem lovePin (h : Chained n m slots L) (hn : n ≤ 2147483647) (hid : id ∈ m.policy.linkTable)
    (hp : p ∈ slots) (pin : Bool) :
    ∃ heap policy L', m.policy.lovePin m.heap (some p) id pin = .ok (heap, policy) ∧
      Chained n { m with heap, policy } slots L' ∧
      Relinks m.policy m.heap policy heap (Function.update m.heap.link p id) := by
  obtain ⟨heap, policy, L', heq, hs, hr⟩ :=
    h.structured.lovePin_spec hid (h.frames.disk p hp) (h.room hn hid hp) pin
  exact ⟨heap, policy, L', heq, h.relink hs hr (h.update_resident hp id), hr⟩

/-- A page in memory is unlinked from its chain, if it is on one. -/
theorem hateLink (h : Chained n m slots L) (hid : id ∈ m.policy.linkTable) (hp : p ∈ slots)
    (hlink : m.heap.link p = id ∨ m.heap.link p = -1) :
    ∃ heap policy L', m.policy.hateLink m.heap (some p) id = .ok (heap, policy) ∧
      Chained n { m with heap, policy } slots L' ∧
      Relinks m.policy m.heap policy heap (Function.update m.heap.link p (-1)) := by
  obtain ⟨heap, policy, L', heq, hs, hr⟩ := h.structured.hateLink_spec hid hlink
  exact ⟨heap, policy, L', heq, h.relink hs hr (h.update_resident hp (-1)), hr⟩

/-- The pages of the chain of a page leave it. -/
theorem hate (h : Chained n m slots L) (p : PageRef) :
    ∃ heap policy L', m.policy.hate m.heap (some p) = .ok (heap, policy) ∧
      Chained n { m with heap, policy } slots L' ∧
      Relinks m.policy m.heap policy heap fun q =>
        if m.heap.link q = m.heap.link p then -1 else m.heap.link q := by
  obtain ⟨heap, policy, L', heq, hs, hr⟩ := h.structured.hate_spec p
  exact ⟨heap, policy, L', heq, h.relink hs hr (h.ite_resident (m.heap.link p)), hr⟩

variable {call : PolicyCall}

open PolicyCall in
/-- A call that unlinks a page from no chain but its own keeps the structure. -/
theorem step (h : Chained n m slots L) (hn : n ≤ 2147483647) (hown : OwnChain m call)
    (hst : PolicyStep m call m') : ∃ slots' L', Chained n m' slots' L' := by
  obtain ⟨hmem, hlink, heq⟩ := hst
  -- The page of a call is in memory.
  have hpage : ∀ p, p ∈ call.pages → p ∈ slots ∧ m.getFromMemory p = some p := fun p hp =>
    have hp := h.frames.getFromMemory_isSome.1 (hmem p hp)
    ⟨hp, h.frames.getFromMemory_of_mem hp⟩
  cases call with
  | access address =>
    obtain ⟨⟨m₁, o⟩, haccess, rfl⟩ := map_eq_ok heq
    exact h.access haccess
  | newChain =>
    obtain rfl := Except.ok.inj heq
    exact ⟨slots, L, h.addChain false⟩
  | newAnchoredChain anchored =>
    obtain rfl := Except.ok.inj heq
    exact ⟨slots, L, h.addChain anchored⟩
  | love page link =>
    obtain ⟨hp, hget⟩ := hpage page List.mem_cons_self
    obtain ⟨heap, policy, L', hlove, h', -⟩ := h.love hn (hlink link rfl) hp
    simp only [exec, MemoryManager.love, chainedLeastRecentlyUsedReplacementPolicy, hget, hlove, ok_bind,
      pure_eq_ok] at heq
    obtain rfl := Except.ok.inj heq
    exact ⟨slots, L', h'⟩
  | lovePin page link pin =>
    obtain ⟨hp, hget⟩ := hpage page List.mem_cons_self
    obtain ⟨heap, policy, L', hlove, h', -⟩ := h.lovePin hn (hlink link rfl) hp pin
    simp only [exec, MemoryManager.lovePin, chainedLeastRecentlyUsedReplacementPolicy, hget, hlove,
      ok_bind, pure_eq_ok] at heq
    obtain rfl := Except.ok.inj heq
    exact ⟨slots, L', h'⟩
  | hate page =>
    obtain ⟨hp, hget⟩ := hpage page List.mem_cons_self
    obtain ⟨heap, policy, L', hhate, h', -⟩ := h.hate page
    simp only [exec, hget, hhate, ok_bind, pure_eq_ok] at heq
    obtain rfl := Except.ok.inj heq
    exact ⟨slots, L', h'⟩
  | hateLink page link =>
    obtain ⟨hp, hget⟩ := hpage page List.mem_cons_self
    obtain ⟨heap, policy, L', hhate, h', -⟩ := h.hateLink (hlink link rfl) hp hown
    simp only [exec, MemoryManager.hate, chainedLeastRecentlyUsedReplacementPolicy, hget,
      hhate] at heq
    obtain rfl := Except.ok.inj heq
    exact ⟨slots, L', h'⟩
  | hateChain link =>
    obtain ⟨heap, policy, L', hhate, hs, hr⟩ := h.structured.hateChain_spec (hlink link rfl)
    simp only [exec, hhate, ok_bind, pure_eq_ok] at heq
    obtain rfl := Except.ok.inj heq
    refine ⟨slots, L', h.frames.congr rfl rfl hr.disk_eq hr.page_eq, hs, fun q hq => ?_,
      fun id hid => ?_⟩
    · exact h.ite_resident link q (hr.link_eq q ▸ hq)
    · have hid := hr.table_eq ▸ List.mem_of_mem_erase hid
      exact (hr.sameTable.limits_eq id).1.trans (h.capacity_eq id hid)
  | findPageToEvict pages =>
    obtain ⟨⟨pg, heap, policy⟩, hfind, heq⟩ := bind_eq_ok heq
    obtain rfl := Except.ok.inj heq
    obtain ⟨L', h', -⟩ := h.find hfind
    exact ⟨slots, L', h'⟩

theorem of_reachable {m : ChainedManager} (hn : n ≤ 2147483647)
    (hm : (ChainedSystem n).ReachableBy OwnChain m) : ∃ slots L, Chained n m slots L := by
  refine hm.invariant (I := fun m => ∃ slots L, Chained n m slots L) (fun m hinit => ?_)
    fun m call m' h hown hst => ?_
  · obtain ⟨clock, rfl⟩ := hinit
    exact ⟨[], fun _ => [], make clock⟩
  · obtain ⟨slots, L, h⟩ := h
    exact h.step hn hown hst

/-- A chain whose page has been unlinked from another one is longer than its list. -/
theorem not_wellFormed (h : Chained n m slots L) (hown : ¬OwnChain m call)
    (hst : PolicyStep m call m') : ¬WellFormed m'.policy m'.heap := by
  obtain ⟨hmem, hlink, heq⟩ := hst
  cases call with
  | hateLink page link =>
    rw [OwnChain, not_or] at hown
    obtain ⟨heap, policy, hhate, htable, hchain, hlink'⟩ :=
      Structured.hateLink_foreign (hlink link rfl) hown.2 hown.1
    have hget := h.frames.getFromMemory_of_mem
      (h.frames.getFromMemory_isSome.1 (hmem page List.mem_cons_self))
    simp only [PolicyCall.exec, MemoryManager.hate, chainedLeastRecentlyUsedReplacementPolicy, hget,
      hhate] at heq
    obtain rfl := Except.ok.inj heq
    rintro ⟨L', hL'⟩
    have hid := h.structured.link_mem_table hown.2
    have hid' : m.heap.link page ∈ policy.linkTable := htable ▸ hid
    -- The page was on its chain, and is not on the list any more.
    have hp : page ∈ L (m.heap.link page) := h.structured.mem_iff.2 ⟨rfl, hown.2⟩
    have hsub : ∀ q ∈ L' (m.heap.link page), q ∈ (L (m.heap.link page)).erase page := fun q hq => by
      have hq := ((hL'.mem_iff _ hid' q).1 hq).symm.trans (hlink' q)
      have hqp : q ≠ page := by
        rintro rfl
        rw [Function.update_self] at hq
        exact hown.2 hq
      rw [Function.update_of_ne hqp] at hq
      exact (List.mem_erase_of_ne hqp).2 (h.structured.mem_iff.2 ⟨hq.symm, hown.2⟩)
    have hle := ((hL'.list _ hid').nodup.subperm hsub).length_le
    have hsize := hL'.size_eq _ hid'
    dsimp only at hsize
    rw [hchain, (h.structured.holds _ hid).size, Nat.cast_inj] at hsize
    rw [List.length_erase_of_mem hp, ← hsize] at hle
    have := List.length_pos_of_mem hp
    omega
  | _ => exact absurd trivial hown

end Chained

/-- The chains are doubly linked lists as long as no page is unlinked from a chain other than its
    own, and are not any more when one has been. -/
theorem chain_structure {n : ℕ} (hn : n ≤ 2147483647) :
    (∀ m, (ChainedSystem n).ReachableBy OwnChain m → WellFormed m.policy m.heap) ∧
      ∀ m call m', (ChainedSystem n).ReachableBy OwnChain m → PolicyStep m call m' →
        ¬OwnChain m call → ¬WellFormed m'.policy m'.heap := by
  refine ⟨fun m hm => ?_, fun m call m' hm hst hown => ?_⟩
  · obtain ⟨slots, L, h⟩ := Chained.of_reachable hn hm
    exact h.structured.wellFormed
  · obtain ⟨slots, L, h⟩ := Chained.of_reachable hn hm
    exact h.not_wellFormed hown hst

/-- Two pages are on two chains. -/
def twoChains : List PolicyCall :=
  [.access 1, .access 2, .newChain, .newChain, .love 1 0, .love 2 1]

theorem twoChains_reachable :
    ∃ m, (ChainedSystem 2).ReachableBy OwnChain m ∧ m.heap.link 1 = 0 ∧
      (m.getFromMemory 1).isSome = true ∧ m.policy.linkTable = [1, 0] := by
  have heq : (twoChains.foldlM PolicyCall.checked (.make {} 2 {})).map (fun m =>
      (m.heap.link 1, (m.getFromMemory 1).isSome, m.policy.linkTable)) = .ok (0, true, [1, 0]) := by
    rfl
  obtain ⟨m, hm, hrest⟩ := map_eq_ok heq
  obtain ⟨hlink, hrest⟩ := Prod.mk.inj hrest
  obtain ⟨hres, htable⟩ := Prod.mk.inj hrest
  refine ⟨m, .foldlM (fun _ _ _ => PolicyStep.of_checked) (fun m call hcall => ?_)
    (.init ⟨{}, rfl⟩) hm, hlink, hres, htable⟩
  rw [twoChains] at hcall
  fin_cases hcall <;> trivial

/-- Two chains, with a page on each. -/
theorem chain_structure_two :
    ∃ m, (ChainedSystem 2).ReachableBy OwnChain m ∧ m.heap.link 1 = 0 ∧
      WellFormed m.policy m.heap := by
  obtain ⟨m, hm, hlink, -⟩ := twoChains_reachable
  exact ⟨m, hm, hlink, (chain_structure (by decide)).1 m hm⟩

/-- The page on one chain is unlinked from the other. -/
theorem not_wellFormed_of_reachable :
    ∃ m, (ChainedSystem 2).Reachable m ∧ ¬WellFormed m.policy m.heap := by
  obtain ⟨m, hm, hlink, hres, htable⟩ := twoChains_reachable
  obtain ⟨slots, L, h⟩ := Chained.of_reachable (by decide) hm
  have hid : 1 ∈ m.policy.linkTable := htable ▸ List.mem_cons_self
  obtain ⟨heap, policy, hhate, -⟩ := Structured.hateLink_foreign (p := 1) hid
    (by rw [hlink]; decide) (by rw [hlink]; decide)
  have hst : PolicyStep m (.hateLink 1 1) { m with heap, policy } := by
    refine ⟨fun p hp => ?_, fun link hlink => ?_, ?_⟩
    · rwa [List.mem_singleton.1 hp]
    · rwa [← Option.some.inj hlink]
    · have hget := h.frames.getFromMemory_of_mem (h.frames.getFromMemory_isSome.1 hres)
      simp only [PolicyCall.exec, MemoryManager.hate, chainedLeastRecentlyUsedReplacementPolicy, hget,
        hhate]
  refine ⟨_, .step hm.reachable trivial hst, h.not_wellFormed (fun hown => ?_) hst⟩
  have hlink : (m.heap.page 1).link = 0 := hlink
  rw [OwnChain, hlink] at hown
  exact absurd hown (by decide)

end Mcpq.Simulator
