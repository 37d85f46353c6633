import Mcpq.Simulator.ChainSpec
import Mcpq.Simulator.ChainedLru
import Mcpq.Lib.Members

/-!
# The chains of the policy

The chains of the table hold the pages that name them (`Structured`). The methods of the policy that
link and unlink pages keep this, if a page is only unlinked from its own chain, and write nothing but the
links of pages (`Relinks`): `love_spec`, `lovePin_spec`, `hate_spec`, `hateLink_spec` and
`hateChain_spec`. The search for a page to evict keeps it too.
-/

namespace Mcpq.Simulator

namespace Heap

variable (h : Heap)

/-- The chain that a page names. -/
def link (p : PageRef) : ℤ := (h.page p).link

/-- The chain a page is on, if it is on one. -/
def home (p : PageRef) : Option ℤ := if h.link p = -1 then none else some (h.link p)

variable {h} {p : PageRef} {id : ℤ}

theorem home_eq_some : h.home p = some id ↔ h.link p = id ∧ id ≠ -1 := by
  rw [home]
  split_ifs with hp
  · simp only [false_iff, not_and, not_not]
    exact fun hid => hid ▸ hp
  · rw [Option.some.injEq]
    exact ⟨fun hid => ⟨hid, hid ▸ hp⟩, And.left⟩

end Heap

/-- A chain that is written with its fields leaves those of all the chains as they are. -/
theorem ChainedLeastRecentlyUsed.setChain_fixed (s : ChainedLeastRecentlyUsed) (id : ℤ) {c : Chain}
    (hc : c.fixed = (s.chains id).fixed) (d : ℤ) :
    ((s.setChain id c).chains d).fixed = (s.chains d).fixed := by
  by_cases hd : d = id
  · rw [hd, setChain_self, hc]
  · rw [setChain_of_ne _ hd]

/-- The chains of the table are doubly linked lists, of the pages `L`: those that name them. -/
structure Structured (s : ChainedLeastRecentlyUsed) (h : Heap) (L : ℤ → List PageRef) : Prop where
  members : Members h.home L
  holds : ∀ id ∈ s.linkTable, Holds (s.chains id) h (L id)
  id_eq : ∀ id ∈ s.linkTable, (s.chains id).id = id
  range : ∀ id ∈ s.linkTable, 0 ≤ id ∧ id < s.linkId
  linkId_nonneg : 0 ≤ s.linkId
  nodup : s.linkTable.Nodup
  mem_table : ∀ id p, p ∈ L id → id ∈ s.linkTable
  mem_disk : ∀ id p, p ∈ L id → p ∈ h.disk
  free : ∀ p, h.link p = -1 → h.next p = none ∧ h.prev p = none

/-- From `s` and `h` to `s'` and `h'`, the policy writes the links of pages, which name the chains `link`
    then. -/
structure Relinks (s : ChainedLeastRecentlyUsed) (h : Heap) (s' : ChainedLeastRecentlyUsed)
    (h' : Heap) (link : PageRef → ℤ) : Prop where
  link_eq : ∀ q, h'.link q = link q
  time_eq : ∀ q, h'.time q = h.time q
  page_eq : ∀ q, q ∉ h.disk → h'.page q = h.page q
  disk_eq : h'.disk = h.disk
  clock_eq : h'.clock = h.clock
  linkId_eq : s'.linkId = s.linkId
  table_eq : s'.linkTable = s.linkTable
  sample_eq : s'.sample = s.sample
  fixed_eq : ∀ id, (s'.chains id).fixed = (s.chains id).fixed

namespace Relinks

variable {s s₁ s₂ : ChainedLeastRecentlyUsed} {h h₁ h₂ : Heap} {link link₁ link₂ : PageRef → ℤ}

theorem refl (s : ChainedLeastRecentlyUsed) (h : Heap) : Relinks s h s h h.link :=
  ⟨fun _ => rfl, fun _ => rfl, fun _ _ => rfl, rfl, rfl, rfl, rfl, rfl, fun _ => rfl⟩

theorem trans (hr₁ : Relinks s h s₁ h₁ link₁) (hr₂ : Relinks s₁ h₁ s₂ h₂ link₂) :
    Relinks s h s₂ h₂ link₂ where
  link_eq := hr₂.link_eq
  time_eq q := (hr₂.time_eq q).trans (hr₁.time_eq q)
  page_eq q hq := (hr₂.page_eq q (hr₁.disk_eq ▸ hq)).trans (hr₁.page_eq q hq)
  disk_eq := hr₂.disk_eq.trans hr₁.disk_eq
  clock_eq := hr₂.clock_eq.trans hr₁.clock_eq
  linkId_eq := hr₂.linkId_eq.trans hr₁.linkId_eq
  table_eq := hr₂.table_eq.trans hr₁.table_eq
  sample_eq := hr₂.sample_eq.trans hr₁.sample_eq
  fixed_eq id := (hr₂.fixed_eq id).trans (hr₁.fixed_eq id)

theorem congr (hr : Relinks s h s₁ h₁ link) (heq : ∀ q, link q = link₁ q) :
    Relinks s h s₁ h₁ link₁ :=
  { hr with link_eq := fun q => (hr.link_eq q).trans (heq q) }

end Relinks

namespace Structured

variable {s s' : ChainedLeastRecentlyUsed} {h h' : Heap} {L : ℤ → List PageRef} {id : ℤ}
  {p q : PageRef} {c : Chain} {l : List PageRef}

theorem mem_iff (hs : Structured s h L) : p ∈ L id ↔ h.link p = id ∧ id ≠ -1 :=
  (hs.members.mem_iff p id).trans Heap.home_eq_some

theorem link_of_mem (hs : Structured s h L) (hp : p ∈ L id) : h.link p = id := (hs.mem_iff.1 hp).1

theorem ne_of_mem_table (hs : Structured s h L) (hid : id ∈ s.linkTable) : id ≠ -1 := by
  rintro rfl
  exact absurd (hs.range _ hid).1 (by decide)

/-- The chain a page names is one of the table. -/
theorem link_mem_table (hs : Structured s h L) (hp : h.link p ≠ -1) : h.link p ∈ s.linkTable :=
  hs.mem_table _ p (hs.mem_iff.2 ⟨rfl, hp⟩)

theorem length_le (hs : Structured s h L) : (L id).length ≤ h.disk.length :=
  ((hs.members.nodup id).subperm (hs.mem_disk id)).length_le

/-- A chain of the table is well-formed. -/
theorem sound (hs : Structured s h L) (hid : id ∈ s.linkTable) : (s.chains id).Sound h (L id) where
  holds := hs.holds id hid
  id_ne := (hs.id_eq id hid).symm ▸ hs.ne_of_mem_table hid
  link_eq _ hq := (hs.link_of_mem hq).trans (hs.id_eq id hid).symm
  mem_disk := hs.mem_disk id

/-- One chain is written: it holds the pages `l`, those it held or that were on no chain. -/
theorem setChain (hs : Structured s h L) (hid : id ∈ s.linkTable) (hc : Holds c h' l)
    (hcid : c.id = id) (hin : ∀ q ∈ l, h'.link q = id ∧ (q ∈ L id ∨ h.link q = -1) ∧ q ∈ h.disk)
    (hout : ∀ q ∈ L id, q ∉ l → h'.link q = -1 ∧ h'.next q = none ∧ h'.prev q = none)
    (hother : ∀ q, q ∉ L id → q ∉ l → h'.page q = h.page q) (hdisk : h'.disk = h.disk) :
    Structured (s.setChain id c) h' (Function.update L id l) := by
  have hne := hs.ne_of_mem_table hid
  -- The pages of the other chains are not written.
  have hsame : ∀ d, d ≠ id → ∀ q ∈ L d, h'.page q = h.page q := by
    intro d hd q hq
    have hqid : q ∉ L id := fun hq' => hd (hs.members.eq_of_mem hq hq')
    refine hother q hqid fun hql => ?_
    rcases (hin q hql).2.1 with hq' | hq'
    · exact hqid hq'
    · exact (hs.mem_iff.1 hq).2 ((hs.mem_iff.1 hq).1.symm.trans hq')
  have hlink : ∀ q, q ∉ l → h'.link q ≠ -1 → h'.link q = h.link q ∧ q ∉ L id := by
    intro q hql hq
    have hqid : q ∉ L id := fun hqid => hq (hout q hqid hql).1
    exact ⟨congrArg MemoryPage.link (hother q hqid hql), hqid⟩
  refine ⟨⟨fun d => ?_, fun q d => ?_⟩, fun d hd => ?_, fun d hd => ?_, hs.range,
    hs.linkId_nonneg, hs.nodup, fun d q hq => ?_, fun d q hq => ?_, fun q hq => ?_⟩
  · by_cases hd : d = id
    · rw [hd, Function.update_self]
      exact hc.list.nodup
    · rw [Function.update_of_ne hd]
      exact hs.members.nodup d
  · rw [Heap.home_eq_some]
    by_cases hd : d = id
    · subst hd
      rw [Function.update_self]
      refine ⟨fun hq => ⟨(hin q hq).1, hne⟩, fun hq => ?_⟩
      by_contra hql
      obtain ⟨heq, hqid⟩ := hlink q hql (hq.1 ▸ hne)
      exact hqid (hs.mem_iff.2 ⟨heq ▸ hq.1, hne⟩)
    · rw [Function.update_of_ne hd, hs.mem_iff]
      constructor
      · intro hq
        rwa [Heap.link, hsame d hd q (hs.mem_iff.2 hq)]
      · intro hq
        have hql : q ∉ l := fun hql => hd (hq.1.symm.trans (hin q hql).1)
        exact ⟨(hlink q hql (hq.1 ▸ hq.2)).1 ▸ hq.1, hq.2⟩
  · by_cases hdid : d = id
    · rwa [hdid, Function.update_self, s.setChain_self]
    · rw [Function.update_of_ne hdid, s.setChain_of_ne hdid]
      exact (hs.holds d hd).congr (fun q hq => congrArg MemoryPage.next (hsame d hdid q hq))
        fun q hq => congrArg MemoryPage.prev (hsame d hdid q hq)
  · by_cases hdid : d = id
    · rwa [hdid, s.setChain_self]
    · rw [s.setChain_of_ne hdid]
      exact hs.id_eq d hd
  · by_cases hdid : d = id
    · exact hdid ▸ hid
    · rw [Function.update_of_ne hdid] at hq
      exact hs.mem_table d q hq
  · rw [hdisk]
    by_cases hdid : d = id
    · rw [hdid, Function.update_self] at hq
      exact (hin q hq).2.2
    · rw [Function.update_of_ne hdid] at hq
      exact hs.mem_disk d q hq
  · by_cases hqid : q ∈ L id
    · exact (hout q hqid fun hql => hne ((hin q hql).1.symm.trans hq)).2
    · have hpage := hother q hqid fun hql => hne ((hin q hql).1.symm.trans hq)
      rw [Heap.link, hpage] at hq
      rw [Heap.next, Heap.prev, hpage]
      exact hs.free q hq

/-- The frame of a chain that is written, when no time is. -/
theorem relinks {link : PageRef → ℤ} (hlink : ∀ q, h'.link q = link q)
    (htime : ∀ q, h'.time q = h.time q) (hpage : ∀ q, q ∉ h.disk → h'.page q = h.page q)
    (hdisk : h'.disk = h.disk) (hclock : h'.clock = h.clock)
    (hfixed : c.fixed = (s.chains id).fixed) : Relinks s h (s.setChain id c) h' link := by
  exact ⟨hlink, htime, hpage, hdisk, hclock, rfl, rfl, rfl, s.setChain_fixed id hfixed⟩

/-! ## The methods of the chains -/

/-- A page is unlinked from its chain. -/
theorem unlink (hs : Structured s h L) (hp : p ∈ L id) :
    ∃ h' c l, (s.chains id).unlink h (some p) = (h', c) ∧
      Structured (s.setChain id c) h' (Function.update L id l) ∧
      Relinks s h (s.setChain id c) h' (Function.update h.link p (-1)) := by
  have hid := hs.mem_table id p hp
  have hc := hs.holds id hid
  have hlink := hs.mem_iff.1 hp
  obtain ⟨h', head, tail, heq, hholds, hw, hpage⟩ :=
    Chain.unlink_spec hc hp fun hp' => hlink.2 (hlink.1.symm.trans hp')
  have hother : ∀ q, q ≠ p → h'.link q = h.link q ∧ h'.time q = h.time q := fun q hq =>
    ⟨(congrArg MemoryPage.link (hw.detach_eq q hq) :), (congrArg MemoryPage.time (hw.detach_eq q hq) :)⟩
  rw [heq] at hholds
  refine ⟨h', _, (L id).erase p, heq, hs.setChain hid hholds (hs.id_eq id hid) (fun q hq => ?_)
    (fun q hq hql => ?_) (fun q hq _ => hw.page_eq q hq fun hqp => hq (hqp ▸ hp)) hw.disk_eq,
    relinks (fun q => ?_) (fun q => ?_) (fun q hq => ?_) hw.disk_eq hw.clock_eq rfl⟩
  · have hqp : q ≠ p := fun hqp => (hs.members.nodup id).not_mem_erase (hqp ▸ hq)
    have hqid := List.mem_of_mem_erase hq
    exact ⟨(hother q hqp).1.trans (hs.link_of_mem hqid), .inl hqid, hs.mem_disk id q hqid⟩
  · obtain rfl : q = p := by_contra fun hqp => hql ((List.mem_erase_of_ne hqp).2 hq)
    rw [Heap.link, Heap.next, Heap.prev, hpage]
    exact ⟨rfl, rfl, rfl⟩
  · by_cases hqp : q = p
    · rw [hqp, Function.update_self, Heap.link, hpage]
    · rw [Function.update_of_ne hqp, (hother q hqp).1]
  · by_cases hqp : q = p
    · rw [hqp, Heap.time, hpage]
      rfl
    · exact (hother q hqp).2
  · have hqid : q ∉ L id := fun hqid => hq (hs.mem_disk id q hqid)
    exact hw.page_eq q hqid fun hqp => hqid (hqp ▸ hp)

/-- A page that is on no chain is pushed at the head of one. -/
theorem push (hs : Structured s h L) (hid : id ∈ s.linkTable) (hp : h.link p = -1)
    (hd : p ∈ h.disk) :
    Structured (s.setChain id ((s.chains id).push h p).2) ((s.chains id).push h p).1
        (Function.update L id (p :: L id)) ∧
      Relinks s h (s.setChain id ((s.chains id).push h p).2) ((s.chains id).push h p).1
        (Function.update h.link p id) := by
  have hpl : p ∉ L id := fun hpl => (hs.mem_iff.1 hpl).2 ((hs.mem_iff.1 hpl).1.symm.trans hp)
  obtain ⟨hn, hv⟩ := hs.free p hp
  obtain ⟨hholds, hw⟩ := Chain.push_spec (hs.holds id hid) hpl hn hv
  have hself := Chain.push_detach_self (s.chains id) h p
  have hlink : ∀ q, ((s.chains id).push h p).1.link q = Function.update h.link p id q := fun q => by
    by_cases hqp : q = p
    · rw [hqp, Function.update_self]
      exact (congrArg MemoryPage.link hself).trans (hs.id_eq id hid)
    · rw [Function.update_of_ne hqp]
      exact (congrArg MemoryPage.link (hw.detach_eq q hqp) :)
  refine ⟨hs.setChain hid hholds ?_ (fun q hq => ?_) (fun q hq hql => ?_) (fun q hq hql => ?_)
    hw.disk_eq, relinks hlink (fun q => ?_) (fun q hq => ?_) hw.disk_eq
    hw.clock_eq ?_⟩
  · rw [Chain.push_chain]
    exact hs.id_eq id hid
  · rw [hlink]
    rcases List.mem_cons.1 hq with rfl | hq
    · exact ⟨Function.update_self .., .inr hp, hd⟩
    · have hqp : q ≠ p := fun hqp => hpl (hqp ▸ hq)
      rw [Function.update_of_ne hqp]
      exact ⟨hs.link_of_mem hq, .inl hq, hs.mem_disk id q hq⟩
  · exact absurd (List.mem_cons_of_mem p hq) hql
  · exact hw.page_eq q hq fun hqp => hql (hqp ▸ List.mem_cons_self)
  · by_cases hqp : q = p
    · rw [hqp]
      exact (congrArg MemoryPage.time hself :)
    · exact (congrArg MemoryPage.time (hw.detach_eq q hqp) :)
  · exact hw.page_eq q (fun hqid => hq (hs.mem_disk id q hqid)) fun hqp => hq (hqp ▸ hd)
  · rw [Chain.push_chain]
    rfl

/-- All the pages leave a chain. -/
theorem unchain (hs : Structured s h L) (hid : id ∈ s.linkTable) :
    ∃ h' c, (s.chains id).unchain h = .ok (h', c) ∧
      Structured (s.setChain id c) h' (Function.update L id []) ∧
      Relinks s h (s.setChain id c) h' fun q => if h.link q = id then -1 else h.link q := by
  have hc := hs.holds id hid
  have hne := hs.ne_of_mem_table hid
  obtain ⟨h', heq, hin, hout, hdisk, hclock⟩ := Chain.unchain_spec hc hs.length_le
  have hempty : Holds { s.chains id with head := none, tail := none, anchor := none, size := 0 } h'
      [] := ⟨.nil rfl, rfl, fun _ ha => nomatch ha⟩
  refine ⟨h', _, heq, hs.setChain hid hempty (hs.id_eq id hid) (fun q hq => absurd hq List.not_mem_nil)
    (fun q hq _ => ?_) (fun q hq _ => hout q hq) hdisk, relinks (fun q => ?_) (fun q => ?_)
    (fun q hq => hout q fun hql => hq (hs.mem_disk id q hql)) hdisk hclock rfl⟩
  · rw [Heap.link, Heap.next, Heap.prev, hin q hq]
    exact ⟨rfl, rfl, rfl⟩
  · by_cases hq : q ∈ L id
    · rw [if_pos (hs.link_of_mem hq), Heap.link, hin q hq]
    · rw [if_neg fun hqid => hq (hs.mem_iff.2 ⟨hqid, hne⟩), Heap.link, hout q hq]
      rfl
  · by_cases hq : q ∈ L id
    · rw [Heap.time, hin q hq]
      rfl
    · rw [Heap.time, hout q hq]
      rfl

/-- A page is evicted from a chain. -/
theorem evict (hs : Structured s h L) (hid : id ∈ s.linkTable)
    (hv : ((s.chains id).victim h (L id)).2 = some p) :
    p ∈ L id ∧ ∃ h' c, (s.chains id).evict h = .ok (p, h', c) ∧
      Structured (s.setChain id c) h' (Function.update L id ((L id).erase p)) ∧
      (∀ q, h'.link q = Function.update h.link p (-1) q) ∧ h'.disk = h.disk ∧
      (∀ q, q ∉ h.disk → h'.page q = h.page q) ∧ c.fixed = (s.chains id).fixed ∧
      ((s.chains id).anchored = false →
        h'.clock = h.clock ∧ ∀ q, q ≠ p → h'.time q = h.time q) := by
  have hc := hs.holds id hid
  have hp := Chain.mem_of_victim hc hv
  obtain ⟨h', head, tail, heq, hholds, hl, hclock, htimes⟩ := Chain.evict_leaves hc hs.length_le
    (fun q hq hq' => (hs.mem_iff.1 hq).2 ((hs.mem_iff.1 hq).1.symm.trans hq')) hv
  refine ⟨hp, h', _, heq, hs.setChain hid hholds (hs.id_eq id hid) (fun q hq => ?_)
    (fun q hq hql => ?_) (fun q hq _ => hl.page_eq q hq) hl.disk_eq, fun q => ?_, hl.disk_eq,
    fun q hq => hl.page_eq q fun hql => hq (hs.mem_disk id q hql), rfl,
    fun hanchored => ⟨hclock hanchored, fun q hq => htimes q hq (by simp [hanchored])⟩⟩
  · have hqp : q ≠ p := fun hqp => (hs.members.nodup id).not_mem_erase (hqp ▸ hq)
    have hqid := List.mem_of_mem_erase hq
    exact ⟨(hl.link_eq q hqp).trans (hs.link_of_mem hqid), .inl hqid, hs.mem_disk id q hqid⟩
  · obtain rfl : q = p := by_contra fun hqp => hql ((List.mem_erase_of_ne hqp).2 hq)
    exact ⟨hl.link_self, hl.links_self⟩
  · by_cases hqp : q = p
    · rw [hqp, Function.update_self]
      exact hl.link_self
    · rw [Function.update_of_ne hqp]
      exact hl.link_eq q hqp

/-- The fields of a chain but its pages are written. -/
theorem setFields (hs : Structured s h L) (hid : id ∈ s.linkTable) (hc : Holds c h (L id))
    (hcid : c.id = (s.chains id).id) : Structured (s.setChain id c) h L := by
  have := hs.setChain hid hc (hcid.trans (hs.id_eq id hid))
    (fun q hq => ⟨hs.link_of_mem hq, .inl hq, hs.mem_disk id q hq⟩) (fun q hq hq' => absurd hq hq')
    (fun _ _ _ => rfl) rfl
  rwa [Function.update_eq_self] at this

/-! ## The methods of the policy -/

theorem chain_eq (hid : id ∈ s.linkTable) : s.chain id = .ok id := if_pos hid

/-- A page leaves its chain for the chain `id`. -/
theorem leave_spec (hs : Structured s h L) (p : PageRef) (id : ℤ) :
    ∃ h' s' L', s.leave h p id = .ok (h', s') ∧ Structured s' h' L' ∧ Relinks s h s' h' h'.link ∧
      (h'.link p = id ∨ h'.link p = -1) ∧ (∀ q, q ≠ p → h'.link q = h.link q) ∧
      (h.link p = id → h'.link p = id) ∧ (h'.link p = h.link p ∨ h'.link p = -1) := by
  rw [ChainedLeastRecentlyUsed.leave]
  by_cases hp : h.link p ≠ -1 ∧ h.link p ≠ id
  · have hmem : p ∈ L (h.link p) := hs.mem_iff.2 ⟨rfl, hp.1⟩
    obtain ⟨h', c, l, heq, hs', hr⟩ := hs.unlink hmem
    have hself : h'.link p = -1 := (hr.link_eq p).trans (Function.update_self ..)
    refine ⟨h', s.setChain (h.link p) c, _, (if_pos hp).trans ?_, hs', hr.congr fun q =>
      (hr.link_eq q).symm, .inr hself, fun q hq => (hr.link_eq q).trans (Function.update_of_ne hq ..),
      fun hid => absurd hid hp.2, .inr hself⟩
    rw [show (h.page p).link = h.link p from rfl, ChainedLeastRecentlyUsed.chainUnlink,
      chain_eq (hs.mem_table _ p hmem)]
    simp only [ok_bind, heq, pure_eq_ok]
  · refine ⟨h, s, L, if_neg hp, hs, .refl s h, ?_, fun _ _ => rfl, fun hid => hid, .inl rfl⟩
    tauto

/-- A page that is on no other chain is added to one that is not full. -/
theorem chainAdd_spec (hs : Structured s h L) (hid : id ∈ s.linkTable)
    (hp : h.link p = id ∨ h.link p = -1) (hd : p ∈ h.disk)
    (hcap : h.link p ≠ id → ((L id).length : ℤ) < (s.chains id).capacity) :
    ∃ h' s' L', s.chainAdd h id p = .ok (h', s') ∧ Structured s' h' L' ∧ p ∈ L' id ∧
      Relinks s h s' h' (Function.update h.link p id) := by
  have hne := hs.ne_of_mem_table hid
  rw [ChainedLeastRecentlyUsed.chainAdd, chain_eq hid]
  by_cases hlink : h.link p = id
  · have hadd : (s.chains id).add h p = .ok (h, s.chains id) := by
      rw [Chain.add, hs.id_eq id hid]
      exact if_pos hlink
    have hset : s.setChain id (s.chains id) = s := by
      rw [ChainedLeastRecentlyUsed.setChain, Function.update_eq_self]
    refine ⟨h, s, L, ?_, hs, hs.mem_iff.2 ⟨hlink, hne⟩, (Relinks.refl s h).congr fun q => ?_⟩
    · simp only [ok_bind, hadd, hset, pure_eq_ok]
    · rw [← hlink, Function.update_eq_self]
  · obtain ⟨hs', hr⟩ := hs.push hid (hp.resolve_left hlink) hd
    have hadd : (s.chains id).add h p = .ok ((s.chains id).push h p) := by
      have hsize : ¬(s.chains id).size ≥ (s.chains id).capacity := by
        rw [(hs.holds id hid).size]
        exact not_le.2 (hcap hlink)
      rw [Chain.add, hs.id_eq id hid]
      exact (if_neg hlink).trans (if_neg hsize)
    refine ⟨_, _, _, ?_, hs', ?_, hr⟩
    · simp only [ok_bind, hadd, pure_eq_ok]
    · rw [Function.update_self]
      exact List.mem_cons_self

/-- A page that is on a chain is anchored. -/
theorem anchor (hs : Structured s h L) (hp : p ∈ L id) :
    Structured (s.setChain id { s.chains id with anchor := some p }) h L ∧
      Relinks s h (s.setChain id { s.chains id with anchor := some p }) h h.link := by
  have hid := hs.mem_table id p hp
  have hc := hs.holds id hid
  exact ⟨hs.setFields hid ⟨hc.list, hc.size, fun a ha => Option.some.inj ha ▸ hp⟩ rfl,
    relinks (fun _ => rfl) (fun _ => rfl) (fun _ _ => rfl) rfl rfl rfl⟩

/-- There is room for a page on the chain. -/
structure Room (s : ChainedLeastRecentlyUsed) (L : ℤ → List PageRef) (id : ℤ) (p : PageRef) :
    Prop where
  capacity_eq : (s.chains id).capacity = Chain.maxValue
  length_lt : p ∉ L id → ((L id).length : ℤ) < Chain.maxValue

/-- A page leaves its chain for one that has room for it. -/
theorem leave_room (hs : Structured s h L) (hid : id ∈ s.linkTable) (hroom : Room s L id p) :
    ∃ h' s' L', s.leave h p id = .ok (h', s') ∧ Structured s' h' L' ∧ Relinks s h s' h' h'.link ∧
      (h'.link p = id ∨ h'.link p = -1) ∧ (∀ q, q ≠ p → h'.link q = h.link q) ∧
      Room s' L' id p := by
  obtain ⟨h', s', L', heq, hs', hr, hp, hother, hself, -⟩ := hs.leave_spec p id
  have hne := hs.ne_of_mem_table hid
  refine ⟨h', s', L', heq, hs', hr, hp, hother, ?_, fun hpl => ?_⟩
  · rw [← hroom.capacity_eq]
    exact congrArg (·.1) (hr.fixed_eq id)
  · -- The pages on the chain are those that were.
    have hsub : L' id ⊆ L id := fun q hq => by
      have hqp : q ≠ p := fun hqp => hpl (hqp ▸ hq)
      rw [hs.mem_iff, ← hother q hqp]
      exact hs'.mem_iff.1 hq
    have hpl' : p ∉ L id := fun hp' => hpl (hs'.mem_iff.2 ⟨hself (hs.link_of_mem hp'), hne⟩)
    have hle := ((hs'.members.nodup id).subperm hsub).length_le
    exact lt_of_le_of_lt (Int.ofNat_le.2 hle) (hroom.length_lt hpl')

/-- What is added to the chain after the page has left its own. -/
theorem leave_add {h₁ : Heap} {s₁ : ChainedLeastRecentlyUsed} {L₁ : ℤ → List PageRef}
    (hs₁ : Structured s₁ h₁ L₁) (hr : Relinks s h s₁ h₁ h₁.link) (hid : id ∈ s.linkTable)
    (hp : h₁.link p = id ∨ h₁.link p = -1) (hother : ∀ q, q ≠ p → h₁.link q = h.link q)
    (hroom : Room s₁ L₁ id p) (hd : p ∈ h.disk) :
    ∃ h' s' L', s₁.chainAdd h₁ id p = .ok (h', s') ∧ Structured s' h' L' ∧ p ∈ L' id ∧
      Relinks s h s' h' (Function.update h.link p id) := by
  have hid₁ : id ∈ s₁.linkTable := hr.table_eq ▸ hid
  have hne := hs₁.ne_of_mem_table hid₁
  obtain ⟨h', s', L', heq, hs', hpl, hr'⟩ := hs₁.chainAdd_spec hid₁ hp (hr.disk_eq ▸ hd) fun hne' => by
    rw [hroom.capacity_eq]
    exact hroom.length_lt fun hp' => hne' (hs₁.link_of_mem hp')
  refine ⟨h', s', L', heq, hs', hpl, (hr.trans hr').congr fun q => ?_⟩
  by_cases hqp : q = p
  · rw [hqp, Function.update_self, Function.update_self]
  · rw [Function.update_of_ne hqp, Function.update_of_ne hqp, hother q hqp]

theorem chainAnchor_eq (heq : s.chainAdd h id p = .ok (h', s')) :
    s.chainAnchor h id p = .ok (h', s'.setChain id { s'.chains id with anchor := some p }) := by
  rw [ChainedLeastRecentlyUsed.chainAdd] at heq
  obtain ⟨d, hd, heq⟩ := bind_eq_ok heq
  obtain ⟨r, hadd, heq⟩ := bind_eq_ok heq
  obtain ⟨rfl, rfl⟩ := Prod.mk.inj (Except.ok.inj heq)
  rw [ChainedLeastRecentlyUsed.chainAnchor, hd]
  obtain rfl : id = d := by
    rw [ChainedLeastRecentlyUsed.chain] at hd
    split_ifs at hd
    exact Except.ok.inj hd
  simp only [Chain.anchorPage, ok_bind, hadd, pure_eq_ok, s.setChain_self]
  rw [ChainedLeastRecentlyUsed.setChain, ChainedLeastRecentlyUsed.setChain,
    ChainedLeastRecentlyUsed.setChain, Function.update_idem]

theorem love_spec (hs : Structured s h L) (hid : id ∈ s.linkTable) (hd : p ∈ h.disk)
    (hroom : Room s L id p) :
    ∃ h' s' L', s.love h (some p) id = .ok (h', s') ∧ Structured s' h' L' ∧
      Relinks s h s' h' (Function.update h.link p id) := by
  obtain ⟨h₁, s₁, L₁, heq₁, hs₁, hr₁, hp₁, hother, hroom₁⟩ := hs.leave_room hid hroom
  obtain ⟨h', s', L', heq, hs', -, hr⟩ := leave_add hs₁ hr₁ hid hp₁ hother hroom₁ hd
  refine ⟨h', s', L', ?_, hs', hr⟩
  simp only [ChainedLeastRecentlyUsed.love, deref_some, ok_bind, heq₁, heq]

theorem lovePin_spec (hs : Structured s h L) (hid : id ∈ s.linkTable) (hd : p ∈ h.disk)
    (hroom : Room s L id p) (pin : Bool) :
    ∃ h' s' L', s.lovePin h (some p) id pin = .ok (h', s') ∧ Structured s' h' L' ∧
      Relinks s h s' h' (Function.update h.link p id) := by
  obtain ⟨h₁, s₁, L₁, heq₁, hs₁, hr₁, hp₁, hother, hroom₁⟩ := hs.leave_room hid hroom
  cases pin with
  | true =>
    obtain ⟨h', s', L', heq, hs', hpl, hr⟩ := leave_add hs₁ hr₁ hid hp₁ hother hroom₁ hd
    obtain ⟨hs₂, hr₂⟩ := hs'.anchor hpl
    refine ⟨h', _, L', ?_, hs₂, (hr.trans hr₂).congr hr.link_eq⟩
    simp only [ChainedLeastRecentlyUsed.lovePin, deref_some, ok_bind, heq₁, if_true,
      chainAnchor_eq heq]
  | false =>
    obtain ⟨h', s', L', heq, hs', hr⟩ :=
      hs₁.love_spec (hr₁.table_eq ▸ hid) (hr₁.disk_eq ▸ hd) hroom₁
    refine ⟨h', s', L', ?_, hs', (hr₁.trans hr).congr fun q => ?_⟩
    · simp only [ChainedLeastRecentlyUsed.lovePin, deref_some, ok_bind, heq₁, heq,
        Bool.false_eq_true, if_false]
    · by_cases hqp : q = p
      · rw [hqp, Function.update_self, Function.update_self]
      · rw [Function.update_of_ne hqp, Function.update_of_ne hqp, hother q hqp]

/-- All the pages leave the chain of a page. -/
theorem hate_spec (hs : Structured s h L) (p : PageRef) :
    ∃ h' s' L', s.hate h (some p) = .ok (h', s') ∧ Structured s' h' L' ∧
      Relinks s h s' h' fun q => if h.link q = h.link p then -1 else h.link q := by
  by_cases hp : h.link p = -1
  · refine ⟨h, s, L, ?_, hs, (Relinks.refl s h).congr fun q => ?_⟩
    · simp only [ChainedLeastRecentlyUsed.hate, deref_some, ok_bind]
      exact if_neg (not_not.2 hp)
    · split_ifs with hq
      · exact hq.trans hp
      · rfl
  · have hid := hs.link_mem_table hp
    obtain ⟨h', c, heq, hs', hr⟩ := hs.unchain hid
    refine ⟨h', _, _, ?_, hs', hr⟩
    have hunchain : s.chainUnchain h (h.link p) = .ok (h', s.setChain (h.link p) c) := by
      rw [ChainedLeastRecentlyUsed.chainUnchain, chain_eq hid]
      simp only [ok_bind, heq, pure_eq_ok]
    simp only [ChainedLeastRecentlyUsed.hate, deref_some, ok_bind]
    exact (if_pos hp).trans hunchain

/-- A page is unlinked from its own chain, if it is on one. -/
theorem hateLink_spec (hs : Structured s h L) (hid : id ∈ s.linkTable)
    (hp : h.link p = id ∨ h.link p = -1) :
    ∃ h' s' L', s.hateLink h (some p) id = .ok (h', s') ∧ Structured s' h' L' ∧
      Relinks s h s' h' (Function.update h.link p (-1)) := by
  rw [ChainedLeastRecentlyUsed.hateLink, ChainedLeastRecentlyUsed.chainUnlink, chain_eq hid]
  by_cases hlink : h.link p = -1
  · have hset : s.setChain id (s.chains id) = s := by
      rw [ChainedLeastRecentlyUsed.setChain, Function.update_eq_self]
    refine ⟨h, s, L, ?_, hs, (Relinks.refl s h).congr fun q => ?_⟩
    · have hunlink : (s.chains id).unlink h (some p) = (h, s.chains id) := if_pos hlink
      simp only [ok_bind, hunlink, hset, pure_eq_ok]
    · rw [← hlink, Function.update_eq_self]
  · have hpl : p ∈ L id := hs.mem_iff.2 ⟨hp.resolve_right hlink, hs.ne_of_mem_table hid⟩
    obtain ⟨h', c, l, heq, hs', hr⟩ := hs.unlink hpl
    refine ⟨h', _, _, ?_, hs', hr⟩
    simp only [ok_bind, heq, pure_eq_ok]

/-- A page is unlinked from another chain than its own: it is on none, but its chain still counts it. -/
theorem hateLink_foreign (hid : id ∈ s.linkTable) (hp : h.link p ≠ -1)
    (hne : h.link p ≠ id) :
    ∃ h' s', s.hateLink h (some p) id = .ok (h', s') ∧ s'.linkTable = s.linkTable ∧
      s'.chains (h.link p) = s.chains (h.link p) ∧
      ∀ q, h'.link q = Function.update h.link p (-1) q := by
  have hunlink : ∃ h' c, (s.chains id).unlink h (some p) = (h', c) ∧
      ∀ q, h'.link q = Function.update h.link p (-1) q := by
    refine ⟨_, _, if_neg hp, fun q => ?_⟩
    by_cases hqp : q = p
    · rw [hqp, Function.update_self, Heap.link, Chain.removeLink, Heap.modify_page_self]
    · rw [Function.update_of_ne hqp, Heap.link, Chain.removeLink_page_of_ne hqp]
      exact (congrArg MemoryPage.link (Chain.bypass_detach (s.chains id) h p q) :)
  obtain ⟨h', c, heq, hlink⟩ := hunlink
  refine ⟨h', s.setChain id c, ?_, rfl, s.setChain_of_ne hne c, hlink⟩
  rw [ChainedLeastRecentlyUsed.hateLink, ChainedLeastRecentlyUsed.chainUnlink, chain_eq hid]
  simp only [ok_bind, heq, pure_eq_ok]

/-- A chain is removed, and its pages are on none. -/
theorem hateChain_spec (hs : Structured s h L) (hid : id ∈ s.linkTable) :
    ∃ h' s' L', s.hateChain h id = .ok (h', { s' with linkTable := s'.linkTable.erase id }) ∧
      Structured { s' with linkTable := s'.linkTable.erase id } h' L' ∧
      Relinks s h s' h' fun q => if h.link q = id then -1 else h.link q := by
  obtain ⟨h', c, heq, hs', hr⟩ := hs.unchain hid
  refine ⟨h', s.setChain id c, Function.update L id [], ?_, ⟨hs'.members, fun d hd => ?_, fun d hd => ?_,
    fun d hd => ?_, hs'.linkId_nonneg, hs'.nodup.erase id, fun d q hq => ?_, hs'.mem_disk, hs'.free⟩,
    hr⟩
  · rw [ChainedLeastRecentlyUsed.hateChain, ChainedLeastRecentlyUsed.chainUnchain, chain_eq hid]
    simp only [ok_bind, heq, pure_eq_ok]
  · exact hs'.holds d (List.mem_of_mem_erase hd)
  · exact hs'.id_eq d (List.mem_of_mem_erase hd)
  · exact hs'.range d (List.mem_of_mem_erase hd)
  · have hd : d ≠ id := by
      rintro rfl
      rw [Function.update_self] at hq
      exact List.not_mem_nil hq
    exact (List.mem_erase_of_ne hd).2 (hs'.mem_table d q hq)

/-- A chain is created. -/
theorem addChain_spec (hs : Structured s h L) (capacity : ℤ) (anchored : Bool) :
    Structured (s.addChain (.make s.linkId capacity anchored)).2 h L := by
  have hnew : s.linkId ∉ s.linkTable := fun hid => lt_irrefl _ (hs.range _ hid).2
  have hempty : L s.linkId = [] := List.eq_nil_iff_forall_not_mem.2 fun q hq =>
    hnew (hs.mem_table _ q hq)
  refine ⟨hs.members, fun d hd => ?_, fun d hd => ?_, fun d hd => ?_, ?_, List.nodup_cons.2
    ⟨hnew, hs.nodup⟩, fun d q hq => List.mem_cons_of_mem _ (hs.mem_table d q hq), hs.mem_disk, hs.free⟩
  · have hd : d = s.linkId ∨ d ∈ s.linkTable := List.mem_cons.1 hd
    rcases hd with rfl | hd
    · change Holds ((s.setChain s.linkId _).chains s.linkId) h _
      rw [s.setChain_self, hempty]
      exact ⟨.nil rfl, rfl, fun a ha => nomatch ha⟩
    · have hne : d ≠ s.linkId := fun hd' => hnew (hd' ▸ hd)
      change Holds ((s.setChain s.linkId _).chains d) h _
      rw [s.setChain_of_ne hne]
      exact hs.holds d hd
  · have hd : d = s.linkId ∨ d ∈ s.linkTable := List.mem_cons.1 hd
    rcases hd with rfl | hd
    · change ((s.setChain s.linkId _).chains s.linkId).id = _
      rw [s.setChain_self]
    · have hne : d ≠ s.linkId := fun hd' => hnew (hd' ▸ hd)
      change ((s.setChain s.linkId _).chains d).id = _
      rw [s.setChain_of_ne hne]
      exact hs.id_eq d hd
  · have hd : d = s.linkId ∨ d ∈ s.linkTable := List.mem_cons.1 hd
    rcases hd with rfl | hd
    · exact ⟨hs.linkId_nonneg, Int.lt_succ _⟩
    · exact ⟨(hs.range d hd).1, (hs.range d hd).2.trans (Int.lt_succ _)⟩
  · exact hs.linkId_nonneg.trans (Int.lt_succ _).le

/-- No page is on a chain of a new policy. -/
theorem make (clock : LogicalClock) : Structured {} { clock } fun _ => [] where
  members := ⟨fun _ => List.nodup_nil, fun _ _ => by simp [Heap.home, Heap.link]⟩
  holds _ hid := absurd hid List.not_mem_nil
  id_eq _ hid := absurd hid List.not_mem_nil
  range _ hid := absurd hid List.not_mem_nil
  linkId_nonneg := le_rfl
  nodup := List.nodup_nil
  mem_table _ _ hp := absurd hp List.not_mem_nil
  mem_disk _ _ hp := absurd hp List.not_mem_nil
  free _ _ := ⟨rfl, rfl⟩

/-- The pages are written, but not their links. -/
theorem congr (hs : Structured s h L) (hlink : ∀ q, h'.link q = h.link q)
    (hnext : ∀ q, h'.next q = h.next q) (hprev : ∀ q, h'.prev q = h.prev q)
    (hdisk : ∀ q ∈ h.disk, q ∈ h'.disk) : Structured s h' L where
  members := ⟨hs.members.nodup, fun p id => by
    rw [hs.members.mem_iff, Heap.home, Heap.home, hlink]⟩
  holds id hid := (hs.holds id hid).congr (fun q _ => hnext q) fun q _ => hprev q
  id_eq := hs.id_eq
  range := hs.range
  linkId_nonneg := hs.linkId_nonneg
  nodup := hs.nodup
  mem_table := hs.mem_table
  mem_disk id p hp := hdisk p (hs.mem_disk id p hp)
  free p hp := by
    rw [hnext, hprev]
    exact hs.free p (hlink p ▸ hp)

/-! ## The search -/

/-- The timestamp of a chain is written. -/
theorem getTimestamp (hs : Structured s h L) (hid : id ∈ s.linkTable) {sample t : ℕ}
    (heq : (s.chains id).getTimestamp h sample = .ok (t, c)) :
    Structured (s.setChain id c) h L ∧ ∃ t' k, c = { s.chains id with timestamp := t', sample := k } := by
  obtain ⟨t', k, rfl⟩ : ∃ t' k, c = { s.chains id with timestamp := t', sample := k } := by
    rw [Chain.getTimestamp] at heq
    split_ifs at heq
    · obtain ⟨-, rfl⟩ := Prod.mk.inj (Except.ok.inj heq)
      exact ⟨_, _, rfl⟩
    · obtain ⟨pages, -, heq⟩ := bind_eq_ok heq
      obtain ⟨-, rfl⟩ := Prod.mk.inj (Except.ok.inj heq)
      exact ⟨_, _, rfl⟩
  have hc := hs.holds id hid
  exact ⟨hs.setFields hid ⟨hc.list, hc.size, hc.anchor⟩ rfl, t', k, rfl⟩

end Structured

/-- From `s` to `s'`, the policy keeps its chains, and writes none of their limits. -/
structure SameTable (s s' : ChainedLeastRecentlyUsed) : Prop where
  linkId_eq : s'.linkId = s.linkId
  table_eq : s'.linkTable = s.linkTable
  limits_eq : ∀ id, (s'.chains id).capacity = (s.chains id).capacity ∧
    (s'.chains id).anchored = (s.chains id).anchored

namespace SameTable

variable {s s₁ s₂ : ChainedLeastRecentlyUsed}

theorem trans (h₁ : SameTable s s₁) (h₂ : SameTable s₁ s₂) : SameTable s s₂ where
  linkId_eq := h₂.linkId_eq.trans h₁.linkId_eq
  table_eq := h₂.table_eq.trans h₁.table_eq
  limits_eq id := ⟨(h₂.limits_eq id).1.trans (h₁.limits_eq id).1,
    (h₂.limits_eq id).2.trans (h₁.limits_eq id).2⟩

theorem setChain {id : ℤ} {c : Chain} (hcap : c.capacity = (s.chains id).capacity)
    (hanch : c.anchored = (s.chains id).anchored) : SameTable s (s.setChain id c) := by
  refine ⟨rfl, rfl, fun d => ?_⟩
  by_cases hd : d = id
  · rw [hd, s.setChain_self]
    exact ⟨hcap, hanch⟩
  · rw [s.setChain_of_ne hd]
    exact ⟨rfl, rfl⟩

end SameTable

theorem Relinks.sameTable {s s' : ChainedLeastRecentlyUsed} {h h' : Heap} {link : PageRef → ℤ}
    (hr : Relinks s h s' h' link) : SameTable s s' :=
  ⟨hr.linkId_eq, hr.table_eq, fun id =>
    ⟨congrArg (·.1) (hr.fixed_eq id), congrArg (·.2.1) (hr.fixed_eq id)⟩⟩

namespace Structured

open ChainedLeastRecentlyUsed

variable {s s' : ChainedLeastRecentlyUsed} {h h' : Heap} {L : ℤ → List PageRef}
  {best best' : Candidate} {pages : List (Option PageRef)} {p : Option PageRef}

/-- What the search has found: a chain of the table, or a page on no chain. -/
structure Found (s : ChainedLeastRecentlyUsed) (h : Heap) (pages : List (Option PageRef))
    (best : Candidate) : Prop where
  id_mem : ∀ id, best.id = some id → id ∈ s.linkTable
  pg_mem : ∀ q, best.pg = some q → some q ∈ pages ∧ h.link q = -1

theorem consider (hs : Structured s h L) (hf : Found s h pages best) (hp : p ∈ pages)
    (heq : ChainedLeastRecentlyUsed.consider h (s, best) p = .ok (s', best')) :
    Structured s' h L ∧ SameTable s s' ∧ Found s' h pages best' := by
  rw [ChainedLeastRecentlyUsed.consider] at heq
  obtain ⟨q, hq, hbody⟩ := bind_eq_ok heq
  obtain rfl : p = some q := by
    cases p with
    | none => cases hq
    | some r => exact congrArg some (Except.ok.inj hq)
  dsimp only at hbody
  split_ifs at hbody with hlink hpage
  · obtain ⟨id, hid, hbody⟩ := bind_eq_ok hbody
    obtain ⟨⟨t, c⟩, hget, hbody⟩ := bind_eq_ok hbody
    have hmem : h.link q ∈ s.linkTable := hs.link_mem_table fun hq' =>
      absurd (hq' ▸ hlink : (-1 : ℤ) ≥ 0) (by decide)
    obtain rfl : h.link q = id := Except.ok.inj ((chain_eq hmem).symm.trans hid)
    obtain ⟨hs', t', k, rfl⟩ := hs.getTimestamp hmem hget
    have hsame : SameTable s
        (s.setChain (h.link q) { s.chains (h.link q) with timestamp := t', sample := k }) :=
      .setChain rfl rfl
    split_ifs at hbody
    all_goals obtain ⟨rfl, rfl⟩ := Prod.mk.inj (Except.ok.inj hbody)
    · refine ⟨hs', hsame, fun id hid => ?_, fun q hq => absurd hq.symm (Option.some_ne_none q)⟩
      exact Option.some.inj hid ▸ hmem
    · exact ⟨hs', hsame, hf.id_mem, hf.pg_mem⟩
  · obtain ⟨rfl, rfl⟩ := Prod.mk.inj (Except.ok.inj hbody)
    refine ⟨hs, ⟨rfl, rfl, fun _ => ⟨rfl, rfl⟩⟩,
      fun id hid => absurd hid.symm (Option.some_ne_none id), fun r hr => ?_⟩
    obtain rfl := Option.some.inj hr
    exact ⟨hp, hpage.1⟩
  · obtain ⟨rfl, rfl⟩ := Prod.mk.inj (Except.ok.inj hbody)
    exact ⟨hs, ⟨rfl, rfl, fun _ => ⟨rfl, rfl⟩⟩, hf⟩

/-- The page found was on a chain, or is one of those given, and on no chain. Afterwards it is on none. -/
theorem find_ok {pg : Option PageRef} (hs : Structured s h L)
    (heq : s.findPageToEvict h pages = .ok (pg, h', s')) :
    ∃ L', Structured s' h' L' ∧ SameTable s s' ∧ h'.disk = h.disk ∧
      (∀ q, q ∉ h.disk → h'.page q = h.page q) ∧
      (∀ q, h'.link q = if pg = some q then -1 else h.link q) ∧
      ∀ q, pg = some q → (∃ id, q ∈ L id) ∨ some q ∈ pages := by
  rw [findPageToEvict] at heq
  obtain ⟨⟨s₁, best⟩, hfold, heq⟩ := bind_eq_ok heq
  have hs₀ : Structured { s with sample := s.sample + 1 } h L := { hs with }
  have hf₀ : Found { s with sample := s.sample + 1 } h pages { min := h.clock.current + 1 } :=
    ⟨fun _ hid => absurd hid.symm (Option.some_ne_none _),
      fun _ hq => absurd hq.symm (Option.some_ne_none _)⟩
  obtain ⟨hs₁, hsame, hf⟩ := foldlM_invariant
    (I := fun b : ChainedLeastRecentlyUsed × Candidate =>
      Structured b.1 h L ∧ SameTable s b.1 ∧ Found b.1 h pages b.2)
    (fun p hp b b' hb hstep => by
      obtain ⟨h₁, h₂, h₃⟩ := hb.1.consider hb.2.2 hp hstep
      exact ⟨h₁, hb.2.1.trans h₂, h₃⟩)
    ⟨hs₀, ⟨rfl, rfl, fun _ => ⟨rfl, rfl⟩⟩, hf₀⟩ hfold
  dsimp only at heq hs₁ hsame hf
  cases hid : best.id with
  | none =>
    rw [hid] at heq
    obtain ⟨rfl, hrest⟩ := Prod.mk.inj (Except.ok.inj heq)
    obtain ⟨rfl, rfl⟩ := Prod.mk.inj hrest
    refine ⟨L, hs₁, hsame, rfl, fun _ _ => rfl, fun q => ?_, fun q hq => .inr (hf.pg_mem q hq).1⟩
    split_ifs with hq
    · exact (hf.pg_mem q hq).2
    · rfl
  | some id =>
    rw [hid] at heq
    have hmem := hf.id_mem id hid
    simp only [chain_eq hmem, ok_bind] at heq
    obtain ⟨⟨v, h₁, c⟩, hevict, heq⟩ := bind_eq_ok heq
    obtain ⟨rfl, hrest⟩ := Prod.mk.inj (Except.ok.inj heq)
    obtain ⟨rfl, rfl⟩ := Prod.mk.inj hrest
    obtain ⟨hv, h₂, c', hevict', hs₂, hlink, hdisk, hpage, hfixed, -⟩ := hs₁.evict hmem
      (Chain.victim_of_evict (hs₁.holds id hmem) hs₁.length_le hevict)
    obtain ⟨-, hrest⟩ := Prod.mk.inj (Except.ok.inj (hevict.symm.trans hevict'))
    obtain ⟨rfl, rfl⟩ := Prod.mk.inj hrest
    -- The link of the page is set to what it is.
    have hset : ∀ q, (h₁.setLink v (-1)).link q = h₁.link q := fun q => by
      rw [Heap.link, Heap.setLink, Heap.modify_page]
      split_ifs with hq
      · rw [hq, hlink, Function.update_self]
      · rfl
    have hvd := hs₁.mem_disk id v hv
    refine ⟨_, hs₂.congr hset (fun q => Heap.setLink_next ..) (fun q => Heap.setLink_prev ..)
      fun q hq => hq, hsame.trans (.setChain (congrArg (·.1) hfixed) (congrArg (·.2.1) hfixed)),
      hdisk, fun q hq => ?_, fun q => ?_, fun q hq => .inl ⟨id, Option.some.inj hq ▸ hv⟩⟩
    · have hqv : q ≠ v := fun hqv => hq (hqv ▸ hvd)
      exact (Heap.modify_page_of_ne _ _ hqv).trans (hpage q hq)
    · rw [hset, hlink, Function.update_apply]
      simp only [Option.some.injEq, eq_comm]

end Structured

end Mcpq.Simulator
