import Mcpq.Hierarchical.Invariant

/-!
# The calls on chains

What `link`, `anchor`, `unlink`, `breakMemoryChain` and `releaseMemoryChain` do to a manager whose
invariant holds: they end normally, keep it, and send pages to the head of a chain (`Sends`).

A page sent to a user chain becomes its representative if its timestamp is greater than the cached
one. A chain that was emptied by `unchain` still has the representative it had: the cached
timestamps are valid (`CacheValid`), each the greatest of the chain, until a page is sent to such a
chain with a smaller timestamp (`Stale`).
-/

namespace Mcpq.Hierarchical

namespace HierarchicalMemoryManager

/-- The representatives of the user chains that hold pages are among these. -/
def CacheValid (s : HierarchicalMemoryManager) (L : ℤ → List PageRef) : Prop :=
  ∀ id ∈ s.usrChains, L id ≠ [] → ∀ x, (s.chains id).representative = some x → x ∈ L id

/-- The user chain `id` is empty, and keeps the representative it had before if the page `p` joins
    it. -/
def Stale (s : HierarchicalMemoryManager) (id : ℤ) (p : PageRef) : Prop :=
  id ∈ s.usrChains ∧ (s.chains id).size = 0 ∧ ∃ x, (s.chains id).representative = some x ∧ x ≠ p ∧
    (s.heap.page p).timestamp ≤ (s.chains id).timestamp

/-- The pages `l` go to the chain `id`, and are assigned to the chain `v`. -/
structure Sends (s s' : HierarchicalMemoryManager) (l : List PageRef) (id v : ℤ) : Prop
    extends Moves s s' where
  resides_eq : ∀ q, (s'.heap.page q).resides = if q ∈ l then id else (s.heap.page q).resides
  assigned_eq : ∀ q, (s'.heap.page q).assigned = if q ∈ l then v else (s.heap.page q).assigned

/-- The lists of the chains after a page has gone from the chain `d` to the chain `id`. -/
def sendTo (L : ℤ → List PageRef) (d id : ℤ) (p : PageRef) : ℤ → List PageRef :=
  Function.update (Function.update L d ((L d).erase p)) id (p :: L id)

/-- The lists of the chains after the chain `id` has been broken. -/
def broken (L : ℤ → List PageRef) (id : ℤ) : ℤ → List PageRef :=
  Function.update (Function.update L id []) SystemQueue.hated.ordinal
    ((L id).reverse ++ L SystemQueue.hated.ordinal)

variable {s s' s'' : HierarchicalMemoryManager} {L : ℤ → List PageRef} {id d v : ℤ}
  {p r : PageRef} {l : List PageRef}

theorem isChain_hated (s : HierarchicalMemoryManager) : s.IsChain SystemQueue.hated.ordinal :=
  .inl (by decide)

theorem Sends.settled (h : Sends s s' l id v) (hid : id ≠ -1) (hs : s.Settled) :
    s'.Settled := by
  intro r hr
  rw [h.resides_eq]
  split_ifs
  · exact hid
  · exact hs r ((h.resident_iff r).1 hr)

theorem Sends.setAnchor (h : Sends s s' l id v) : Sends s (s'.setAnchor d p) l id v :=
  ⟨h.toMoves.trans (setAnchor_moves s' d p), h.resides_eq, h.assigned_eq⟩

namespace Rep

/-! ## A page leaves a chain, and joins another -/

theorem size_eq_zero_iff (hs : s.Rep L) : (s.chains id).size = 0 ↔ L id = [] := by
  rw [(hs.chains.holds id).size, Int.natCast_eq_zero, List.length_eq_zero_iff]

theorem cacheValid_unlink (hs : s.Rep L) (hp : p ∈ L id) (hv : s.CacheValid L) :
    (s.chainUnlink id (some p)).CacheValid (Function.update L id ((L id).erase p)) := by
  obtain ⟨-, hu⟩ := hs.unlink hp
  intro d hd hne x hx
  rw [hu.usrChains_eq] at hd
  rw [hu.representative_eq] at hx
  split_ifs at hx with hdx
  by_cases hdi : d = id
  · subst hdi
    rw [Function.update_self] at hne ⊢
    have hxp : x ≠ p := by
      rintro rfl
      exact hdx ⟨rfl, hx⟩
    exact (List.mem_erase_of_ne hxp).2 (hv d hd (List.ne_nil_of_mem hp) x hx)
  · rw [Function.update_of_ne hdi] at hne ⊢
    exact hv d hd hne x hx

/-- The cached timestamps stay valid when a page joins a chain that is not stale. -/
theorem cacheValid_link (hs : s.Rep L) (hl : Links s s' id p) (hv : s.CacheValid L) :
    s'.CacheValid (Function.update L id (p :: L id)) ↔ ¬s.Stale id p := by
  constructor
  · rintro hv' ⟨hid, hsize, x, hx, hxp, hle⟩
    have hmem : x ∈ Function.update L id (p :: L id) id := by
      refine hv' id (hl.usrChains_eq ▸ hid) (by simp) x ?_
      rw [hl.representative_eq, if_neg fun h => absurd hle (not_le.2 h.2)]
      exact hx
    rw [Function.update_self, hs.size_eq_zero_iff.1 hsize, List.mem_singleton] at hmem
    exact hxp hmem
  · intro hst d hd hne x hx
    rw [hl.usrChains_eq] at hd
    rw [hl.representative_eq] at hx
    by_cases hdi : d = id
    · subst hdi
      rw [Function.update_self]
      split_ifs at hx with hlt
      · cases hx
        exact List.mem_cons_self
      · by_cases hnil : L d = []
        · by_contra hxp
          refine hst ⟨hd, hs.size_eq_zero_iff.2 hnil, x, hx, fun h => hxp (by simp [h]), ?_⟩
          exact not_lt.1 fun h => hlt ⟨rfl, h⟩
        · exact List.mem_cons_of_mem _ (hv d hd hnil x hx)
    · rw [Function.update_of_ne hdi] at hne ⊢
      rw [if_neg fun h => hdi h.1] at hx
      exact hv d hd hne x hx

/-- A page that is on no chain is sent to a chain. -/
theorem send (hs : s.Rep L) (hid : s.IsChain id) (hp : s.Resident p)
    (hr : (s.heap.page p).resides = -1) (v : ℤ) :
    ∃ s', (s.assign p v).chainLink id p = .ok (none, s') ∧
      s'.Rep (Function.update L id (p :: L id)) ∧ Sends s s' [p] id v ∧
      (s.CacheValid L → (s'.CacheValid (Function.update L id (p :: L id)) ↔ ¬s.Stale id p)) := by
  have ha := hs.assign (hs.store.lt_fresh hp) v
  have hm := ChainsOk.assign_moves s p v
  obtain ⟨s', heq, hs', hl⟩ := ha.link (show (s.assign p v).IsChain id from hid) hp
    ((ChainsOk.assign_resides p).trans hr)
  refine ⟨s', heq, hs', ⟨hm.trans hl.toMoves, fun q => ?_, fun q => ?_⟩, fun hv => ?_⟩
  · rw [hl.resides_eq, ChainsOk.assign_resides]
    simp only [List.mem_singleton]
  · rw [hl.assigned_eq, HierarchicalMemoryManager.assign]
    simp only [Heap.modify_page, List.mem_singleton]
    split_ifs <;> rfl
  · rw [ha.cacheValid_link hl hv, Stale, hm.timestamp_eq]
    rfl

/-- A page is sent from a chain to another. -/
theorem sendTo (hs : s.Rep L) (hp : p ∈ L d) (hid : s.IsChain id) (hne : d ≠ id) (v : ℤ) :
    ∃ s', ((s.chainUnlink d (some p)).assign p v).chainLink id p = .ok (none, s') ∧
      s'.Rep (sendTo L d id p) ∧ Sends s s' [p] id v ∧
      (s.CacheValid L → (s'.CacheValid (sendTo L d id p) ↔ ¬s.Stale id p)) := by
  obtain ⟨hs₁, hu⟩ := hs.unlink hp
  obtain ⟨s', heq, hs', hl, hv'⟩ := hs₁.send ((hu.isChain_iff id).2 hid)
    ((hu.resident_iff p).2 (hs.mem_resident hp)) ((hu.resides_eq p).trans (if_pos rfl)) v
  rw [Function.update_of_ne hne.symm] at hs' hv'
  refine ⟨s', heq, hs', ⟨hu.toMoves.trans hl.toMoves, fun q => ?_, fun q => ?_⟩, fun hv => ?_⟩
  · rw [hl.resides_eq, hu.resides_eq]
    simp only [List.mem_singleton]
    split_ifs <;> rfl
  · rw [hl.assigned_eq, hu.assigned_eq]
  · have hrep : ((s.chainUnlink d (some p)).chains id).representative =
        (s.chains id).representative := by
      rw [hu.representative_eq, if_neg fun h => hne h.1.symm]
    have hsize : ((s.chainUnlink d (some p)).chains id).size = 0 ↔ (s.chains id).size = 0 := by
      rw [hs₁.size_eq_zero_iff, hs.size_eq_zero_iff, Function.update_of_ne hne.symm]
    rw [HierarchicalMemoryManager.sendTo, hv' (hs.cacheValid_unlink hp hv), Stale, Stale,
      hu.usrChains_eq, hsize, hrep, hu.timestamp_eq, hu.stamp_eq]

theorem not_stale_hated (hs : s.Rep L) : ¬s.Stale SystemQueue.hated.ordinal p := by
  rintro ⟨h, -⟩
  have := (hs.ids.range _ h).1
  simp [SystemQueue.ordinal] at this

/-! ## The calls -/

/-- A page of the memory is on a chain. -/
theorem mem_resides (hs : s.Rep L) (hset : s.Settled) (hp : s.Resident p) :
    p ∈ L (s.heap.page p).resides ∧ s.IsChain (s.heap.page p).resides :=
  ⟨hs.chains.mem_resides (hset p hp), hs.chains.resides p (hset p hp)⟩

/-- `unlink` leaves a manager alone if the page is not in memory. -/
theorem unlink_of_not_resident (hs : s.Rep L) {a : ℤ}
    (ha : ∀ r, s.Resident r → (s.heap.page r).address ≠ a) : s.unlink a = .ok s := by
  rw [HierarchicalMemoryManager.unlink, hs.store.lookup_eq_neg_one_iff.2 ha]
  rfl

theorem unlink_eq (hs : s.Rep L) (hset : s.Settled) (hp : s.Resident p) :
    s.unlink (s.heap.page p).address =
      if (s.heap.page p).resides ≠ SystemQueue.hated.ordinal then
        (((s.chainUnlink (s.heap.page p).resides (some p)).assign p
          SystemQueue.default.ordinal).chainLink SystemQueue.hated.ordinal p).map (·.2)
      else .ok s := by
  obtain ⟨f, -, hf⟩ := hs.store.getElem?_frame hp
  have hne : s.pageTable.lookup (s.heap.page p).address ≠ -1 := by
    rw [hs.store.lookup_of_getElem? hf]
    omega
  rw [HierarchicalMemoryManager.unlink, if_pos hne, hs.store.lookup_of_getElem? hf,
    hs.store.load_frame hf, ok_bind, deref_some, ok_bind, chainOf_eq (hs.mem_resides hset hp).2,
    ok_bind]
  split_ifs
  · rfl
  · rfl

theorem unlink_of_hated (hs : s.Rep L) (hset : s.Settled)
    (hp : p ∈ L SystemQueue.hated.ordinal) : s.unlink (s.heap.page p).address = .ok s := by
  rw [hs.unlink_eq hset (hs.mem_resident hp), ((hs.chains.mem_iff _ p).1 hp).1, if_neg]
  exact fun h => h rfl

/-- `unlink` sends the page to the hated chain. -/
theorem unlink_of_mem (hs : s.Rep L) (hset : s.Settled) (hp : p ∈ L d)
    (hd : d ≠ SystemQueue.hated.ordinal) :
    ∃ s', s.unlink (s.heap.page p).address = .ok s' ∧
      s'.Rep (HierarchicalMemoryManager.sendTo L d SystemQueue.hated.ordinal p) ∧
      Sends s s' [p] SystemQueue.hated.ordinal SystemQueue.default.ordinal ∧
      (s.CacheValid L →
        s'.CacheValid (HierarchicalMemoryManager.sendTo L d SystemQueue.hated.ordinal p)) := by
  obtain ⟨s', heq, hs', hl, hv⟩ :=
    hs.sendTo hp s.isChain_hated hd SystemQueue.default.ordinal
  refine ⟨s', ?_, hs', hl, fun h => (hv h).2 hs.not_stale_hated⟩
  rw [hs.unlink_eq hset (hs.mem_resident hp), ((hs.chains.mem_iff _ p).1 hp).1, if_pos hd, heq]
  rfl

/-- The chain of a page is a system chain, which is not the user chain `id`, or a user chain. -/
theorem sys_or_usr (hs : s.Rep L) (hid : id ∈ s.usrChains) (hp : p ∈ L d) :
    isSysMemChain d = true ∧ d ≠ id ∨ isSysMemChain d ≠ true ∧ d ∈ s.usrChains := by
  rcases hs.chains.isChain_of_mem hp with hsys | hmem
  · refine .inl ⟨hsys, ?_⟩
    rintro rfl
    exact isUsrMemChain_iff.1 (hs.ids.isUsr hid) (isSysMemChain_iff.1 hsys)
  · exact .inr ⟨fun h => isUsrMemChain_iff.1 (hs.ids.isUsr hmem) (isSysMemChain_iff.1 h), hmem⟩

/-- The page to link to a user chain leaves the chain it is on. -/
theorem link_eq (hs : s.Rep L) (hid : id ∈ s.usrChains) (hp : p ∈ L d) :
    s.link id (s.heap.page p).address =
      ((if d = id then s else s.chainUnlink d (some p)).assign p id).chainLink id p >>=
        fun r => r.2.spill r.1 := by
  obtain ⟨hr, hne⟩ := (hs.chains.mem_iff d p).1 hp
  rw [HierarchicalMemoryManager.link, hs.store.pageAt_of_resident (hs.mem_resident hp), ok_bind,
    hr, if_neg hne]
  rcases hs.sys_or_usr hid hp with ⟨hsys, hdi⟩ | ⟨hsys, hmem⟩
  · rw [if_pos hsys, if_neg hdi, ok_bind]
  · rw [if_neg hsys]
    by_cases hdi : d = id
    · rw [if_neg fun h => h hdi.symm, if_pos hdi, ok_bind]
    · rw [if_pos (Ne.symm hdi), if_neg hdi, usrChain, if_pos hmem, ok_bind, ok_bind]

theorem anchor_eq (hs : s.Rep L) (hid : id ∈ s.usrChains) (hp : p ∈ L d) :
    s.anchor id (s.heap.page p).address =
      ((if d = id then s else s.chainUnlink d (some p)).assign p id).chainAnchor id p >>=
        fun r => r.2.spill r.1 := by
  obtain ⟨hr, hne⟩ := (hs.chains.mem_iff d p).1 hp
  rw [HierarchicalMemoryManager.anchor, hs.store.pageAt_of_resident (hs.mem_resident hp), ok_bind,
    hr]
  rcases hs.sys_or_usr hid hp with ⟨hsys, hdi⟩ | ⟨hsys, hmem⟩
  · rw [if_pos hsys, if_neg hdi, ok_bind]
  · rw [if_neg hsys]
    by_cases hdi : d = id
    · rw [if_neg fun h => h.2 hdi.symm, if_pos hdi, ok_bind]
    · rw [if_pos ⟨hne, Ne.symm hdi⟩, if_neg hdi, usrChain, if_pos hmem, ok_bind, ok_bind]

/-- What remains to do of `link` and `anchor`. -/
private theorem chainLink_of_mem (hs : s.Rep L) (hid : id ∈ s.usrChains) (hp : p ∈ L d) :
    ∃ s', ((if d = id then s else s.chainUnlink d (some p)).assign p id).chainLink id p =
        .ok (none, s') ∧
      s'.Rep (if d = id then L else HierarchicalMemoryManager.sendTo L d id p) ∧
      Sends s s' [p] id id ∧
      (s.CacheValid L →
        (s'.CacheValid (if d = id then L else HierarchicalMemoryManager.sendTo L d id p) ↔
          ¬s.Stale id p)) := by
  by_cases hdi : d = id
  · -- The chain the page is on: `link` does nothing.
    subst hdi
    obtain ⟨hr, -⟩ := (hs.chains.mem_iff d p).1 hp
    have hm := ChainsOk.assign_moves s p d
    have heq : (s.assign p d).chainLink d p = .ok (none, s.assign p d) := by
      rw [chainLink, MemoryChain.link_of_resides]
      · simp [setChain]
      · rw [ChainsOk.assign_resides, hr]
        exact (hs.chains.id_eq d).symm
    rw [if_pos rfl, if_pos rfl]
    refine ⟨s.assign p d, heq, hs.assign (hs.lt_fresh hp) d, ⟨hm, fun q => ?_, fun q => ?_⟩,
      fun hv => iff_of_true hv fun hst => ?_⟩
    · simp only [ChainsOk.assign_resides, List.mem_singleton]
      split_ifs with hq
      · rw [hq, hr]
      · rfl
    · simp only [HierarchicalMemoryManager.assign, Heap.modify_page, List.mem_singleton]
      split_ifs <;> rfl
    · exact List.ne_nil_of_mem hp (hs.size_eq_zero_iff.1 hst.2.1)
  · rw [if_neg hdi, if_neg hdi]
    exact hs.sendTo hp (.inr hid) hdi id

/-- `link` sends the page to the chain. -/
theorem link_of_mem (hs : s.Rep L) (hid : id ∈ s.usrChains) (hp : p ∈ L d) :
    ∃ s', s.link id (s.heap.page p).address = .ok s' ∧
      s'.Rep (if d = id then L else HierarchicalMemoryManager.sendTo L d id p) ∧
      Sends s s' [p] id id ∧
      (s.CacheValid L →
        (s'.CacheValid (if d = id then L else HierarchicalMemoryManager.sendTo L d id p) ↔
          ¬s.Stale id p)) := by
  obtain ⟨s', heq, h⟩ := hs.chainLink_of_mem hid hp
  refine ⟨s', ?_, h⟩
  rw [hs.link_eq hid hp, heq]
  rfl

/-- `anchor` sends the page to the chain, and makes it its anchor. -/
theorem anchor_of_mem (hs : s.Rep L) (hid : id ∈ s.usrChains) (hp : p ∈ L d) :
    ∃ s', s.anchor id (s.heap.page p).address = .ok s' ∧
      s'.Rep (if d = id then L else HierarchicalMemoryManager.sendTo L d id p) ∧
      Sends s s' [p] id id ∧
      (s.CacheValid L →
        (s'.CacheValid (if d = id then L else HierarchicalMemoryManager.sendTo L d id p) ↔
          ¬s.Stale id p)) := by
  obtain ⟨s', heq, hs', hl, hv⟩ := hs.chainLink_of_mem hid hp
  have hmem : p ∈ (if d = id then L else HierarchicalMemoryManager.sendTo L d id p) id := by
    split_ifs with hdi
    · exact hdi ▸ hp
    · simp [HierarchicalMemoryManager.sendTo]
  refine ⟨s'.setAnchor id p, ?_, hs'.setAnchor hmem, hl.setAnchor, fun h => ?_⟩
  · rw [hs.anchor_eq hid hp, chainAnchor_eq, heq]
    rfl
  · rw [← hv h]
    refine forall₂_congr fun d hd => ?_
    rw [(setAnchor_stamp s' id d p).2]

/-- The pages removed from a chain are sent to the hated chain. -/
theorem hateAll (hs : s.Rep L) (hl : l.Nodup)
    (hr : ∀ p ∈ l, s.Resident p ∧ (s.heap.page p).resides = -1) :
    ∃ s', (l.map some).foldlM hatePage s = .ok s' ∧
      s'.Rep (Function.update L SystemQueue.hated.ordinal
        (l.reverse ++ L SystemQueue.hated.ordinal)) ∧
      Sends s s' l SystemQueue.hated.ordinal SystemQueue.default.ordinal ∧
      (s.CacheValid L → s'.CacheValid (Function.update L SystemQueue.hated.ordinal
        (l.reverse ++ L SystemQueue.hated.ordinal))) := by
  rw [List.foldlM_map]
  refine foldlM_ok (fun done s' => s'.Rep (Function.update L SystemQueue.hated.ordinal
      (done.reverse ++ L SystemQueue.hated.ordinal)) ∧
    Sends s s' done SystemQueue.hated.ordinal SystemQueue.default.ordinal ∧
    (s.CacheValid L → s'.CacheValid (Function.update L SystemQueue.hated.ordinal
      (done.reverse ++ L SystemQueue.hated.ordinal)))) ?_ ?_
  · rintro done p rest rfl s₁ ⟨hs₁, hl₁, hv₁⟩
    have hmem : p ∈ done ++ p :: rest := by simp
    have hnot : p ∉ done := fun h =>
      (List.nodup_append.1 hl).2.2 p h p List.mem_cons_self rfl
    obtain ⟨s₂, heq, hs₂, hl₂, hv₂⟩ := hs₁.send s₁.isChain_hated
      ((hl₁.resident_iff p).2 (hr p hmem).1)
      (by rw [hl₁.resides_eq, if_neg hnot]; exact (hr p hmem).2) SystemQueue.default.ordinal
    simp only [Function.update_self, Function.update_idem] at hs₂ hv₂
    rw [List.reverse_append, List.reverse_singleton, List.singleton_append, List.cons_append]
    refine ⟨s₂, ?_, hs₂, ⟨hl₁.toMoves.trans hl₂.toMoves, fun q => ?_, fun q => ?_⟩,
      fun hv => (hv₂ (hv₁ hv)).2 hs₁.not_stale_hated⟩
    · rw [hatePage, deref_some, ok_bind, heq]
      rfl
    · rw [hl₂.resides_eq, hl₁.resides_eq]
      simp only [List.mem_append, List.mem_singleton]
      split_ifs <;> tauto
    · rw [hl₂.assigned_eq, hl₁.assigned_eq]
      simp only [List.mem_append, List.mem_singleton]
      split_ifs <;> tauto
  · have hL : Function.update L SystemQueue.hated.ordinal
        ([].reverse ++ L SystemQueue.hated.ordinal) = L := Function.update_eq_self _ _
    rw [hL]
    exact ⟨hs, ⟨.refl s, by simp, by simp⟩, id⟩

/-- `breakMemoryChain` sends the pages of the chain to the hated chain. -/
theorem breakMemoryChain (hs : s.Rep L) (hid : id ∈ s.usrChains) :
    ∃ s', s.breakMemoryChain id = .ok s' ∧ s'.Rep (broken L id) ∧
      Sends s s' (L id) SystemQueue.hated.ordinal SystemQueue.default.ordinal ∧
      (s.CacheValid L → s'.CacheValid (broken L id)) := by
  have h3 := (hs.ids.range id hid).1
  have hne : SystemQueue.hated.ordinal ≠ id := by
    simp only [SystemQueue.ordinal]
    omega
  obtain ⟨h, c, heq, hs₁, hm, ha, hr, hst⟩ := hs.unchain (show id ≠ -1 by omega)
  obtain ⟨s', heq', hs', hl, hv⟩ := hs₁.hateAll (hs.nodup id) fun p hp =>
    ⟨(hm.resident_iff p).2 (hs.mem_resident hp), (hr p).trans (if_pos hp)⟩
  rw [Function.update_of_ne hne] at hs' hv
  refine ⟨s', ?_, hs', ⟨hm.trans hl.toMoves, fun q => ?_, fun q => ?_⟩, fun hv₀ => hv ?_⟩
  · rw [HierarchicalMemoryManager.breakMemoryChain, heq]
    exact heq'
  · rw [hl.resides_eq]
    split_ifs with hq
    · rfl
    · exact (hr q).trans (if_neg hq)
  · rw [hl.assigned_eq]
    split_ifs
    · rfl
    · exact ha q
  · intro d hd hnil x hx
    rw [(hst d).2] at hx
    by_cases hdi : d = id
    · rw [hdi, Function.update_self] at hnil
      exact absurd rfl hnil
    · rw [Function.update_of_ne hdi] at hnil ⊢
      exact hv₀ d hd hnil x hx

theorem broken_self (hid : id ≠ SystemQueue.hated.ordinal) : broken L id id = [] := by
  rw [broken, Function.update_of_ne hid, Function.update_self]

/-- `releaseMemoryChain` breaks the chain, and drops it. -/
theorem releaseMemoryChain (hs : s.Rep L) (hid : id ∈ s.usrChains) :
    ∃ s₁, s.breakMemoryChain id = .ok s₁ ∧
      s.releaseMemoryChain id = .ok { s₁ with usrChains := s₁.usrChains.erase id } ∧
      Rep { s₁ with usrChains := s₁.usrChains.erase id } (broken L id) ∧
      Sends s s₁ (L id) SystemQueue.hated.ordinal SystemQueue.default.ordinal ∧
      (s.CacheValid L →
        CacheValid { s₁ with usrChains := s₁.usrChains.erase id } (broken L id)) := by
  have h3 := (hs.ids.range id hid).1
  have hne : id ≠ SystemQueue.hated.ordinal := by
    simp only [SystemQueue.ordinal]
    omega
  obtain ⟨s₁, heq, hs₁, hl, hv⟩ := hs.breakMemoryChain hid
  refine ⟨s₁, heq, ?_, hs₁.dropChain (broken_self hne), hl, fun h d hd => ?_⟩
  · rw [HierarchicalMemoryManager.releaseMemoryChain, heq]
    rfl
  · exact hv h d (List.mem_of_mem_erase hd)

theorem cacheValid_addChain (hs : s.Rep L) (hv : s.CacheValid L) (policy : EvictionPolicy)
    (capacity : ℤ) (bounded anchored : Bool) :
    (s.addChain (.make s.chainId policy capacity bounded anchored)).CacheValid L := by
  intro d hd hne x hx
  rcases List.mem_cons.1 hd with rfl | hd
  · refine absurd (hs.eq_nil_of_not_isChain fun h => ?_) hne
    exact absurd (hs.ids.isChain_nonneg h).2 (lt_irrefl _)
  · have hne' : d ≠ s.chainId := ((hs.ids.range d hd).2).ne
    simp only [HierarchicalMemoryManager.addChain, MemoryChain.make,
      Function.update_of_ne hne'] at hx
    exact hv d hd hne x hx

end Rep

end HierarchicalMemoryManager

end Mcpq.Hierarchical
