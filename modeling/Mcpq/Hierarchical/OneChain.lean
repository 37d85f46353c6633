import Mcpq.Hierarchical.Access
import Mcpq.Hierarchical.Run
import Mcpq.Lib.Script

/-!
# A manager with one user chain

What the calls of a client with one chain do, in terms of addresses (`Queues`): the pages in memory
are on the user chain, on the hated chain or on the default chain, and as long as there is a hated page
the one hated first is evicted.

Calls are the commands of scripts (`Call.command`), so that runs of calls are composed by triples.
-/

namespace Mcpq.Hierarchical

/-- A call as a command, which iterates the map of the user chains in the order given. -/
def Call.command (order : ℕ → List ℤ → List ℤ) (i : ℕ) (s : HierarchicalMemoryManager)
    (call : Call) : Java (HierarchicalMemoryManager × List (Outcome ℤ)) :=
  (call.exec (order i s.usrChains) s).map fun (s, o) => (s, o.toList)

theorem runCalls_eq_runScript (order : ℕ → List ℤ → List ℤ) (i : ℕ)
    (s : HierarchicalMemoryManager) (calls : List Call) :
    runCalls order i s calls = runScript (Call.command order) i s calls := by
  induction calls generalizing i s with
  | nil => rfl
  | cons call calls ih =>
    rw [runCalls, runScript, Call.command]
    cases call.exec (order i s.usrChains) s with
    | error e => rfl
    | ok r =>
      change (runCalls order (i + 1) r.1 calls >>= _) = runScript _ _ _ _ >>= _
      rw [ih]

namespace HierarchicalMemoryManager

/-- The manager of capacity `k` has one user chain, `c`, and only the pages on it are assigned to
    it. -/
structure OneChain (k : ℕ) (c : ℤ) (L : ℤ → List PageRef) (s : HierarchicalMemoryManager) :
    Prop where
  rep : s.Rep L
  settled : s.Settled
  usrChains_eq : s.usrChains = [c]
  size_eq : s.size = k
  spillover_eq : L SystemQueue.spillover.ordinal = []
  relink_eq : ∀ p, p ∉ L c → relinkChain s p = SystemQueue.default.ordinal

/-- The addresses of pages. -/
def addressesOf (s : HierarchicalMemoryManager) (l : List PageRef) : List ℤ :=
  l.map fun p => (s.heap.page p).address

variable {k : ℕ} {c d a : ℤ} {L : ℤ → List PageRef} {s s' : HierarchicalMemoryManager}
  {p : PageRef} {l : List PageRef} {C H D : List ℤ}

theorem addressesOf_congr (h : ∀ p ∈ l, (s'.heap.page p).address = (s.heap.page p).address) :
    s'.addressesOf l = s.addressesOf l :=
  List.map_congr_left h

theorem relinkChain_congr (h : (s'.heap.page p).assigned = (s.heap.page p).assigned) :
    relinkChain s' p = relinkChain s p := by
  rw [relinkChain, relinkChain, h]

namespace OneChain

theorem mem_usrChains (h : OneChain k c L s) : c ∈ s.usrChains := by
  rw [h.usrChains_eq]
  exact List.mem_singleton.2 rfl

theorem three_le (h : OneChain k c L s) : 3 ≤ c := (h.rep.ids.range c h.mem_usrChains).1

theorem ne_hated (h : OneChain k c L s) : c ≠ SystemQueue.hated.ordinal := by
  have := h.three_le
  simp only [SystemQueue.ordinal]
  omega

theorem ne_default (h : OneChain k c L s) : c ≠ SystemQueue.default.ordinal := by
  have := h.three_le
  simp only [SystemQueue.ordinal]
  omega

/-- A page in memory is on one of the three chains. -/
theorem resident_iff (h : OneChain k c L s) : s.Resident p ↔
    p ∈ L c ++ (L SystemQueue.hated.ordinal ++ L SystemQueue.default.ordinal) := by
  constructor
  · intro hp
    obtain ⟨hmem, hchain⟩ := h.rep.mem_resides h.settled hp
    generalize (s.heap.page p).resides = d at hmem hchain
    simp only [List.mem_append]
    rcases hchain with hsys | husr
    · rw [isSysMemChain, decide_eq_true_iff] at hsys
      simp only [SystemQueue.ordinal] at hsys
      obtain rfl | rfl | rfl : d = 0 ∨ d = 1 ∨ d = 2 := by omega
      · exact .inr (.inl hmem)
      · have hspill := h.spillover_eq
        simp only [SystemQueue.ordinal] at hspill
        rw [hspill] at hmem
        exact absurd hmem List.not_mem_nil
      · exact .inr (.inr hmem)
    · rw [h.usrChains_eq, List.mem_singleton] at husr
      exact .inl (husr ▸ hmem)
  · intro hp
    simp only [List.mem_append] at hp
    rcases hp with hp | hp | hp
    all_goals exact h.rep.mem_resident hp

theorem nodup (h : OneChain k c L s) :
    (L c ++ (L SystemQueue.hated.ordinal ++ L SystemQueue.default.ordinal)).Nodup := by
  have hdis : ∀ {d d' : ℤ}, d ≠ d' → (L d).Disjoint (L d') := fun hne q hq hq' =>
    hne (h.rep.eq_of_mem hq hq')
  refine (h.rep.nodup c).append ((h.rep.nodup _).append (h.rep.nodup _) (hdis (by decide))) ?_
  rw [List.disjoint_append_right]
  exact ⟨hdis h.ne_hated, hdis h.ne_default⟩

theorem length_residents (h : OneChain k c L s) : s.residents.length =
    (L c).length + (L SystemQueue.hated.ordinal).length +
      (L SystemQueue.default.ordinal).length := by
  have hperm : s.residents.Perm
      (L c ++ (L SystemQueue.hated.ordinal ++ L SystemQueue.default.ordinal)) :=
    (List.perm_ext_iff_of_nodup h.rep.store.nodup_residents h.nodup).2 fun q => by
      rw [StoreOk.mem_residents, h.resident_iff]
  rw [hperm.length_eq, List.length_append, List.length_append, Nat.add_assoc]

/-- A page that is not on the user chain goes to the default chain when it is loaded. -/
theorem homeChain_eq (h : OneChain k c L s) (ha : ∀ p ∈ L c, (s.heap.page p).address ≠ a) :
    s.homeChain a = SystemQueue.default.ordinal := by
  rw [homeChain]
  cases hswap : s.swap a with
  | none => rfl
  | some q =>
    exact h.relink_eq q fun hq => ha q hq (h.rep.store.swap_eq a q hswap).2

/-- Pages are sent to a chain. -/
theorem sends {L' : ℤ → List PageRef} {v : ℤ} (h : OneChain k c L s) (hs' : s'.Rep L')
    (hm : Sends s s' l d v) (hd : d ≠ -1) (hspill : L' SystemQueue.spillover.ordinal = [])
    (hrel : ∀ p, p ∉ L' c → if p ∈ l then v = SystemQueue.default.ordinal else p ∉ L c) :
    OneChain k c L' s' := by
  refine ⟨hs', hm.settled hd h.settled, hm.usrChains_eq.trans h.usrChains_eq,
    hm.size_eq.trans h.size_eq, hspill, fun p hp => ?_⟩
  have hp' := hrel p hp
  split_ifs at hp' with hl
  · rw [relinkChain, hm.assigned_eq, if_pos hl, hp']
    rfl
  · rw [relinkChain_congr ((hm.assigned_eq p).trans (if_neg hl))]
    exact h.relink_eq p hp'

/-- A page that is accessed in memory stays where it is. -/
theorem hits (h : OneChain k c L s) (hs' : s'.Rep L) (hh : Hits s s' p) : OneChain k c L s' := by
  refine ⟨hs', fun r hr => ?_, hh.usrChains_eq.trans h.usrChains_eq, ?_, h.spillover_eq,
    fun q hq => ?_⟩
  · rw [hh.resides_eq]
    exact h.settled r (by rwa [Resident, hh.memory_eq] at hr)
  · rw [hh.rest]
    exact h.size_eq
  · rw [relinkChain_congr (hh.assigned_eq q)]
    exact h.relink_eq q hq

/-- A frame is free, or the page hated first is evicted. -/
theorem allocs {L₁ : ℤ → List PageRef} {v : Option PageRef} (h : OneChain k c L s)
    (hal : Allocs s L s' L₁ v) (hor : s.residents.length < k ∨ L SystemQueue.hated.ordinal ≠ []) :
    L₁ = (if s.residents.length < k then L else Function.update L SystemQueue.hated.ordinal
        (L SystemQueue.hated.ordinal).dropLast) ∧
      v = if s.residents.length < k then none else (L SystemQueue.hated.ordinal).getLast? := by
  have hfree := h.rep.store.length_residents_lt_iff
  rw [h.size_eq] at hfree
  cases hal with
  | free hf =>
    rw [if_pos (hfree.2 hf), if_pos (hfree.2 hf)]
    exact ⟨rfl, rfl⟩
  | @evict _ id q hfull he =>
    have hlt := mt hfree.1 hfull
    rw [if_neg hlt, if_neg hlt]
    have hne := hor.resolve_left hlt
    have hch := he.chosen
    generalize hd : SystemQueue.hated.ordinal = d at hch hne
    cases hch with
    | hated hlast =>
      subst hd
      have hnd := h.rep.nodup SystemQueue.hated.ordinal
      obtain ⟨m, hm⟩ : ∃ m, L SystemQueue.hated.ordinal = m ++ [q] :=
        ⟨_, (List.dropLast_append_getLast? q hlast).symm⟩
      rw [hm, List.nodup_append] at hnd
      have hq : q ∉ m := fun hq => hnd.2.2 q hq q (List.mem_singleton.2 rfl) rfl
      refine ⟨?_, hlast.symm⟩
      rw [hm, List.erase_append_right _ hq, List.dropLast_concat]
      simp
    | spillover hnil => exact absurd hnil (hd ▸ hne)
    | default hnil => exact absurd hnil (hd ▸ hne)
    | user hnil => exact absurd hnil (hd ▸ hne)

/-- Where a page of the user chain was accessed after one of the default chain, or a page is hated, no
    page of the user chain is evicted. -/
theorem ne_of_chosen (h : OneChain k c L s) (hch : Chosen s L d p)
    (hold : L c = [] ∨ L SystemQueue.hated.ordinal ≠ [] ∨ ∃ x ∈ L c,
      ∃ q ∈ L SystemQueue.default.ordinal, (s.heap.page q).timestamp < (s.heap.page x).timestamp) :
    d ≠ c := by
  cases hch with
  | hated => exact h.ne_hated.symm
  | spillover =>
    have := h.three_le
    simp only [SystemQueue.ordinal]
    omega
  | default => exact h.ne_default.symm
  | @user _ v _ hnil _ hd hv hp _ hdef =>
    rintro rfl
    rcases hold with hc | hhated | ⟨x, hx, q, hq, hlt⟩
    · rw [hc] at hp
      exact List.not_mem_nil hp
    · exact hhated hnil
    · -- The timestamp of the chain is not below those of its pages.
      have hle := hdef q hq
      have := h.rep.stamp_le_of_hasTimestamp hd hx hv
      omega

/-- A page is loaded, and linked to the default chain. -/
theorem loads {s₁ : HierarchicalMemoryManager} {L₁ L' : ℤ → List PageRef} {v : Option PageRef}
    (h : OneChain k c L s) (hn : ∀ r, s.Resident r → (s.heap.page r).address ≠ a)
    (hfr : Frees s L s₁ L₁ v) (hf : Faults s₁ s' a p)
    (hhome : s.homeChain a = SystemQueue.default.ordinal) (hs' : s'.Rep L') (hc : L' c = L c)
    (hspill : L' SystemQueue.spillover.ordinal = []) : OneChain k c L' s' := by
  refine ⟨hs', fun r hr => ?_, ?_, ?_, hspill, fun q hq => ?_⟩
  · rw [hf.resides_eq]
    split_ifs with hrp
    · rw [hfr.homeChain_eq h.rep hn, hhome]
      decide
    · exact hfr.settled h.rep h.settled r ((hf.resident_iff.1 hr).resolve_left hrp)
  · rw [hf.usrChains_eq, hfr.usrChains_eq, h.usrChains_eq]
  · rw [hf.size_eq, hfr.size_eq, h.size_eq]
  · rw [relinkChain_congr ((hf.assigned_eq q).trans (hfr.assigned_eq q))]
    exact h.relink_eq q (hc ▸ hq)

end OneChain

/-- The manager of capacity `k` has one user chain, `c`, with the pages of the addresses `C` on it;
    the pages of the addresses `H` are on the hated chain, those of `D` on the default chain. -/
def Queues (k : ℕ) (c : ℤ) (C H D : List ℤ) (s : HierarchicalMemoryManager) : Prop :=
  ∃ L, OneChain k c L s ∧ s.addressesOf (L c) = C ∧
    s.addressesOf (L SystemQueue.hated.ordinal) = H ∧
    s.addressesOf (L SystemQueue.default.ordinal) = D

/-- An access to the address `a` leaves alone the timestamps of the addresses `l`, but for that of `a`,
    which becomes greater than those. -/
def Touches (s s' : HierarchicalMemoryManager) (a : ℤ) (l : List ℤ) : Prop :=
  ∀ b ∈ l, b ≠ a → s'.stampAt b = s.stampAt b ∧ s.stampAt b < s'.stampAt a

/-- Moving pages between chains leaves their timestamps alone. -/
theorem Moves.stampAt_eq (h : Moves s s') (b : ℤ) : s'.stampAt b = s.stampAt b := by
  rw [stampAt, stampAt, HierarchicalMemoryManager.pageAt, HierarchicalMemoryManager.pageAt,
    h.memory_eq, h.pageTable_eq]
  simp only [h.timestamp_eq]

namespace Queues

theorem make (k : ℕ) (clock : LogicalClock) (draws : ℕ → ℕ) (policy : EvictionPolicy) :
    Queues k 3 [] [] [] ((HierarchicalMemoryManager.make k clock draws).createMemoryChain policy) := by
  have hs := Rep.make k clock draws
  refine ⟨fun _ => [], ⟨hs.addChain policy MemoryChain.maxValue false false, ?_, rfl, rfl, rfl,
    fun p _ => rfl⟩, rfl, rfl, rfl⟩
  exact Rep.settled_make k clock draws

/-- The lists are those of distinct pages in memory. -/
theorem nodup (h : Queues k c C H D s) : (C ++ (H ++ D)).Nodup := by
  obtain ⟨L, h, rfl, rfl, rfl⟩ := h
  simp only [addressesOf, ← List.map_append]
  refine h.nodup.map_on fun q hq r hr heq => ?_
  exact h.rep.store.address_inj q (h.rep.store.lt_fresh (h.resident_iff.2 hq)) r
    (h.rep.store.lt_fresh (h.resident_iff.2 hr)) heq

theorem length_le (h : Queues k c C H D s) : C.length + H.length + D.length ≤ k := by
  obtain ⟨L, h, rfl, rfl, rfl⟩ := h
  simp only [addressesOf, List.length_map, ← h.length_residents, ← h.size_eq]
  exact h.rep.store.length_residents_le

/-- No page in memory has an address on none of the lists. -/
theorem not_resident {L : ℤ → List PageRef} (h : OneChain k c L s) (hC : a ∉ s.addressesOf (L c))
    (hH : a ∉ s.addressesOf (L SystemQueue.hated.ordinal))
    (hD : a ∉ s.addressesOf (L SystemQueue.default.ordinal)) (r : PageRef) (hr : s.Resident r) :
    (s.heap.page r).address ≠ a := by
  rintro rfl
  rw [h.resident_iff, List.mem_append, List.mem_append] at hr
  rcases hr with hr | hr | hr
  · exact hC (List.mem_map_of_mem hr)
  · exact hH (List.mem_map_of_mem hr)
  · exact hD (List.mem_map_of_mem hr)

/-- A page of one of the lists is in memory. -/
theorem exists_resident {L : ℤ → List PageRef} (h : OneChain k c L s) {b : ℤ}
    (hb : b ∈ s.addressesOf (L c) ++ (s.addressesOf (L SystemQueue.hated.ordinal) ++
      s.addressesOf (L SystemQueue.default.ordinal))) :
    ∃ r, s.Resident r ∧ (s.heap.page r).address = b := by
  simp only [addressesOf, ← List.map_append] at hb
  obtain ⟨r, hr, rfl⟩ := List.mem_map.1 hb
  exact ⟨r, h.resident_iff.2 hr, rfl⟩

/-- An access to a page that is linked, or on the default chain. -/
theorem access_hit (h : Queues k c C H D s) (ha : a ∈ C ∨ a ∈ D) (order : List ℤ) :
    ∃ s', s.access order a = .ok (s', .hit) ∧ Queues k c C H D s' ∧
      Touches s s' a (C ++ (H ++ D)) := by
  obtain ⟨L, h, rfl, rfl, rfl⟩ := h
  obtain ⟨d, p, hp, rfl⟩ : ∃ d, ∃ p ∈ L d, (s.heap.page p).address = a := by
    rcases ha with ha | ha
    all_goals
      obtain ⟨p, hp, rfl⟩ := List.mem_map.1 ha
      exact ⟨_, p, hp, rfl⟩
  obtain ⟨s', heq, hs', hh, -⟩ := h.rep.access_hit hp order
  have haddr : ∀ l, s'.addressesOf l = s.addressesOf l := fun l =>
    addressesOf_congr fun q _ => hh.address_eq q
  have hres : ∀ r, s'.Resident r ↔ s.Resident r := fun r => by
    rw [Resident, Resident, hh.memory_eq]
  refine ⟨s', heq, ⟨L, h.hits hs' hh, haddr _, haddr _, haddr _⟩, fun b hb hne => ?_⟩
  obtain ⟨r, hr, rfl⟩ := exists_resident h hb
  have hrp : r ≠ p := fun hrp => hne (hrp ▸ rfl)
  refine ⟨stampAt_of_ne h.rep.store hs'.store hr ((hres r).2 hr) (hh.address_eq r)
    (by rw [hh.page_of_ne hrp]), ?_⟩
  rw [h.rep.store.stampAt_eq hr, ← hh.address_eq p,
    hs'.store.stampAt_eq ((hres p).2 (h.rep.mem_resident hp)), hh.timestamp_eq]
  exact Nat.lt_succ_of_le (h.rep.store.stamp_le r (h.rep.store.lt_fresh hr))

/-- An access to a page that is not in memory: the page goes to the default chain, in a free frame or
    in that of the page hated first. -/
theorem access_fault (h : Queues k c C H [] s) (hk : 0 < k) {order : List ℤ}
    (ho : order.Perm s.usrChains) (haC : a ∉ C) (haH : a ∉ H)
    (hor : C.length + H.length < k ∨ H ≠ []) :
    ∃ s', s.access order a =
        .ok (s', .fault (if C.length + H.length < k then none else H.getLast?)) ∧
      Queues k c C (if C.length + H.length < k then H else H.dropLast) [a] s' := by
  obtain ⟨L, h, rfl, rfl, hD⟩ := h
  have hn := not_resident h haC haH (hD ▸ List.not_mem_nil)
  have hD' : L SystemQueue.default.ordinal = [] := List.map_eq_nil_iff.1 hD
  have hlen := h.length_residents
  rw [hD', List.length_nil, Nat.add_zero] at hlen
  simp only [addressesOf, List.length_map, ← hlen, ne_eq, List.map_eq_nil_iff] at hor ⊢
  have hhome := h.homeChain_eq fun q hq => hn q (h.rep.mem_resident hq)
  obtain ⟨s', s₁, L₁, v, p, heq, hal, hf, hs', -⟩ := h.rep.access_fault h.settled
    (h.size_eq.symm ▸ hk) (fun d => ho.mem_iff) hn (hhome ▸ .inl (by decide))
  obtain ⟨rfl, rfl⟩ := h.allocs hal hor
  rw [hhome] at hs'
  -- The pages that stay keep their addresses.
  have haddr : ∀ l : List PageRef, (∀ q ∈ l, s.Resident q) →
      s'.addressesOf l = s.addressesOf l := fun l hl => addressesOf_congr fun q hq =>
    (hf.address_of_ne (hal.frees.ne_loaded h.rep hn hf.page (hl q hq))).trans (hal.frees.address_eq q)
  have hdef : SystemQueue.hated.ordinal ≠ SystemQueue.default.ordinal := by decide
  -- Only the hated chain loses a page.
  have hL : ∀ d, d ≠ SystemQueue.hated.ordinal → (if s.residents.length < k then L else
      Function.update L SystemQueue.hated.ordinal (L SystemQueue.hated.ordinal).dropLast) d =
        L d := fun d hd => by
    split_ifs
    · rfl
    · rw [Function.update_of_ne hd]
  refine ⟨s', ?_, _, h.loads hn hal.frees hf hhome hs' ?_ ?_, ?_, ?_, ?_⟩
  · rw [heq]
    split_ifs
    · rfl
    · rw [List.getLast?_map]
  · rw [Function.update_of_ne h.ne_default, hL c h.ne_hated]
  · rw [Function.update_of_ne (by decide), hL _ (by decide), h.spillover_eq]
  · rw [Function.update_of_ne h.ne_default, hL c h.ne_hated]
    exact haddr (L c) fun q hq => h.rep.mem_resident hq
  · rw [Function.update_of_ne hdef]
    split_ifs
    · exact haddr _ fun q hq => h.rep.mem_resident hq
    · rw [Function.update_self, haddr _ fun q hq =>
        h.rep.mem_resident (List.mem_of_mem_dropLast hq)]
      exact List.map_dropLast
  · rw [Function.update_self, hL _ hdef.symm, hD']
    exact congrArg (fun x => [x]) hf.address_eq

/-- An access to a page that is not in memory, where no page of the user chain is the one to evict: the
    page goes to the default chain. -/
theorem access_load (h : Queues k c C H D s) (hk : 0 < k) {order : List ℤ}
    (ho : order.Perm s.usrChains) (haC : a ∉ C) (haH : a ∉ H) (haD : a ∉ D)
    (hold : C.length + H.length + D.length < k ∨ C = [] ∨ H ≠ [] ∨
      ∃ x ∈ C, ∃ b ∈ D, s.stampAt b < s.stampAt x) :
    ∃ s' v H' D', s.access order a = .ok (s', .fault v) ∧ Queues k c C H' (a :: D') s' ∧
      H'.Sublist H ∧ D'.Sublist D ∧ (∀ b, v = some b → b ∈ H ∨ b ∈ D) ∧
      Touches s s' a (C ++ (H' ++ D')) := by
  obtain ⟨L, h, rfl, rfl, rfl⟩ := h
  have hn := not_resident h haC haH haD
  have hlen := h.length_residents
  have hhome := h.homeChain_eq fun q hq => hn q (h.rep.mem_resident hq)
  obtain ⟨s', s₁, L₁, v, p, heq, hal, hf, hs', -⟩ := h.rep.access_fault h.settled
    (h.size_eq.symm ▸ hk) (fun d => ho.mem_iff) hn (hhome ▸ .inl (by decide))
  rw [hhome] at hs'
  have hres : ∀ r, s.Resident r → r ≠ p := fun r => hal.frees.ne_loaded h.rep hn hf.page
  have haddr : ∀ r, s.Resident r → (s'.heap.page r).address = (s.heap.page r).address := fun r hr =>
    (hf.address_of_ne (hres r hr)).trans (hal.frees.address_eq r)
  -- The page evicted is a hated one, or one of the default chain.
  obtain ⟨hLc, hsub, hv⟩ : L₁ c = L c ∧ (∀ d, (L₁ d).Sublist (L d)) ∧
      ∀ q, v = some q → q ∈ L SystemQueue.hated.ordinal ∨ q ∈ L SystemQueue.default.ordinal := by
    have hfree := h.rep.store.length_residents_lt_iff
    rw [h.size_eq] at hfree
    cases hal with
    | free => exact ⟨rfl, fun _ => .refl _, by simp⟩
    | @evict _ id q hfull he =>
      have hid : id ≠ c := by
        refine h.ne_of_chosen he.chosen ?_
        simp only [addressesOf, List.length_map, ← hlen, hfree, hfull, false_or, ne_eq,
          List.map_eq_nil_iff] at hold
        refine hold.imp_right (.imp_right ?_)
        rintro ⟨_, hx', _, hb', hlt⟩
        obtain ⟨x, hx, rfl⟩ := List.mem_map.1 hx'
        obtain ⟨b, hb, rfl⟩ := List.mem_map.1 hb'
        rw [h.rep.store.stampAt_eq (h.rep.mem_resident hb),
          h.rep.store.stampAt_eq (h.rep.mem_resident hx)] at hlt
        exact ⟨x, hx, b, hb, hlt⟩
      refine ⟨Function.update_of_ne hid.symm _ _, fun d => ?_, fun r hr => ?_⟩
      · by_cases hd : d = id
        · rw [hd, Function.update_self]
          exact List.erase_sublist
        · rw [Function.update_of_ne hd]
      · obtain rfl := Option.some.inj hr
        have hq := he.mem
        rcases h.rep.chains.isChain_of_mem hq with hsys | husr
        · obtain rfl | rfl | rfl : id = 0 ∨ id = 1 ∨ id = 2 := by
            have := isSysMemChain_iff.1 hsys
            omega
          · exact .inl hq
          · exact absurd (h.spillover_eq ▸ hq) List.not_mem_nil
          · exact .inr hq
        · rw [h.usrChains_eq, List.mem_singleton] at husr
          exact absurd husr hid
  have hlist : ∀ d, s'.addressesOf (L₁ d) = s.addressesOf (L₁ d) := fun d =>
    addressesOf_congr fun q hq => haddr q (h.rep.mem_resident ((hsub d).subset hq))
  have hp' : s'.Resident p := hf.resident_iff.2 (.inl rfl)
  refine ⟨s', _, s.addressesOf (L₁ SystemQueue.hated.ordinal),
    s.addressesOf (L₁ SystemQueue.default.ordinal), heq,
    ⟨_, h.loads hn hal.frees hf hhome hs' ?_ ?_, ?_, ?_, ?_⟩, (hsub _).map _, (hsub _).map _,
    fun b hb => ?_, fun b hb hne => ?_⟩
  · rw [Function.update_of_ne h.ne_default, hLc]
  · rw [Function.update_of_ne (by decide)]
    exact List.eq_nil_of_sublist_nil (h.spillover_eq ▸ hsub _)
  · rw [Function.update_of_ne h.ne_default, hlist, hLc]
  · rw [Function.update_of_ne (by decide), hlist]
  · rw [Function.update_self, ← hlist]
    exact congrArg (· :: _) hf.address_eq
  · obtain ⟨q, hq, rfl⟩ := Option.map_eq_some_iff.1 hb
    exact (hv q hq).imp List.mem_map_of_mem List.mem_map_of_mem
  · obtain ⟨r, hr, hr', rfl⟩ : ∃ r, s.Resident r ∧ s₁.Resident r ∧ (s.heap.page r).address = b := by
      have hs₁ := hal.frees.rep h.rep
      rw [← hLc] at hb
      simp only [addressesOf, ← List.map_append, List.mem_map, List.mem_append] at hb
      obtain ⟨r, hr, rfl⟩ := hb
      have hr₁ : s₁.Resident r := by
        rcases hr with hr | hr | hr
        all_goals exact hs₁.mem_resident hr
      exact ⟨r, ((hal.frees.resident_iff h.rep).1 hr₁).1, hr₁, rfl⟩
    refine ⟨stampAt_of_ne h.rep.store hs'.store hr (hf.resident_iff.2 (.inr hr')) (haddr r hr) ?_, ?_⟩
    · rw [hf.timestamp_of_ne (hres r hr), hal.frees.timestamp_eq]
    · rw [h.rep.store.stampAt_eq hr, ← hf.address_eq, hs'.store.stampAt_eq hp', hf.timestamp_eq,
        hal.frees.clock_eq]
      exact (h.rep.store.stamp_le r (h.rep.store.lt_fresh hr)).trans_lt (by omega)

/-- The page last linked to the default chain is linked to the user chain. -/
theorem link (h : Queues k c C H (a :: D) s) :
    ∃ s', s.link c a = .ok s' ∧ Queues k c (a :: C) H D s' ∧ ∀ b, s'.stampAt b = s.stampAt b := by
  obtain ⟨L, h, rfl, rfl, hD⟩ := h
  obtain ⟨p, l, hp, rfl, rfl⟩ := List.map_eq_cons_iff.1 hD
  obtain ⟨s', heq, hs', hm, -⟩ := h.rep.link_of_mem h.mem_usrChains (hp ▸ List.mem_cons_self)
  rw [if_neg h.ne_default.symm, sendTo, hp, List.erase_cons_head] at hs'
  have haddr : ∀ l, s'.addressesOf l = s.addressesOf l := fun l =>
    addressesOf_congr fun q _ => hm.address_eq q
  refine ⟨s', heq, ⟨_, h.sends hs' hm (h.rep.isChain_ne (.inr h.mem_usrChains)) ?_
    fun q hq => ?_, ?_, ?_, ?_⟩, hm.stampAt_eq⟩
  · rw [Function.update_of_ne (fun he => ?_), Function.update_of_ne (by decide), h.spillover_eq]
    exact absurd (h.rep.ids.isUsr h.mem_usrChains) (by rw [← he]; decide)
  · rw [Function.update_self, List.mem_cons, not_or] at hq
    rw [if_neg (by simpa using hq.1)]
    exact hq.2
  · rw [Function.update_self, haddr]
    rfl
  · rw [Function.update_of_ne h.ne_hated.symm, Function.update_of_ne (by decide), haddr]
  · rw [Function.update_of_ne h.ne_default.symm, Function.update_self, haddr]
    rfl

/-- The page on the default chain is hated. -/
theorem unlink (h : Queues k c C H [a] s) :
    ∃ s', s.unlink a = .ok s' ∧ Queues k c C (a :: H) [] s' := by
  obtain ⟨L, h, rfl, rfl, hD⟩ := h
  obtain ⟨p, hp, rfl⟩ := List.map_eq_singleton_iff.1 hD
  obtain ⟨s', heq, hs', hm, -⟩ :=
    h.rep.unlink_of_mem h.settled (hp ▸ List.mem_singleton_self p) (by decide)
  rw [sendTo, hp, List.erase_cons_head] at hs'
  have haddr : ∀ l, s'.addressesOf l = s.addressesOf l := fun l =>
    addressesOf_congr fun q _ => hm.address_eq q
  refine ⟨s', heq, _, h.sends hs' hm (by decide) ?_ fun q hq => ?_, ?_, ?_, ?_⟩
  · rw [Function.update_of_ne (by decide), Function.update_of_ne (by decide), h.spillover_eq]
  · rw [Function.update_of_ne h.ne_hated, Function.update_of_ne h.ne_default] at hq
    split_ifs
    · rfl
    · exact hq
  · rw [Function.update_of_ne h.ne_hated, Function.update_of_ne h.ne_default, haddr]
  · rw [Function.update_self, haddr]
    rfl
  · rw [Function.update_of_ne (by decide), Function.update_self]
    rfl

/-- The pages of the user chain are hated, the last one linked first. -/
theorem breakMemoryChain (h : Queues k c C H D s) :
    ∃ s', s.breakMemoryChain c = .ok s' ∧ Queues k c [] (C.reverse ++ H) D s' := by
  obtain ⟨L, h, rfl, rfl, rfl⟩ := h
  obtain ⟨s', heq, hs', hm, -⟩ := h.rep.breakMemoryChain h.mem_usrChains
  rw [broken] at hs'
  have haddr : ∀ l, s'.addressesOf l = s.addressesOf l := fun l =>
    addressesOf_congr fun q _ => hm.address_eq q
  have hspill : SystemQueue.spillover.ordinal ≠ c := by
    have := h.three_le
    simp only [SystemQueue.ordinal]
    omega
  refine ⟨s', heq, _, h.sends hs' hm (by decide) ?_ fun q hq => ?_, ?_, ?_, ?_⟩
  · rw [Function.update_of_ne (by decide), Function.update_of_ne hspill, h.spillover_eq]
  · split_ifs with hqc
    · rfl
    · exact hqc
  · rw [Function.update_of_ne h.ne_hated, Function.update_self]
    rfl
  · rw [Function.update_self, haddr, addressesOf, List.map_append, List.map_reverse]
    rfl
  · rw [Function.update_of_ne (by decide), Function.update_of_ne h.ne_default.symm, haddr]

theorem releaseMemoryChain (h : Queues k c C H D s) : ∃ s', s.releaseMemoryChain c = .ok s' := by
  obtain ⟨L, h, -⟩ := h
  obtain ⟨s₁, -, heq, -⟩ := h.rep.releaseMemoryChain h.mem_usrChains
  exact ⟨_, heq⟩

end Queues

end HierarchicalMemoryManager

end Mcpq.Hierarchical
