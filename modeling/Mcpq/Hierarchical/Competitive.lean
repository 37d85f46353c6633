import Mcpq.Hierarchical.Capacity
import Mcpq.Hierarchical.Lru
import Mcpq.Hierarchical.Summary
import Mcpq.Lib.Competitive

/-!
# The manager with chains and the manager without

Only an access loads a page or evicts one: the other calls move pages between chains
(`Kept.addresses_of_sent`). Whatever calls it gets, the manager is thus a memory that LRU can be compared
with (`Kept.demand`), and so is the manager without hints, which is LRU: with `n` frames, it faults at
most `n / (n + 1 - h)` times as often as a manager of `h` frames with any chains (`chains_competitive`).
The faults and the evictions of a run differ by the pages in memory (`faults_eq_residents`).
-/

namespace Mcpq.Hierarchical

open HierarchicalMemoryManager

/-- The address that a call accesses. -/
def Call.accessed? : Call → Option ℤ
  | access address => some address
  | _ => none

/-- Only an access has an outcome. -/
theorem Call.exec_of_ne_access {s s' : HierarchicalMemoryManager} {order : List ℤ} {call : Call}
    {o : Option (Outcome ℤ)} (hcall : ∀ a, call ≠ .access a)
    (h : call.exec order s = .ok (s', o)) : o = none ∧ call.accessed? = none := by
  cases call with
  | access a => exact absurd rfl (hcall a)
  | createMemoryChain policy =>
    cases h
    exact ⟨rfl, rfl⟩
  | createBoundedMemoryChain policy capacity =>
    cases h
    exact ⟨rfl, rfl⟩
  | createAnchoredMemoryChain policy capacity anchored => cases h
  | _ =>
    obtain ⟨s₁, -, heq⟩ := map_eq_ok h
    cases heq
    exact ⟨rfl, rfl⟩

theorem HierarchicalMemoryManager.access_isFault {s s' : HierarchicalMemoryManager} {order : List ℤ}
    {a : ℤ} {o : Outcome ℤ} (h : s.access order a = .ok (s', o)) :
    o.isFault = true ↔ s.pageTable.lookup a = -1 := by
  rw [HierarchicalMemoryManager.access] at h
  split_ifs at h with hl
  · obtain ⟨⟨s₁, p, v⟩, -, h⟩ := bind_eq_ok h
    obtain ⟨s₂, -, h⟩ := bind_eq_ok h
    cases h
    exact ⟨fun _ => hl, fun _ => rfl⟩
  · obtain ⟨_, -, h⟩ := bind_eq_ok h
    obtain ⟨_, -, h⟩ := bind_eq_ok h
    obtain ⟨_, -, h⟩ := bind_eq_ok h
    cases h
    exact ⟨fun h => absurd h Bool.false_ne_true, fun h => absurd h hl⟩

/-- An access evicts the page that leaves its frame. -/
theorem HierarchicalMemoryManager.access_evicts {s s' s₁ : HierarchicalMemoryManager}
    {order : List ℤ} {a f : ℤ} {o : Outcome ℤ} {v : Option PageRef}
    (h : s.access order a = .ok (s', o)) (hl : s.pageTable.lookup a = -1)
    (halloc : s.allocFrame order = .ok (s₁, f, v)) : evicts o = v.isSome := by
  rw [HierarchicalMemoryManager.access, if_pos hl] at h
  obtain ⟨⟨s₂, p, w⟩, hfault, h⟩ := bind_eq_ok h
  obtain ⟨_, -, h⟩ := bind_eq_ok h
  cases h
  obtain ⟨⟨_, _, w'⟩, halloc', hfault⟩ := bind_eq_ok hfault
  rw [halloc] at halloc'
  cases halloc'
  obtain ⟨_, -, hfault⟩ := bind_eq_ok hfault
  obtain ⟨_, -, hfault⟩ := bind_eq_ok hfault
  cases hfault
  cases v <;> rfl

/-- The number of pages when `p` is loaded and `v` is evicted. -/
theorem length_of_load {l l' : List PageRef} (hl : l.Nodup) (hl' : l'.Nodup) {p : PageRef}
    {v : Option PageRef} (hp : p ∉ l) (hv : ∀ q, v = some q → q ∈ l)
    (h : ∀ r, r ∈ l' ↔ r = p ∨ r ∈ l ∧ v ≠ some r) :
    l'.length + (if v.isSome = true then 1 else 0) = l.length + 1 := by
  cases v with
  | none =>
    have hperm : l'.Perm (p :: l) := (List.perm_ext_iff_of_nodup hl' (List.nodup_cons.2 ⟨hp, hl⟩)).2
      fun r => by simp [h]
    rw [hperm.length_eq]
    simp
  | some q =>
    have hperm : l'.Perm (p :: l.erase q) :=
      (List.perm_ext_iff_of_nodup hl' (List.nodup_cons.2
        ⟨fun hpq => hp (List.mem_of_mem_erase hpq), hl.erase q⟩)).2 fun r => by
          rw [h, List.mem_cons, hl.mem_erase_iff, Ne, Option.some.injEq, and_comm, eq_comm (a := q)]
    have := List.length_erase_add_one (hv q rfl)
    rw [hperm.length_eq, List.length_cons]
    simp only [Option.isSome_some, if_true]
    omega

namespace Kept

variable {t t' s' : HierarchicalMemoryManager} {L L' : ℤ → List PageRef} {V V' : List ℤ}
  {call : Call} {a : ℤ} {o : Outcome ℤ} {order : List ℤ}

/-- The pages that a call sends are in memory. -/
theorem resides_of_sends (h : Kept t L V) (hst : FullStep (t.withLive V) call s') {r : PageRef}
    (hr : r < t.heap.fresh) (hs : call.Sends (t.withLive V) r) : (t.heap.page r).resides ≠ -1 := by
  have hpage : ∀ id b, call.target? = some (id, b) → (t.heap.page r).resides ≠ -1 := by
    intro id b hb
    obtain ⟨p, hp⟩ := hst.pageAt_eq hb
    rw [h.eq_of_sends hp hr (((Call.of_target hb).2.1 _ r).1 hs), ← h.resident_iff_resides]
    exact (h.rep.store.pageAt_eq_ok_iff.1 (show t.pageAt b = .ok p from hp)).1
  have hchain : ∀ chain, call.chain? = some chain → (t.heap.page r).resides = chain →
      (t.heap.page r).resides ≠ -1 := fun chain hc hr => by
    have := (hst.created chain hc).1
    omega
  cases call with
  | link chain b => exact hpage chain b rfl
  | anchor chain b => exact hpage chain b rfl
  | unlink b => exact hs.2.1
  | breakMemoryChain chain => exact hchain chain rfl hs
  | releaseMemoryChain chain => exact hchain chain rfl hs
  | _ => exact hs.elim

/-- The pages that a call sends stay in memory. -/
theorem destination_ne (hst : FullStep (t.withLive V) call s') : call.destination ≠ -1 := by
  have hchain : ∀ chain, call.chain? = some chain → chain ≠ -1 := fun chain hc => by
    have := (hst.created chain hc).1
    omega
  cases call with
  | link chain b => exact hchain chain rfl
  | anchor chain b => exact hchain chain rfl
  | _ => exact (by decide : SystemQueue.hated.ordinal ≠ -1)

/-- A call that loads no page leaves all pages in memory. -/
theorem residents_of_sent (h : Kept t L V) (h' : Kept t' L' V')
    (hsent : Sent (t.withLive V) call (t'.withLive V')) (hne : call.destination ≠ -1)
    (hsends : ∀ r < t.heap.fresh, call.Sends (t.withLive V) r → (t.heap.page r).resides ≠ -1) :
    t'.residents.Perm t.residents ∧ t'.addresses.Perm t.addresses := by
  have hfresh : t'.heap.fresh = t.heap.fresh := hsent.fresh_eq
  have hperm : t'.residents.Perm t.residents := by
    refine (List.perm_ext_iff_of_nodup h'.rep.store.nodup_residents
      h.rep.store.nodup_residents).2 fun r => ?_
    rw [StoreOk.mem_residents, StoreOk.mem_residents]
    by_cases hr : r < t.heap.fresh
    · rw [h.resident_iff_resides, h'.resident_iff_resides]
      by_cases hs : call.Sends (t.withLive V) r
      · have hr' : (t'.heap.page r).resides = call.destination := (hsent.of_sends r hr hs).1
        rw [hr']
        exact iff_of_true hne (hsends r hr hs)
      · have hr' : (t'.heap.page r).resides = (t.heap.page r).resides :=
          (hsent.of_not_sends r hr hs).1
        rw [hr']
    · exact iff_of_false (fun h'' => hr (hfresh ▸ h'.rep.store.lt_fresh h''))
        fun h'' => hr (h.rep.store.lt_fresh h'')
  refine ⟨hperm, ?_⟩
  have haddr : (fun r => (t'.heap.page r).address) = fun r => (t.heap.page r).address :=
    funext hsent.address_eq
  rw [addresses, addresses, haddr]
  exact hperm.map _

theorem card_addresses_le (h : Kept t L V) : t.addresses.toFinset.card ≤ t.size := by
  have := h.rep.store.length_residents_le
  rw [← length_addresses] at this
  exact (List.toFinset_card_le _).trans this

/-- An access to a page in memory. -/
theorem demand_hit (h : Kept t L V) {p : PageRef} (hp : t.Resident p)
    (heq : (t.withLive V).access order (t.heap.page p).address = .ok (s', o)) :
    ∃ t', s' = t'.withLive V ∧ Kept t' L V ∧ t'.size = t.size ∧ o = .hit ∧
      t'.residents.length = t.residents.length ∧
      Demand t.size t.addresses.toFinset (t.heap.page p).address .hit t'.addresses.toFinset := by
  have hfault := access_isFault heq
  obtain ⟨t', rfl, h', hsize, -, -, hsent⟩ := h.access_hit hp heq
  have hne : (Call.access (t.heap.page p).address).destination ≠ -1 :=
    (by decide : SystemQueue.hated.ordinal ≠ -1)
  obtain ⟨hperm, haperm⟩ := h.residents_of_sent h' hsent hne fun _ _ hs => hs.elim
  have hset : t'.addresses.toFinset = t.addresses.toFinset := List.toFinset_eq_of_perm _ _ haperm
  have hmem : (t.heap.page p).address ∈ t.addresses.toFinset :=
    List.mem_toFinset.2 (mem_addresses.2 ⟨p, hp, rfl⟩)
  have hhit : o = .hit := by
    cases o with
    | hit => rfl
    | fault v => exact absurd rfl (h.rep.store.lookup_eq_neg_one_iff.1 (hfault.1 rfl) p hp)
  refine ⟨t', rfl, h', hsize, hhit, hperm.length_eq, ⟨?_, ?_, ?_, ?_⟩⟩
  · exact iff_of_false Bool.false_ne_true fun hn => hn hmem
  · rw [hset]
    exact hmem
  · rw [hset]
    exact Finset.subset_insert _ _
  · rw [← hsize]
    exact h'.card_addresses_le

/-- An access to a page that is not in memory. -/
theorem demand_fault (h : Kept t L V) (ho : ∀ d ∈ order, d ∈ V)
    (hres : ∀ r, t.Resident r → (t.heap.page r).address ≠ a)
    (heq : (t.withLive V).access order a = .ok (s', o)) :
    ∃ t' L', s' = t'.withLive V ∧ Kept t' L' V ∧ t'.size = t.size ∧ o.isFault = true ∧
      t'.residents.length + (if evicts o = true then 1 else 0) = t.residents.length + 1 ∧
      Demand t.size t.addresses.toFinset a o t'.addresses.toFinset := by
  have hl : t.pageTable.lookup a = -1 := h.rep.store.lookup_eq_neg_one_iff.2 hres
  have hfault : o.isFault = true := (access_isFault heq).2 hl
  obtain ⟨t₁, L₁, v, f, t', p, halloc, hal, hf, rfl, h', hc⟩ := h.access_fault ho hres heq
  have hsize : t'.size = t.size := hf.size_eq.trans hal.size_eq
  have hmem : ∀ r, t'.Resident r ↔ r = p ∨ t.Resident r ∧ v ≠ some r := fun r => by
    rw [hf.resident_iff, hal.resident_iff h.rep]
  have halloc' : (t.withLive V).allocFrame order = .ok (t₁.withLive V, f, v) := by
    rw [allocFrame_withLive, halloc]
    rfl
  have hev : evicts o = v.isSome := access_evicts heq hl halloc'
  refine ⟨t', _, rfl, h', hsize, hfault, ?_, ⟨?_, ?_, fun b hb => ?_, ?_⟩⟩
  · rw [hev]
    refine length_of_load h.rep.store.nodup_residents h'.rep.store.nodup_residents (p := p)
      (fun hp => ?_) (fun q hq => ?_) fun r => ?_
    · exact hal.ne_loaded h.rep hres hf.page (StoreOk.mem_residents.1 hp) rfl
    · exact StoreOk.mem_residents.2 (hal.victim_resident h.rep hq)
    · rw [StoreOk.mem_residents, StoreOk.mem_residents]
      exact hmem r
  · refine iff_of_true hfault fun ha => ?_
    obtain ⟨r, hr, hra⟩ := mem_addresses.1 (List.mem_toFinset.1 ha)
    exact hres r hr hra
  · exact List.mem_toFinset.2 (mem_addresses.2 ⟨p, (hmem p).2 (.inl rfl), hf.address_eq⟩)
  · obtain ⟨r, hr, rfl⟩ := mem_addresses.1 (List.mem_toFinset.1 hb)
    rw [Finset.mem_insert, List.mem_toFinset]
    by_cases hrp : r = p
    · rw [hrp]
      exact .inl hf.address_eq
    · rw [hf.address_of_ne hrp, hal.address_eq]
      exact .inr (mem_addresses.2 ⟨r, (((hmem r).1 hr).resolve_left hrp).1, rfl⟩)
  · rw [← hsize]
    exact h'.card_addresses_le

end Kept

/-! ## Runs -/

/-- The manager of a run, with `n` frames, and its tally. -/
def Tallied (n : ℕ) (x : HierarchicalMemoryManager × Tally) : Prop :=
  ∃ t L V, x.1 = t.withLive V ∧ Kept t L V ∧ t.size = n ∧
    t.residents.length + x.2.evictions = x.2.faults

theorem Tally.record_faults (t : Tally) (o : Option (Outcome ℤ)) :
    (t.record o).faults = t.faults + Mcpq.faults o.toList := by
  rcases o with _ | _ | _ | _ <;> rfl

namespace Tallied

variable {n : ℕ} {x x' : HierarchicalMemoryManager × Tally} {call : Call}

theorem make (clock : LogicalClock) (draws : ℕ → ℕ) : Tallied n (.make n clock draws, {}) := by
  refine ⟨.make n clock draws, _, [], rfl, ⟨.make n clock draws, Rep.settled_make n clock draws,
    fun _ hd => absurd hd List.not_mem_nil, fun d h3 hlt => absurd hlt (not_lt.2 h3)⟩, rfl, ?_⟩
  simp [residents, HierarchicalMemoryManager.make, Memory.empty, List.reduceOption_replicate_none]

/-- A call is an access to the memory, or leaves the same pages in it. -/
theorem step (h : Tallied n x) (hst : (TalliedSystem n).step x call x') :
    Tallied n x' ∧ ∃ os, x'.2.faults = x.2.faults + faults os ∧
      DemandRun n x.1.addresses.toFinset call.accessed?.toList os x'.1.addresses.toFinset := by
  obtain ⟨s, τ⟩ := x
  obtain ⟨s', τ'⟩ := x'
  obtain ⟨t, L, V, rfl, hk, hn, hlen⟩ := h
  obtain ⟨hcreated, order, o, ho, hexec, rfl⟩ := hst
  have hfaults := τ.record_faults o
  have hev := τ.record_evictions o
  by_cases hcall : ∃ a, call = .access a
  · obtain ⟨a, rfl⟩ := hcall
    obtain ⟨⟨s₁, o₁⟩, heq, h'⟩ := map_eq_ok hexec
    cases h'
    by_cases hres : ∃ r, t.Resident r ∧ (t.heap.page r).address = a
    · obtain ⟨p, hp, rfl⟩ := hres
      obtain ⟨t', rfl, h', hsize, rfl, hlen', hd⟩ := hk.demand_hit hp heq
      refine ⟨⟨t', L, V, rfl, h', hsize.trans hn, ?_⟩, [.hit], hfaults, ?_⟩
      · rw [hlen', hev, hfaults]
        exact hlen
      · exact hn ▸ .cons hd (.nil _)
    · push Not at hres
      obtain ⟨t', L', rfl, h', hsize, hfault, hlen', hd⟩ :=
        hk.demand_fault (fun d => ho.mem_iff.1) hres heq
      refine ⟨⟨t', L', V, rfl, h', hsize.trans hn, ?_⟩, [o₁], hfaults, ?_⟩
      · have hone : faults [o₁] = 1 := by rw [faults, List.countP_singleton, if_pos hfault]
        rw [Option.toList_some, hone] at hfaults
        rw [Option.any_some] at hev
        change t'.residents.length + (τ.record (some o₁)).evictions = (τ.record (some o₁)).faults
        change t.residents.length + τ.evictions = τ.faults at hlen
        omega
      · exact hn ▸ .cons hd (.nil _)
  · push Not at hcall
    have hst : FullStep (t.withLive V) call s' := ⟨hcreated, order, o, ho, hexec⟩
    obtain ⟨t', L', V', rfl, h', hsize, hsent⟩ := hk.step_of_ne_access hst hcall
    obtain ⟨hperm, haperm⟩ := hk.residents_of_sent h' hsent (Kept.destination_ne hst)
      fun r hr => hk.resides_of_sends hst hr
    obtain ⟨rfl, ha⟩ := Call.exec_of_ne_access hcall hexec
    refine ⟨⟨t', L', V', rfl, h', hsize.trans hn, ?_⟩, [], rfl, ?_⟩
    · rw [hperm.length_eq]
      exact hlen
    · have hset : t'.addresses.toFinset = t.addresses.toFinset :=
        List.toFinset_eq_of_perm _ _ haperm
      rw [ha]
      exact (congrArg (DemandRun n t.addresses.toFinset [] []) hset).mpr (.nil _)

/-- A run is one of a memory, and its tally counts the faults. -/
theorem run (h : Tallied n x) {calls : List Call} {P : HierarchicalMemoryManager × Tally → Call → Prop}
    (hr : (TalliedSystem n).RunBy P x calls x') :
    Tallied n x' ∧ ∃ os, x'.2.faults = x.2.faults + faults os ∧
      DemandRun n x.1.addresses.toFinset (calls.filterMap Call.accessed?) os
        x'.1.addresses.toFinset := by
  induction hr with
  | nil => exact ⟨h, [], rfl, .nil _⟩
  | cons _ hst _ ih =>
    obtain ⟨h₁, os, hfaults, hd⟩ := h.step hst
    obtain ⟨h₂, os', hfaults', hd'⟩ := ih h₁
    refine ⟨h₂, os ++ os', ?_, ?_⟩
    · rw [hfaults', hfaults, faults_append, Nat.add_assoc]
    · have happ : ∀ c cs, (c :: cs).filterMap Call.accessed? =
          c.accessed?.toList ++ cs.filterMap Call.accessed? := fun c cs => by
        rw [List.filterMap_cons]
        cases c.accessed? <;> rfl
      rw [happ]
      exact hd.append hd'

end Tallied

/-- With `n` frames and no hints, the manager faults at most `n / (n + 1 - h)` times as often as with
    `h` frames and any chains. -/
theorem chains_competitive {h n : ℕ} (h0 : 0 < n) {clock : LogicalClock} {draws : ℕ → ℕ}
    {calls : List Call} {s : HierarchicalMemoryManager} {t : Tally}
    (hrun : (TalliedSystem h).RunBy (fun _ _ => True) (.make h clock draws, {}) calls (s, t))
    (clock' : LogicalClock) (draws' : ℕ → ℕ) :
    ∃ s' os, accessRun n clock' draws' (calls.filterMap Call.accessed?) = .ok (s', os) ∧
      (n + 1 - h) * faults os ≤ n * t.faults := by
  obtain ⟨-, os, hfaults, hd⟩ := (Tallied.make clock draws).run hrun
  obtain ⟨s', heq, -⟩ := runAccesses_lru (R := fun _ => Plain.IsStack n)
    (fun _ _ _ a _ hs => Plain.isStack_access h0 hs a) (i := 0)
    (calls.filterMap Call.accessed?) (Plain.isStack_make n clock' draws')
  refine ⟨s', _, heq, ?_⟩
  have hempty : (HierarchicalMemoryManager.make h clock draws).addresses = [] := by
    simp [addresses, residents, HierarchicalMemoryManager.make, Memory.empty,
      List.reduceOption_replicate_none]
  rw [hempty, List.toFinset_nil] at hd
  have hzero : t.faults = faults os := hfaults.trans (Nat.zero_add _)
  rw [hzero]
  exact hd.faults_le

/-- A page of a chain is spared when another one is hated. -/
theorem chains_competitive_three : ∃ s, (TalliedSystem 2).RunBy (fun _ _ => True)
      (.make 2 {} fun _ => 0, {}) [.access 1, .createMemoryChain .mru, .link 3 1, .access 2,
        .unlink 2, .access 4, .access 1] (s, ⟨4, 3, 1⟩) ∧
    ∃ s' os, accessRun 3 {} (fun _ => 0) [1, 2, 4, 1] = .ok (s', os) ∧
      (3 + 1 - 2) * faults os ≤ 3 * 3 := by
  have heq : (([.access 1, .createMemoryChain .mru, .link 3 1, .access 2, .unlink 2, .access 4,
      .access 1] : List Call).foldlM tallyCall (.make 2 {} fun _ => 0, {})).map (·.2) =
        .ok ⟨4, 3, 1⟩ := by
    rfl
  obtain ⟨⟨s, t⟩, hm, rfl⟩ := map_eq_ok heq
  have hrun := Transition.RunBy.foldlM (T := TalliedSystem 2) (fun _ _ _ => step_of_tallyCall) hm
  exact ⟨s, hrun, chains_competitive (n := 3) (by decide) hrun {} fun _ => 0⟩

/-- The faults of a run are its evictions and the pages in memory, of which there are at most `n`. A call
    that is not an access neither loads nor drops a page, and is not tallied. -/
theorem faults_eq_residents {n : ℕ} {s : HierarchicalMemoryManager} {t : Tally}
    (hs : (TalliedSystem n).Reachable (s, t)) :
    (s.addresses.length ≤ n ∧ s.addresses.Nodup ∧ t.faults = s.addresses.length + t.evictions) ∧
      ∀ call x, call.accessed? = none → (TalliedSystem n).step (s, t) call x →
        x.1.addresses.toFinset = s.addresses.toFinset ∧ x.2.faults = t.faults := by
  have h : Tallied n (s, t) := by
    refine hs.invariant (I := Tallied n) (fun x hx => ?_) fun _ _ _ hx _ hst => (hx.step hst).1
    obtain ⟨clock, draws, rfl⟩ := hx
    exact .make clock draws
  refine ⟨?_, fun call x hcall hst => ?_⟩
  · obtain ⟨t', L, V, rfl, hk, rfl, hlen⟩ := h
    refine ⟨?_, hk.rep.store.nodup_addresses, ?_⟩
    · change t'.addresses.length ≤ t'.size
      rw [length_addresses]
      exact hk.rep.store.length_residents_le
    · change t.faults = t'.addresses.length + t.evictions
      rw [length_addresses]
      exact hlen.symm
  · obtain ⟨-, os, hfaults, hd⟩ := h.step hst
    rw [hcall] at hd
    generalize hA : s.addresses.toFinset = A at hd
    generalize x.1.addresses.toFinset = A' at hd
    cases hd
    exact ⟨rfl, hfaults⟩

/-- A page is evicted for another one. -/
theorem faults_eq_residents_two : ∃ s, (TalliedSystem 1).Reachable (s, ⟨2, 2, 1⟩) ∧
    (s.addresses.length ≤ 1 ∧ s.addresses.Nodup ∧ 2 = s.addresses.length + 1) ∧
      ∀ call x, call.accessed? = none → (TalliedSystem 1).step (s, ⟨2, 2, 1⟩) call x →
        x.1.addresses.toFinset = s.addresses.toFinset ∧ x.2.faults = 2 := by
  obtain ⟨s, hs⟩ := tallied_two
  exact ⟨s, hs, faults_eq_residents hs⟩

end Mcpq.Hierarchical
