import Mcpq.Simulator.ChainTable
import Mcpq.Lib.Transition

/-!
# The capacities of chains

The runs of the chained LRU policy, whose methods are called on any page objects, while the rest of the
simulator writes the pages but their links (`LoveSystem`). A chain with a capacity evicts one of its pages
when another page is added to it while it is full, and the page evicted is on no chain. The constructor
that is given a capacity without a flag loses it: such a chain stays within its capacity as long as no page
is added to it while it is full (`Overfills`), and only then: `chain_capacity`.
-/

namespace Mcpq.Simulator

open ChainedLeastRecentlyUsed

/-- A call to the chained LRU policy. -/
inductive LoveCall
  | newChain
  | newAnchoredChain (anchored : Bool)
  | newBoundedChain (capacity : ℤ)
  | newBoundedAnchoredChain (capacity : ℤ) (anchored : Bool)
  | love (page : Option PageRef) (link : ℤ)
  | lovePin (page : Option PageRef) (link : ℤ) (pin : Bool)
  | hate (page : Option PageRef)
  | hateLink (page : Option PageRef) (link : ℤ)
  | hateChain (link : ℤ)
  | findPageToEvict (pages : List (Option PageRef))
  deriving DecidableEq, Repr

/-- The policy and the pages. -/
structure LoveState where
  policy : ChainedLeastRecentlyUsed := {}
  heap : Heap := {}

namespace LoveCall

/-- The page a call is given. -/
def page? : LoveCall → Option PageRef
  | love page _ => page
  | lovePin page _ _ => page
  | hate page => page
  | hateLink page _ => page
  | _ => none

/-- The page that a call adds to a chain, and the chain. -/
def adds? : LoveCall → Option (PageRef × ℤ)
  | love (some p) link => some (p, link)
  | lovePin (some p) link _ => some (p, link)
  | _ => none

/-- What a call does to the pages and to the policy. -/
def exec (st : LoveState) : LoveCall → Java (Heap × ChainedLeastRecentlyUsed)
  | newChain => .ok (st.heap, st.policy.newChain.2)
  | newAnchoredChain anchored => .ok (st.heap, (st.policy.newAnchoredChain anchored).2)
  | newBoundedChain capacity => .ok (st.heap, (st.policy.newBoundedChain capacity).2)
  | newBoundedAnchoredChain capacity anchored =>
    .ok (st.heap, (st.policy.newBoundedAnchoredChain capacity anchored).2)
  | love page link => st.policy.love st.heap page link
  | lovePin page link pin => st.policy.lovePin st.heap page link pin
  | hate page => st.policy.hate st.heap page
  | hateLink page link => st.policy.hateLink st.heap page link
  | hateChain link => st.policy.hateChain st.heap link
  | findPageToEvict pages => (st.policy.findPageToEvict st.heap pages).map (·.2)

end LoveCall

/-- A call that returns normally, or what the rest of the simulator does (`none`). -/
inductive LoveStep (st : LoveState) : Option LoveCall → LoveState → Prop
  | call {call : LoveCall} {h : Heap} {s : ChainedLeastRecentlyUsed} :
    (∀ p, call.page? = some p → p ∈ st.heap.disk) → call.exec st = .ok (h, s) →
    LoveStep st (some call) ⟨s, h⟩
  | other {h : Heap} : (∀ q, h.link q = st.heap.link q) → (∀ q, h.next q = st.heap.next q) →
    (∀ q, h.prev q = st.heap.prev q) → (∀ q ∈ st.heap.disk, q ∈ h.disk) →
    LoveStep st none ⟨st.policy, h⟩

/-- The runs of the chained LRU policy. -/
def LoveSystem : Transition LoveState (Option LoveCall) where
  init st := ∃ clock, st = { heap := { clock } }
  step := LoveStep

/-- A page is not unlinked from a chain other than its own. -/
def OwnLink (st : LoveState) : Option LoveCall → Prop
  | some (.hateLink (some p) link) => st.heap.link p = link ∨ st.heap.link p = -1
  | _ => True

/-- The call adds a page to the chain `id`, which is full, were its capacity `capacity`. -/
def Overfills (st : LoveState) (id capacity : ℤ) (call : Option LoveCall) : Prop :=
  ∃ p, call.bind LoveCall.adds? = some (p, id) ∧ st.heap.link p ≠ id ∧
    capacity ≤ (st.policy.chains id).size

/-- The chain `id` has at most `capacity` pages. -/
def AtMost (st : LoveState) (id capacity : ℤ) : Prop :=
  (id ∈ st.policy.linkTable → (st.policy.chains id).size ≤ capacity) ∧
    ∃ l : List PageRef, l.Nodup ∧ (∀ q, q ∈ l ↔ st.heap.link q = id) ∧ (l.length : ℤ) ≤ capacity

/-- The page is on no chain. -/
def Unlinked (st : LoveState) (q : PageRef) : Prop :=
  st.heap.link q = -1 ∧ ∀ d ∈ st.policy.linkTable, ∀ l,
    walk st.heap.next st.heap.disk.length (st.policy.chains d).head = .ok l → q ∉ l

/-- The other pages that leave a chain to which a page is added are on no chain. -/
def DisplacesUnlinked (st : LoveState) (call : Option LoveCall) (st' : LoveState) : Prop :=
  ∀ p id, call.bind LoveCall.adds? = some (p, id) → ∀ q, q ≠ p → st.heap.link q = id →
    st'.heap.link q ≠ id → Unlinked st' q

namespace Structured

variable {s s' s₁ : ChainedLeastRecentlyUsed} {h h' h₁ : Heap} {L L' : ℤ → List PageRef} {id : ℤ}
  {p : PageRef}

/-- The page `p` joins the chain `id`: it takes the place of a page that leaves it if the chain is
    full. -/
structure Joins (s : ChainedLeastRecentlyUsed) (h : Heap) (L : ℤ → List PageRef) (id : ℤ) (p : PageRef)
    (s' : ChainedLeastRecentlyUsed) (h' : Heap) (L' : ℤ → List PageRef) : Prop where
  mem_table : id ∈ s.linkTable
  structured : Structured s' h' L'
  sameTable : SameTable s s'
  disk_eq : h'.disk = h.disk
  link_self : h'.link p = id
  link_other : ∀ q, q ≠ p → h'.link q = h.link q ∨ h'.link q = -1
  length_of_mem : h.link p = id → (L' id).length = (L id).length
  length_of_full : h.link p ≠ id → (s.chains id).capacity ≤ (L id).length →
    (L' id).length = (L id).length
  length_of_room : h.link p ≠ id → ((L id).length : ℤ) < (s.chains id).capacity →
    (L' id).length = (L id).length + 1

theorem mem_of_chain {d : ℤ} (h : s.chain id = .ok d) : id ∈ s.linkTable ∧ id = d := by
  rw [ChainedLeastRecentlyUsed.chain] at h
  split_ifs at h with hid
  exact ⟨hid, Except.ok.inj h⟩

theorem chainAdd_joins (hs : Structured s h L) (hp : h.link p = id ∨ h.link p = -1) (hd : p ∈ h.disk)
    (heq : s.chainAdd h id p = .ok (h', s')) : ∃ L', Joins s h L id p s' h' L' := by
  rw [ChainedLeastRecentlyUsed.chainAdd] at heq
  obtain ⟨d, hchain, heq⟩ := bind_eq_ok heq
  obtain ⟨⟨h₁, c⟩, hadd, heq⟩ := bind_eq_ok heq
  obtain ⟨rfl, rfl⟩ := Prod.mk.inj (Except.ok.inj heq)
  obtain ⟨hid, rfl⟩ := mem_of_chain hchain
  rw [Chain.add, hs.id_eq id hid] at hadd
  have hsize := (hs.holds id hid).size
  split_ifs at hadd with hlink hfull
  · -- The page is on the chain already.
    obtain ⟨rfl, rfl⟩ := Prod.mk.inj (Except.ok.inj hadd)
    rw [ChainedLeastRecentlyUsed.setChain, Function.update_eq_self]
    exact ⟨L, hid, hs, ⟨rfl, rfl, fun _ => ⟨rfl, rfl⟩⟩, rfl, hlink, fun _ _ => .inl rfl, fun _ => rfl,
      fun hne => absurd hlink hne, fun hne => absurd hlink hne⟩
  · -- A page is evicted first.
    obtain ⟨⟨v, h₂, c₂⟩, hevict, hpush⟩ := bind_eq_ok hadd
    obtain ⟨hv, h₃, c₃, hevict', hs₂, hlink₂, hdisk, -, hfixed, -⟩ := hs.evict hid
      (Chain.victim_of_evict (hs.holds id hid) hs.length_le hevict)
    obtain ⟨-, hrest⟩ := Prod.mk.inj (Except.ok.inj (hevict.symm.trans hevict'))
    obtain ⟨rfl, rfl⟩ := Prod.mk.inj hrest
    have hp₂ : h₂.link p = -1 := by
      rw [hlink₂, Function.update_apply]
      split_ifs
      · rfl
      · exact hp.resolve_left hlink
    have hid₂ : id ∈ (s.setChain id c₂).linkTable := hid
    obtain ⟨hs₃, hr⟩ := hs₂.push hid₂ hp₂ (hdisk ▸ hd)
    rw [s.setChain_self] at hs₃ hr
    rw [Function.update_self] at hs₃
    obtain rfl : (c₂.push h₂ p).1 = h₁ := congrArg Prod.fst (Except.ok.inj hpush)
    obtain rfl : (c₂.push h₂ p).2 = c := congrArg Prod.snd (Except.ok.inj hpush)
    -- The chain is written twice, and the second time counts.
    have hset : (s.setChain id c₂).setChain id (c₂.push h₂ p).2 = s.setChain id (c₂.push h₂ p).2 := by
      rw [ChainedLeastRecentlyUsed.setChain, ChainedLeastRecentlyUsed.setChain,
        ChainedLeastRecentlyUsed.setChain, Function.update_idem]
    rw [hset] at hs₃ hr
    have hpos := List.length_pos_of_mem hv
    have hlen : (p :: (L id).erase v).length = (L id).length := by
      rw [List.length_cons, List.length_erase_of_mem hv]
      omega
    refine ⟨_, hid, hs₃, ?_, hr.disk_eq.trans hdisk, (hr.link_eq p).trans (Function.update_self ..),
      fun q hq => ?_, fun heq' => absurd heq' hlink, fun _ _ => ?_, fun _ hlt => ?_⟩
    · have hc : (c₂.push h₂ p).2.fixed = c₂.fixed := by
        rw [Chain.push_chain]
        rfl
      exact .setChain (congrArg (·.1) (hc.trans hfixed)) (congrArg (·.2.1) (hc.trans hfixed))
    · rw [hr.link_eq, Function.update_of_ne hq, hlink₂, Function.update_apply]
      split_ifs
      · exact .inr rfl
      · exact .inl rfl
    · rw [Function.update_self, hlen]
    · exact absurd (hsize ▸ hfull) (not_le.2 hlt)
  · -- The chain has room for the page.
    obtain ⟨hs₂, hr⟩ := hs.push hid (hp.resolve_left hlink) hd
    obtain rfl : ((s.chains id).push h p).1 = h₁ := congrArg Prod.fst (Except.ok.inj hadd)
    obtain rfl : ((s.chains id).push h p).2 = c := congrArg Prod.snd (Except.ok.inj hadd)
    refine ⟨_, hid, hs₂, hr.sameTable, hr.disk_eq, (hr.link_eq p).trans (Function.update_self ..),
      fun q hq => .inl ((hr.link_eq q).trans (Function.update_of_ne hq ..)), fun heq' => absurd heq' hlink,
      fun _ hle => absurd (hsize.symm ▸ hle) hfull, fun _ _ => ?_⟩
    rw [Function.update_self, List.length_cons]

/-- The page leaves its chain first. -/
theorem Joins.of_leave {L₁ : ℤ → List PageRef} (hs : Structured s h L) (hs₁ : Structured s₁ h₁ L₁)
    (hr : Relinks s h s₁ h₁ h₁.link) (hother : ∀ q, q ≠ p → h₁.link q = h.link q)
    (hself : h.link p = id → h₁.link p = id) (hself' : h₁.link p = h.link p ∨ h₁.link p = -1)
    (hj : Joins s₁ h₁ L₁ id p s' h' L') : Joins s h L id p s' h' L' := by
  have hne := hs₁.ne_of_mem_table hj.mem_table
  have hiff : h₁.link p = id ↔ h.link p = id :=
    ⟨fun h' => hself'.elim (fun hp => hp ▸ h') fun hp => absurd (h'.symm.trans hp) hne, hself⟩
  have hmem : ∀ q, q ∈ L₁ id ↔ q ∈ L id := fun q => by
    rw [hs₁.mem_iff, hs.mem_iff]
    rcases eq_or_ne q p with rfl | hq
    · rw [hiff]
    · rw [hother q hq]
  have hlen : (L₁ id).length = (L id).length :=
    ((List.perm_ext_iff_of_nodup (hs₁.members.nodup id) (hs.members.nodup id)).2 hmem).length_eq
  have hcap : (s₁.chains id).capacity = (s.chains id).capacity := (hr.sameTable.limits_eq id).1
  refine ⟨hr.table_eq ▸ hj.mem_table, hj.structured, hr.sameTable.trans hj.sameTable,
    hj.disk_eq.trans hr.disk_eq, hj.link_self, fun q hq => hother q hq ▸ hj.link_other q hq,
    fun hp => (hj.length_of_mem (hiff.2 hp)).trans hlen, fun hp hfull => ?_, fun hp hroom => ?_⟩
  · rw [hj.length_of_full (fun hp' => hp (hiff.1 hp')) (by rw [hcap, hlen]; exact hfull), hlen]
  · rw [hj.length_of_room (fun hp' => hp (hiff.1 hp')) (by rw [hcap, hlen]; exact hroom), hlen]

theorem love_joins (hs : Structured s h L) (hd : p ∈ h.disk) (heq : s.love h (some p) id = .ok (h', s')) :
    ∃ L', Joins s h L id p s' h' L' := by
  obtain ⟨h₁, s₁, L₁, heq₁, hs₁, hr, hp, hother, hself, hself'⟩ := hs.leave_spec p id
  simp only [ChainedLeastRecentlyUsed.love, deref_some, ok_bind, heq₁] at heq
  obtain ⟨L', hj⟩ := hs₁.chainAdd_joins hp (hr.disk_eq ▸ hd) heq
  exact ⟨L', hj.of_leave hs hs₁ hr hother hself hself'⟩

theorem chainAnchor_joins (hs : Structured s h L) (hp : h.link p = id ∨ h.link p = -1) (hd : p ∈ h.disk)
    (heq : s.chainAnchor h id p = .ok (h', s')) : ∃ L', Joins s h L id p s' h' L' := by
  obtain ⟨h₁, s₁, hadd⟩ : ∃ h₁ s₁, s.chainAdd h id p = .ok (h₁, s₁) := by
    rw [ChainedLeastRecentlyUsed.chainAnchor] at heq
    obtain ⟨d, hchain, heq⟩ := bind_eq_ok heq
    obtain ⟨r, hanchor, -⟩ := bind_eq_ok heq
    obtain ⟨⟨h₁, c⟩, hadd, -⟩ := bind_eq_ok hanchor
    obtain ⟨-, rfl⟩ := mem_of_chain hchain
    refine ⟨h₁, s.setChain id c, ?_⟩
    rw [ChainedLeastRecentlyUsed.chainAdd, hchain]
    simp only [ok_bind, hadd, pure_eq_ok]
  rw [chainAnchor_eq hadd] at heq
  obtain ⟨rfl, rfl⟩ := Prod.mk.inj (Except.ok.inj heq)
  obtain ⟨L', hj⟩ := hs.chainAdd_joins hp hd hadd
  have hpl : p ∈ L' id := hj.structured.mem_iff.2 ⟨hj.link_self, hs.ne_of_mem_table hj.mem_table⟩
  obtain ⟨hs', hr⟩ := hj.structured.anchor hpl
  exact ⟨L', { hj with structured := hs', sameTable := hj.sameTable.trans hr.sameTable }⟩

theorem lovePin_joins (hs : Structured s h L) (hd : p ∈ h.disk) {pin : Bool}
    (heq : s.lovePin h (some p) id pin = .ok (h', s')) : ∃ L', Joins s h L id p s' h' L' := by
  obtain ⟨h₁, s₁, L₁, heq₁, hs₁, hr, hp, hother, hself, hself'⟩ := hs.leave_spec p id
  simp only [ChainedLeastRecentlyUsed.lovePin, deref_some, ok_bind, heq₁] at heq
  obtain ⟨L', hj⟩ : ∃ L', Joins s₁ h₁ L₁ id p s' h' L' := by
    split_ifs at heq
    · exact hs₁.chainAnchor_joins hp (hr.disk_eq ▸ hd) heq
    · exact hs₁.love_joins (hr.disk_eq ▸ hd) heq
  exact ⟨L', hj.of_leave hs hs₁ hr hother hself hself'⟩

end Structured

/-! ## The calls -/

/-- What a step does: a page joins a chain, or pages only leave their chains. -/
structure Effect (st : LoveState) (L : ℤ → List PageRef) (call : Option LoveCall) (st' : LoveState)
    (L' : ℤ → List PageRef) : Prop where
  structured : Structured st'.policy st'.heap L'
  linkId_le : st.policy.linkId ≤ st'.policy.linkId
  capacity_eq : ∀ d < st.policy.linkId,
    (st'.policy.chains d).capacity = (st.policy.chains d).capacity
  joins : ∀ p id, call.bind LoveCall.adds? = some (p, id) →
    Structured.Joins st.policy st.heap L id p st'.policy st'.heap L'
  leaves : call.bind LoveCall.adds? = none →
    ∀ q, st'.heap.link q = st.heap.link q ∨ st'.heap.link q = -1

namespace Effect

variable {st st' : LoveState} {L L' : ℤ → List PageRef} {call : LoveCall} {o : Option LoveCall}
  {id capacity k : ℤ}

theorem of_joins {p : PageRef} (hadds : call.adds? = some (p, id))
    (hj : Structured.Joins st.policy st.heap L id p st'.policy st'.heap L') :
    Effect st L (some call) st' L' where
  structured := hj.structured
  linkId_le := hj.sameTable.linkId_eq.ge
  capacity_eq d _ := (hj.sameTable.limits_eq d).1
  joins q d hq := by
    obtain ⟨rfl, rfl⟩ := Prod.mk.inj (Option.some.inj (hadds.symm.trans hq))
    exact hj
  leaves hq := by
    rw [Option.bind_some, hadds] at hq
    cases hq

theorem of_sameTable (hadds : call.adds? = none) (hs' : Structured st'.policy st'.heap L')
    (hsame : SameTable st.policy st'.policy)
    (hlink : ∀ q, st'.heap.link q = st.heap.link q ∨ st'.heap.link q = -1) :
    Effect st L (some call) st' L' where
  structured := hs'
  linkId_le := hsame.linkId_eq.ge
  capacity_eq d _ := (hsame.limits_eq d).1
  joins p d hp := by
    rw [Option.bind_some, hadds] at hp
    cases hp
  leaves _ := hlink

/-- A chain is created. -/
theorem of_addChain (hs : Structured st.policy st.heap L) (hadds : call.adds? = none) (capacity : ℤ)
    (anchored : Bool) :
    Effect st L (some call) ⟨(st.policy.addChain (.make st.policy.linkId capacity anchored)).2, st.heap⟩
      L where
  structured := hs.addChain_spec capacity anchored
  linkId_le := (Int.lt_succ _).le
  capacity_eq d hd := congrArg Chain.capacity (st.policy.setChain_of_ne hd.ne _)
  joins p d hp := by
    rw [Option.bind_some, hadds] at hp
    cases hp
  leaves _ _ := .inl rfl

end Effect

theorem LoveStep.effect {st st' : LoveState} {L : ℤ → List PageRef} {o : Option LoveCall}
    (hst : LoveStep st o st') (hs : Structured st.policy st.heap L) (hown : OwnLink st o) :
    ∃ L', Effect st L o st' L' := by
  cases hst with
  | other hlink hnext hprev hdisk =>
    exact ⟨L, hs.congr hlink hnext hprev hdisk, le_rfl, fun _ _ => rfl,
      fun _ _ h => absurd h.symm (Option.some_ne_none _),
      fun _ q => .inl (hlink q)⟩
  | @call call h s hpage heq =>
    cases call with
    | newChain =>
      cases heq
      exact ⟨L, .of_addChain hs rfl _ _⟩
    | newAnchoredChain anchored =>
      cases heq
      exact ⟨L, .of_addChain hs rfl _ _⟩
    | newBoundedChain capacity =>
      cases heq
      exact ⟨L, .of_addChain hs rfl _ _⟩
    | newBoundedAnchoredChain capacity anchored =>
      cases heq
      exact ⟨L, .of_addChain hs rfl _ _⟩
    | love page link =>
      obtain ⟨p, hp, -⟩ := bind_eq_ok heq
      obtain rfl : page = some p := by
        cases page <;> cases hp
        rfl
      obtain ⟨L', hj⟩ := hs.love_joins (hpage p rfl) heq
      exact ⟨L', .of_joins rfl hj⟩
    | lovePin page link pin =>
      obtain ⟨p, hp, -⟩ := bind_eq_ok heq
      obtain rfl : page = some p := by
        cases page <;> cases hp
        rfl
      obtain ⟨L', hj⟩ := hs.lovePin_joins (hpage p rfl) heq
      exact ⟨L', .of_joins rfl hj⟩
    | hate page =>
      obtain ⟨p, hp, -⟩ := bind_eq_ok heq
      obtain rfl : page = some p := by
        cases page <;> cases hp
        rfl
      obtain ⟨h', s', L', heq', hs', hr⟩ := hs.hate_spec p
      obtain ⟨rfl, rfl⟩ := Prod.mk.inj (Except.ok.inj (heq.symm.trans heq'))
      refine ⟨L', .of_sameTable rfl hs' hr.sameTable fun q => ?_⟩
      rw [hr.link_eq]
      split_ifs
      · exact .inr rfl
      · exact .inl rfl
    | hateLink page link =>
      obtain ⟨d, hchain, hrest⟩ := bind_eq_ok heq
      obtain ⟨hid, rfl⟩ := Structured.mem_of_chain hchain
      cases page with
      | none =>
        -- Nothing is unlinked.
        cases hrest
        refine ⟨L, .of_sameTable rfl ?_ (.setChain rfl rfl) fun _ => .inl rfl⟩
        rwa [ChainedLeastRecentlyUsed.setChain, Function.update_eq_self]
      | some p =>
        obtain ⟨h', s', L', heq', hs', hr⟩ := hs.hateLink_spec hid hown
        obtain ⟨rfl, rfl⟩ := Prod.mk.inj (Except.ok.inj (heq.symm.trans heq'))
        refine ⟨L', .of_sameTable rfl hs' hr.sameTable fun q => ?_⟩
        rw [hr.link_eq, Function.update_apply]
        split_ifs
        · exact .inr rfl
        · exact .inl rfl
    | hateChain link =>
      obtain ⟨r, hunchain, -⟩ := bind_eq_ok heq
      obtain ⟨d, hchain, -⟩ := bind_eq_ok hunchain
      obtain ⟨hid, rfl⟩ := Structured.mem_of_chain hchain
      obtain ⟨h', s', L', heq', hs', hr⟩ := hs.hateChain_spec hid
      obtain ⟨rfl, rfl⟩ := Prod.mk.inj (Except.ok.inj (heq.symm.trans heq'))
      refine ⟨L', hs', hr.linkId_eq.ge, fun d _ => (hr.sameTable.limits_eq d).1,
        fun _ _ h => absurd h.symm (Option.some_ne_none _), fun _ q => ?_⟩
      change h.link q = _ ∨ h.link q = _
      rw [hr.link_eq]
      split_ifs
      · exact .inr rfl
      · exact .inl rfl
    | findPageToEvict pages =>
      obtain ⟨⟨pg, h', s'⟩, hfind, hrest⟩ := map_eq_ok heq
      obtain ⟨rfl, rfl⟩ := Prod.mk.inj hrest
      obtain ⟨L', hs', hsame, -, -, hlink, -⟩ := hs.find_ok hfind
      refine ⟨L', .of_sameTable rfl hs' hsame fun q => ?_⟩
      rw [hlink]
      split_ifs
      · exact .inr rfl
      · exact .inl rfl

/-! ## The sizes of the chains -/

theorem Structured.atMost_iff {st : LoveState} {L : ℤ → List PageRef} {id capacity : ℤ}
    (hs : Structured st.policy st.heap L) (hid : 0 ≤ id) :
    AtMost st id capacity ↔ ((L id).length : ℤ) ≤ capacity := by
  have hmem : ∀ q, q ∈ L id ↔ st.heap.link q = id := fun q => by
    rw [hs.mem_iff, and_iff_left (by omega)]
  constructor
  · rintro ⟨-, l, hnd, hl, hle⟩
    rwa [← ((List.perm_ext_iff_of_nodup hnd (hs.members.nodup id)).2 fun q =>
      (hl q).trans (hmem q).symm).length_eq]
  · exact fun hle => ⟨fun hid => (hs.holds id hid).size ▸ hle, L id, hs.members.nodup id, hmem, hle⟩

theorem Structured.overfills_iff {st : LoveState} {L : ℤ → List PageRef} {id capacity : ℤ} {p : PageRef}
    {o : Option LoveCall} (hs : Structured st.policy st.heap L) (hid : id ∈ st.policy.linkTable)
    (ho : o.bind LoveCall.adds? = some (p, id)) :
    Overfills st id capacity o ↔ st.heap.link p ≠ id ∧ capacity ≤ ((L id).length : ℤ) := by
  rw [← (hs.holds id hid).size]
  constructor
  · rintro ⟨q, hq, hlink, hfull⟩
    obtain ⟨rfl, -⟩ := Prod.mk.inj (Option.some.inj (ho.symm.trans hq))
    exact ⟨hlink, hfull⟩
  · exact fun h => ⟨p, ho, h⟩

namespace Effect

variable {st st' : LoveState} {L L' : ℤ → List PageRef} {o : Option LoveCall} {id capacity : ℤ}

/-- A chain to which the call adds no page loses pages at most. -/
theorem length_le (he : Effect st L o st' L') (hs : Structured st.policy st.heap L)
    (ho : ∀ p, o.bind LoveCall.adds? ≠ some (p, id)) : (L' id).length ≤ (L id).length := by
  refine ((he.structured.members.nodup id).subperm fun q hq => ?_).length_le
  obtain ⟨hlink, hne⟩ := he.structured.mem_iff.1 hq
  have hold : st'.heap.link q = st.heap.link q ∨ st'.heap.link q = -1 := by
    cases hadds : o.bind LoveCall.adds? with
    | none => exact he.leaves hadds q
    | some r =>
      obtain ⟨p, d⟩ := r
      have hj := he.joins p d hadds
      refine hj.link_other q fun hqp => ho p ?_
      rw [hadds, ← hlink, hqp, hj.link_self]
  exact hs.mem_iff.2 ⟨(hold.resolve_right fun h => hne (hlink.symm.trans h)) ▸ hlink, hne⟩

/-- A chain stays within `capacity` if it grows to it at most. -/
theorem length_le_of_room (he : Effect st L o st' L') (hs : Structured st.policy st.heap L)
    (hle : ((L id).length : ℤ) ≤ capacity)
    (hroom : ∀ p, o.bind LoveCall.adds? = some (p, id) → id ∈ st.policy.linkTable →
      st.heap.link p ≠ id →
      ((L id).length : ℤ) < (st.policy.chains id).capacity → ((L id).length : ℤ) < capacity) :
    ((L' id).length : ℤ) ≤ capacity := by
  by_cases ho : ∃ p, o.bind LoveCall.adds? = some (p, id)
  · obtain ⟨p, ho⟩ := ho
    have hj := he.joins p id ho
    by_cases hp : st.heap.link p = id
    · exact (hj.length_of_mem hp).symm ▸ hle
    · rcases lt_or_ge ((L id).length : ℤ) (st.policy.chains id).capacity with hlt | hfull
      · have := hroom p ho hj.mem_table hp hlt
        rw [hj.length_of_room hp hlt]
        push_cast
        omega
      · exact (hj.length_of_full hp hfull).symm ▸ hle
  · have := he.length_le hs (not_exists.1 ho)
    omega

/-- A chain that evicts when it is full stays within its capacity. -/
theorem length_le_capacity (he : Effect st L o st' L') (hs : Structured st.policy st.heap L)
    (hle : ((L id).length : ℤ) ≤ (st.policy.chains id).capacity) :
    ((L' id).length : ℤ) ≤ (st.policy.chains id).capacity :=
  he.length_le_of_room hs hle fun _ _ _ _ hlt => hlt

/-- A chain that is not overfilled stays within `capacity`. -/
theorem length_le_of_not_overfills (he : Effect st L o st' L') (hs : Structured st.policy st.heap L)
    (hle : ((L id).length : ℤ) ≤ capacity) (hover : ¬Overfills st id capacity o) :
    ((L' id).length : ℤ) ≤ capacity :=
  he.length_le_of_room hs hle fun p ho htab hp _ => by
    rw [hs.overfills_iff htab ho, not_and, not_le] at hover
    exact hover hp

/-- A chain whose own capacity is greater does not stay within `capacity` if it is overfilled. -/
theorem lt_length_of_overfills (he : Effect st L o st' L') (hs : Structured st.policy st.heap L)
    (hcap : capacity < (st.policy.chains id).capacity) (hle : ((L id).length : ℤ) ≤ capacity)
    (hover : Overfills st id capacity o) : capacity < (L' id).length := by
  have ⟨p, ho, hp, _⟩ := hover
  have hj := he.joins p id ho
  have hfull := ((hs.overfills_iff hj.mem_table ho).1 hover).2
  rw [hj.length_of_room hp (hle.trans_lt hcap)]
  push_cast
  omega

theorem displacesUnlinked (he : Effect st L o st' L') : DisplacesUnlinked st o st' := by
  intro p id ho q hqp hq hq'
  have hlink : st'.heap.link q = -1 := ((he.joins p id ho).link_other q hqp).resolve_left
    fun h => hq' (h.trans hq)
  refine ⟨hlink, fun d hd l hl hql => ?_⟩
  have hs' := he.structured
  obtain rfl : L' d = l := Except.ok.inj (((hs'.holds d hd).list.walk_eq hs'.length_le).symm.trans hl)
  exact (hs'.mem_iff.1 hql).2 ((hs'.link_of_mem hql).symm.trans hlink)

end Effect

/-- The chain `id` has been created, with the capacity `k`. -/
structure Created (id k : ℤ) (st : LoveState) : Prop where
  structured : ∃ L, Structured st.policy st.heap L
  range : 0 ≤ id ∧ id < st.policy.linkId
  capacity_eq : (st.policy.chains id).capacity = k

theorem Created.step {st st' : LoveState} {o : Option LoveCall} {id k : ℤ} (h : Created id k st)
    (hown : OwnLink st o) (hst : LoveStep st o st') : Created id k st' := by
  obtain ⟨L, hs⟩ := h.structured
  obtain ⟨L', he⟩ := hst.effect hs hown
  exact ⟨⟨L', he.structured⟩, ⟨h.range.1, h.range.2.trans_le he.linkId_le⟩,
    (he.capacity_eq id h.range.2).trans h.capacity_eq⟩

theorem reachable_structured {st : LoveState} (hs : LoveSystem.ReachableBy OwnLink st) :
    ∃ L, Structured st.policy st.heap L := by
  refine hs.invariant (I := fun st => ∃ L, Structured st.policy st.heap L) ?_ ?_
  · rintro _ ⟨clock, rfl⟩
    exact ⟨_, .make clock⟩
  · rintro st o st' ⟨L, hs⟩ hown hst
    obtain ⟨L', he⟩ := hst.effect hs hown
    exact ⟨L', he.structured⟩

/-- The chains of the table are well-formed in every run. -/
theorem chain_sound {st : LoveState} (hs : LoveSystem.ReachableBy OwnLink st) {id : ℤ}
    (hid : id ∈ st.policy.linkTable) : ∃ l, (st.policy.chains id).Sound st.heap l := by
  obtain ⟨L, hs⟩ := reachable_structured hs
  exact ⟨L id, hs.sound hid⟩

/-- A chain created with a capacity and a flag, and no page yet. -/
theorem created_bounded {st st₁ : LoveState} {capacity k : ℤ} {anchored : Bool} {call : LoveCall}
    (hs : ∃ L, Structured st.policy st.heap L)
    (hexec : call.exec st = .ok (st.heap, (st.policy.addChain (.make st.policy.linkId k anchored)).2))
    (hst : LoveStep st (some call) st₁) (hcapacity : 1 ≤ capacity) :
    Created st.policy.linkId k st₁ ∧ AtMost st₁ st.policy.linkId capacity := by
  cases hst with
  | call hpage heq =>
  rw [hexec] at heq
  obtain ⟨rfl, rfl⟩ := Prod.mk.inj (Except.ok.inj heq)
  obtain ⟨L, hs⟩ := hs
  have hs₁ := hs.addChain_spec k anchored
  have h0 := hs.linkId_nonneg
  refine ⟨⟨⟨L, hs₁⟩, ⟨h0, Int.lt_succ _⟩, ?_⟩, (hs₁.atMost_iff h0).2 ?_⟩
  · exact congrArg Chain.capacity (st.policy.setChain_self ..)
  · have hnil : L st.policy.linkId = [] := List.eq_nil_iff_forall_not_mem.2 fun q hq =>
      lt_irrefl _ (hs.range _ (hs.mem_table _ q hq)).2
    rw [hnil]
    simp only [List.length_nil]
    omega

/-- A chain created with a capacity and a flag stays within its capacity in every run, and one created with
    a capacity only does in the runs that do not overfill it. There, the capacity is exceeded by the
    first call that overfills it. The pages displaced from a chain are on no chain. -/
theorem chain_capacity {st st₁ : LoveState} {call : LoveCall} {capacity : ℤ}
    (hs : LoveSystem.ReachableBy OwnLink st) (hcapacity : 1 ≤ capacity)
    (hcall : call = .newBoundedChain capacity ∨ ∃ anchored, call = .newBoundedAnchoredChain capacity anchored)
    (hst : LoveStep st (some call) st₁) :
    (∀ calls st', LoveSystem.RunBy (fun st' o => OwnLink st' o ∧
      (call = .newBoundedChain capacity → ¬Overfills st' st.policy.linkId capacity o)) st₁ calls st' →
      AtMost st' st.policy.linkId capacity) ∧
    (∀ calls st' o st'', LoveSystem.RunBy OwnLink st₁ calls st' → OwnLink st' o → LoveStep st' o st'' →
      DisplacesUnlinked st' o st'') ∧
    (call = .newBoundedChain capacity → capacity < Chain.maxValue → ∀ calls st' o st'',
      LoveSystem.RunBy OwnLink st₁ calls st' → OwnLink st' o → LoveStep st' o st'' →
      AtMost st' st.policy.linkId capacity →
      (AtMost st'' st.policy.linkId capacity ↔ ¬Overfills st' st.policy.linkId capacity o)) := by
  have hstruct := reachable_structured hs
  -- The capacity of the chain is the one given, unless there is no flag.
  obtain ⟨k, hk, hcreated, hinit⟩ : ∃ k, (if call = .newBoundedChain capacity then k = Chain.maxValue
      else k = capacity) ∧ Created st.policy.linkId k st₁ ∧ AtMost st₁ st.policy.linkId capacity := by
    rcases hcall with rfl | ⟨anchored, rfl⟩
    · exact ⟨Chain.maxValue, by rw [if_pos rfl], created_bounded hstruct rfl hst hcapacity⟩
    · exact ⟨capacity, by rw [if_neg (by simp)], created_bounded hstruct rfl hst hcapacity⟩
  have hrun : ∀ {calls st'}, LoveSystem.RunBy OwnLink st₁ calls st' → Created st.policy.linkId k st' :=
    fun h => h.invariant (fun _ _ _ hc hown hst => hc.step hown hst) hcreated
  refine ⟨fun calls st' h => ?_, fun calls st' o st'' h hown hst' => ?_,
    fun hnew hlt calls st' o st'' h hown hst' hle => ?_⟩
  · refine (h.invariant (I := fun st' => Created st.policy.linkId k st' ∧
      AtMost st' st.policy.linkId capacity) ?_ ⟨hcreated, hinit⟩).2
    rintro st₂ o st₃ ⟨hc, hle⟩ ⟨hown, hover⟩ hst₂
    refine ⟨hc.step hown hst₂, ?_⟩
    obtain ⟨L, hs₂⟩ := hc.structured
    obtain ⟨L', he⟩ := hst₂.effect hs₂ hown
    rw [hs₂.atMost_iff hc.range.1] at hle
    rw [he.structured.atMost_iff hc.range.1]
    by_cases hnew : call = .newBoundedChain capacity
    · exact he.length_le_of_not_overfills hs₂ hle (hover hnew)
    · rw [if_neg hnew] at hk
      have hcap := hc.capacity_eq.trans hk
      exact hcap ▸ he.length_le_capacity hs₂ (hcap.symm ▸ hle)
  · obtain ⟨L, hs'⟩ := (hrun h).structured
    obtain ⟨L', he⟩ := hst'.effect hs' hown
    exact he.displacesUnlinked
  · have hc := hrun h
    obtain ⟨L, hs'⟩ := hc.structured
    obtain ⟨L', he⟩ := hst'.effect hs' hown
    rw [if_pos hnew] at hk
    rw [hs'.atMost_iff hc.range.1] at hle
    rw [he.structured.atMost_iff hc.range.1]
    refine ⟨fun hle' hover => ?_, he.length_le_of_not_overfills hs' hle⟩
    exact absurd hle' (not_le.2 (he.lt_length_of_overfills hs' (hc.capacity_eq.trans hk ▸ hlt) hle hover))

/-- A policy with no chain, and two pages. -/
def twoPages : LoveState where
  heap := { disk := [1, 2] }

theorem reachable_twoPages : LoveSystem.ReachableBy OwnLink twoPages :=
  .step (i := none) (.init ⟨{}, rfl⟩) trivial (.other (fun _ => rfl) (fun _ => rfl) (fun _ => rfl)
    fun _ hq => absurd hq List.not_mem_nil)

/-- A page of a chain of capacity 1 is displaced by another. -/
theorem chain_capacity_one : ∃ st₁ st', LoveStep twoPages (some (.newBoundedAnchoredChain 1 false)) st₁ ∧
    LoveSystem.RunBy OwnLink st₁ [some (.love (some 1) 0), some (.love (some 2) 0)] st' ∧
    st'.heap.link 2 = 0 ∧ AtMost st' 0 1 := by
  have hst : LoveStep twoPages (some (.newBoundedAnchoredChain 1 false)) _ := .call (fun _ h => nomatch h) rfl
  have hrun : LoveSystem.RunBy OwnLink
      ⟨(twoPages.policy.newBoundedAnchoredChain 1 false).2, twoPages.heap⟩
      [some (.love (some 1) 0), some (.love (some 2) 0)] _ :=
    .cons trivial (.call (by decide) rfl) (.cons trivial (.call (by decide) rfl) .nil)
  refine ⟨_, _, hst, hrun, by decide, ?_⟩
  exact (chain_capacity reachable_twoPages le_rfl (.inr ⟨false, rfl⟩) hst).1 _ _
    (hrun.mono fun _ _ h => ⟨h, fun h => nomatch h⟩)

/-- A chain created with the capacity 1 has two pages. -/
theorem chain_exceeds : ∃ (st st₁ st' : LoveState) (calls : List (Option LoveCall)),
    LoveSystem.ReachableBy OwnLink st ∧ LoveStep st (some (.newBoundedChain 1)) st₁ ∧
      LoveSystem.RunBy OwnLink st₁ calls st' ∧ ¬AtMost st' st.policy.linkId 1 := by
  refine ⟨twoPages, _, _, [some (.love (some 1) 0), some (.love (some 2) 0)], reachable_twoPages,
    .call (fun _ h => nomatch h) rfl, .cons trivial (.call (by decide) rfl)
      (.cons trivial (.call (by decide) rfl) .nil), fun h => ?_⟩
  exact absurd (h.1 (by decide)) (by decide)

end Mcpq.Simulator
