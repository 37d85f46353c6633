import Mcpq.Hierarchical.Run
import Mcpq.Hierarchical.ChainSpec

/-!
# The statistics of the manager

The method `summary` sums the counters of the pages of the swap space. No method of the manager counts an
eviction on a page (`Heap.NoneEvicted`), and a page that is not in the swap space is not counted: the
totals are those of the run (`Tally`) if and only if it has no access (`summary_iff`).
-/

namespace Mcpq.Hierarchical

namespace Heap

variable {h : Heap} {r : PageRef} {f : Page → Page}

/-- No eviction has been counted. -/
def NoneEvicted (h : Heap) : Prop := ∀ q, (h.page q).evicted = 0

/-- A write of fields other than the counter of evictions. -/
theorem NoneEvicted.modify (hh : h.NoneEvicted) (hf : ∀ p, (f p).evicted = p.evicted) :
    (h.modify r f).NoneEvicted := fun q => by
  rw [modify_page]
  split_ifs
  · rw [hf, hh]
  · exact hh q

/-- The clock counts no eviction. -/
theorem NoneEvicted.tick (hh : h.NoneEvicted) : h.tick.NoneEvicted := hh

/-- A new page has not been evicted. -/
theorem NoneEvicted.newPage (hh : h.NoneEvicted) (a : ℤ) : (h.newPage a).1.NoneEvicted := fun q => by
  change (Function.update h.page h.fresh { address := a } q).evicted = 0
  rw [Function.update_apply]
  split_ifs
  · rfl
  · exact hh q

/-- The links of the pages do not matter. -/
theorem NoneEvicted.congr {h' : Heap} (hh : h.NoneEvicted)
    (heq : ∀ q, (h'.page q).detach = (h.page q).detach) : h'.NoneEvicted := fun q =>
  (congrArg Page.evicted (heq q) :).trans (hh q)

end Heap

/-! ## The methods of the chains -/

namespace MemoryChain

variable {c : MemoryChain} {h : Heap}

/-- `unlink` only sets links. -/
theorem unlink_noneEvicted (hh : h.NoneEvicted) (p : Option PageRef) :
    (c.unlink h p).1.NoneEvicted := by
  cases p with
  | none => exact hh
  | some p =>
    rw [unlink]
    split_ifs with hr
    · exact hh
    · have hb : (c.bypass h p).1.NoneEvicted := hh.congr (bypass_detach c h p)
      exact (hb.modify fun _ => by rfl : (reset (c.bypass h p).1 p).NoneEvicted)

/-- `link` only sets links and the chain of the page. -/
theorem push_noneEvicted (hh : h.NoneEvicted) (p : PageRef) : (c.push h p).1.NoneEvicted := by
  have hset : ∀ {h' : Heap} {id : ℤ}, h'.NoneEvicted → (h'.setResides p id).NoneEvicted :=
    fun {h' id} hh' => (hh'.modify fun _ => by rfl :
      (h'.modify p ({ · with resides := id, linkedAt := h'.links })).NoneEvicted)
  rw [push]
  cases c.head with
  | none => exact hset hh
  | some head => exact hset ((hh.modify fun _ => by rfl).modify fun _ => by rfl)

/-- Stamping the anchor counts no eviction. -/
theorem touchAnchor_noneEvicted (hh : h.NoneEvicted) : (c.touchAnchor h).NoneEvicted := by
  rw [touchAnchor]
  split
  · exact (hh.modify fun _ => by rfl).tick
  · exact hh

/-- The search of a policy counts no eviction. -/
theorem choose_noneEvicted (hh : h.NoneEvicted) :
    Ensures (c.choose h) fun r => r.2.NoneEvicted := by
  rw [choose]
  cases c.policy with
  | lru => exact (Ensures.any _).bind fun _ _ => .ok hh
  | mru => exact (Ensures.any _).bind fun _ _ => .ok hh
  | random =>
    have hnext : Ensures (h.nextInt c.size) fun r => r.2.NoneEvicted :=
      .ite (fun _ => .ok hh) fun _ => .error
    exact hnext.bind fun r hr => (Ensures.any _).bind fun _ _ => .ok hr
  | fifo => exact .ok hh

/-- The page that a chain evicts is unlinked, and not counted as evicted. -/
theorem evict_noneEvicted (hh : h.NoneEvicted) :
    Ensures (c.evict h) fun r => r.2.1.NoneEvicted := by
  refine (choose_noneEvicted hh).bind fun r hr => ?_
  have hun := unlink_noneEvicted (c := c) (touchAnchor_noneEvicted (c := c) hr) r.1
  rintro ⟨p, h', c'⟩ heq
  obtain ⟨q, -, heq⟩ := bind_eq_ok heq
  obtain ⟨-, hrest⟩ := Prod.mk.inj (Except.ok.inj heq)
  obtain ⟨rfl, -⟩ := Prod.mk.inj hrest
  exact (hun.modify fun _ => by rfl :
    ((c.unlink (c.touchAnchor r.2) r.1).1.modify q
      ({ · with timestamp := h.clock.current + 1 })).NoneEvicted)

/-- A bounded chain that evicts a page does not count it. -/
theorem link_noneEvicted (hh : h.NoneEvicted) (p : PageRef) :
    Ensures (c.link h p) fun r => r.2.1.NoneEvicted := by
  refine .ite (fun _ => .ok hh) fun _ => .ite (fun _ => ?_) fun _ => .ok (push_noneEvicted hh p)
  refine (evict_noneEvicted hh).bind fun r hr => .ok ?_
  exact push_noneEvicted (unlink_noneEvicted hr (some r.1)) p

/-- The pages of a chain that is broken are not evicted. -/
theorem unchainFrom_noneEvicted (hh : h.NoneEvicted) (n : ℕ) (p : Option PageRef) :
    Ensures (unchainFrom n h p) fun r => r.1.NoneEvicted := by
  induction n generalizing h p with
  | zero =>
    cases p with
    | none => exact .ok hh
    | some p => exact .error
  | succ n ih =>
    cases p with
    | none => exact .ok hh
    | some p => exact (ih (hh.modify fun _ => by rfl) _).bind fun r hr => .ok hr

end MemoryChain

/-! ## The methods of the manager -/

namespace HierarchicalMemoryManager

open MemoryChain

/-- From `s` to `s'`, no eviction is counted, and the page `v` goes to the swap space. -/
structure Swaps (s s' : HierarchicalMemoryManager) (v : Option PageRef) : Prop where
  noneEvicted : s.heap.NoneEvicted → s'.heap.NoneEvicted
  swap_eq : v = none → s'.swap = s.swap
  swap_some : ∀ p, v = some p → ∃ a, s'.swap = Function.update s.swap a (some p)

/-- No page goes to the swap space. -/
abbrev Quiet (s s' : HierarchicalMemoryManager) : Prop := Swaps s s' none

variable {s s₁ s₂ : HierarchicalMemoryManager} {v : Option PageRef} {id a : ℤ} {p : PageRef}
  {order : List ℤ}

/-- A step that leaves the swap as it is. -/
theorem Quiet.of_eq (h : s.heap.NoneEvicted → s₁.heap.NoneEvicted) (hs : s₁.swap = s.swap) :
    Quiet s s₁ := ⟨h, fun _ => hs, fun _ hv => nomatch hv⟩

/-- Nothing has changed. -/
theorem Quiet.refl (s : HierarchicalMemoryManager) : Quiet s s := .of_eq id rfl

/-- A page is swapped out, and then nothing is. -/
theorem Swaps.trans (h₁ : Swaps s s₁ v) (h₂ : Quiet s₁ s₂) : Swaps s s₂ v where
  noneEvicted h := h₂.noneEvicted (h₁.noneEvicted h)
  swap_eq hv := (h₂.swap_eq rfl).trans (h₁.swap_eq hv)
  swap_some p hv := by
    rw [h₂.swap_eq rfl]
    exact h₁.swap_some p hv

/-- Nothing is swapped out, and then maybe a page. -/
theorem Quiet.trans (h₁ : Quiet s s₁) (h₂ : Swaps s₁ s₂ v) : Swaps s s₂ v where
  noneEvicted h := h₂.noneEvicted (h₁.noneEvicted h)
  swap_eq hv := (h₂.swap_eq hv).trans (h₁.swap_eq rfl)
  swap_some p hv := by
    rw [← h₁.swap_eq rfl]
    exact h₂.swap_some p hv

/-- Taking a page off its chain counts no eviction. -/
theorem quiet_chainUnlink (s : HierarchicalMemoryManager) (id : ℤ) (p : Option PageRef) :
    Quiet s (s.chainUnlink id p) := .of_eq (fun h => unlink_noneEvicted h p) rfl

/-- Nor does the assignment of a page to a chain. -/
theorem quiet_assign (s : HierarchicalMemoryManager) (p : PageRef) (id : ℤ) :
    Quiet s (s.assign p id) := .of_eq (fun h => (h.modify fun _ => by rfl :
    (s.heap.modify p ({ · with assigned := id })).NoneEvicted)) rfl

/-- Nor does linking, also where the chain evicts a page. -/
theorem quiet_chainLink (s : HierarchicalMemoryManager) (id : ℤ) (p : PageRef) :
    Ensures (s.chainLink id p) fun r => Quiet s r.2 := by
  rintro ⟨e, s'⟩ heq
  obtain ⟨⟨e, h, c⟩, hlink, heq⟩ := bind_eq_ok heq
  obtain ⟨-, rfl⟩ := Prod.mk.inj (Except.ok.inj heq)
  exact .of_eq (fun hh => link_noneEvicted hh p _ hlink) rfl

/-- Nor does anchoring. -/
theorem quiet_chainAnchor (s : HierarchicalMemoryManager) (id : ℤ) (p : PageRef) :
    Ensures (s.chainAnchor id p) fun r => Quiet s r.2 := by
  rintro ⟨e, s'⟩ heq
  obtain ⟨⟨e, h, c⟩, hanchor, heq⟩ := bind_eq_ok heq
  obtain ⟨⟨e', h', c'⟩, hlink, hanchor⟩ := bind_eq_ok hanchor
  obtain ⟨-, rfl⟩ := Prod.mk.inj (Except.ok.inj heq)
  obtain ⟨-, hrest⟩ := Prod.mk.inj (Except.ok.inj hanchor)
  obtain ⟨rfl, -⟩ := Prod.mk.inj hrest
  exact .of_eq (fun hh => link_noneEvicted hh p _ hlink) rfl

/-- Nor does reading a timestamp. -/
theorem quiet_chainTimestamp (s : HierarchicalMemoryManager) (id : ℤ) :
    Ensures (s.chainTimestamp id) fun r => Quiet s r.2 :=
  (Ensures.any _).bind fun _ _ => .ok (.of_eq (fun h => h) rfl)

/-- Nor does the comparison of a chain with the best one. -/
theorem quiet_considerChain (s : HierarchicalMemoryManager) (best : Candidate) (id : ℤ) :
    Ensures (considerChain (s, best) id) fun r => Quiet s r.1 := by
  refine .ite (fun _ => (quiet_chainTimestamp s id).bind fun r hr => ?_) fun _ => .ok (.refl s)
  refine .ite (fun _ => (Ensures.any _).bind fun _ _ => ?_) fun _ => .ok hr
  exact (quiet_chainTimestamp r.2 id).bind fun r' hr' => .ok (hr.trans hr')

/-- The search for a victim swaps nothing out. -/
theorem quiet_selectVictim (s : HierarchicalMemoryManager) (order : List ℤ) :
    Ensures (s.selectVictim order) fun r => Quiet s r.1 := by
  refine .ite (fun _ => .ok (.refl s)) fun _ => .ite (fun _ => ?_) fun _ => ?_
  · exact (Ensures.any _).bind fun _ _ => .ok (.refl s)
  · refine (Ensures.any _).bind fun _ _ => fun r heq => ?_
    exact foldlM_invariant (I := fun b : HierarchicalMemoryManager × Candidate => Quiet s b.1)
      (fun id _ b b' hb hstep => hb.trans (quiet_considerChain b.1 b.2 id b' hstep)) (.refl s) heq

/-- A page that is stored has been loaded, not evicted. -/
theorem store_noneEvicted {h : Heap} (hh : h.NoneEvicted) (m : Memory) (p : Option PageRef) (f : ℤ) :
    Ensures (m.store h p f) fun r => r.2.NoneEvicted := by
  refine (Ensures.any _).bind fun _ _ => (Ensures.any _).bind fun _ _ => .ok ?_
  cases p with
  | none => exact hh
  | some p => exact (hh.modify fun _ => by rfl : (h.modify p ({ · with frame := f })).NoneEvicted)

/-- The page evicted goes to the swap space. -/
theorem swaps_evict (s : HierarchicalMemoryManager) (order : List ℤ) :
    Ensures (s.evict order) fun r => Swaps s r.1 (some r.2) := by
  refine (quiet_selectVictim s order).bind fun r hr => (Ensures.any _).bind fun chain _ =>
    (Ensures.any _).bind fun page _ => ?_
  have hq := hr.trans (quiet_chainUnlink r.1 chain r.2.page)
  rintro ⟨s', p⟩ heq
  obtain ⟨⟨memory, heap⟩, hstore, heq⟩ := bind_eq_ok heq
  obtain ⟨rfl, rfl⟩ := Prod.mk.inj (Except.ok.inj heq)
  refine ⟨fun h => store_noneEvicted (hq.noneEvicted h) _ _ _ _ hstore, fun hv => (nomatch hv),
    fun q hq' => ⟨(heap.page page).address, ?_⟩⟩
  rw [← hq', ← hr.swap_eq rfl]
  rfl

/-- The victim is swapped out, if a frame is needed. -/
theorem swaps_allocFrame (s : HierarchicalMemoryManager) (order : List ℤ) :
    Ensures (s.allocFrame order) fun r => Swaps s r.1 r.2.2 :=
  .ite (fun _ => (swaps_evict s order).bind fun _ hr => .ok hr) fun _ => .ok (Quiet.refl s)

/-- A page that is loaded stays in the swap map. -/
theorem quiet_load (s : HierarchicalMemoryManager) (a : ℤ) : Quiet s (s.load a).1 := by
  rw [load]
  split
  · exact .refl s
  · exact .of_eq (fun h => h.newPage a) rfl

/-- The page goes back to its chain. -/
theorem quiet_relink (s : HierarchicalMemoryManager) (p : PageRef) :
    Ensures (s.relink p) fun s' => Quiet s s' := by
  have hlink : ∀ id, Ensures (s.chainLink id p >>= fun r => pure r.2) fun s' => Quiet s s' :=
    fun id => (quiet_chainLink s id p).bind fun _ hr => .ok hr
  exact .ite (fun _ => (Ensures.any _).bind fun id _ => hlink id) fun _ => hlink _

/-- A page is loaded: the page evicted goes to the swap space. -/
theorem swaps_pageFault (s : HierarchicalMemoryManager) (order : List ℤ) (a : ℤ) :
    Ensures (s.pageFault order a) fun r => Swaps s r.1 r.2.2 := by
  refine (swaps_allocFrame s order).bind fun r hr => ?_
  have hload := hr.trans (quiet_load r.1 a)
  rintro ⟨s', p, v⟩ heq
  obtain ⟨⟨memory, heap⟩, hstore, heq⟩ := bind_eq_ok heq
  obtain ⟨s₂, hrelink, heq⟩ := bind_eq_ok heq
  obtain ⟨rfl, hrest⟩ := Prod.mk.inj (Except.ok.inj heq)
  obtain ⟨rfl, rfl⟩ := Prod.mk.inj hrest
  refine (hload.trans (.of_eq (fun h => ?_) ?_)).trans (quiet_relink _ _ _ hrelink)
  · refine store_noneEvicted ?_ _ _ _ _ hstore
    exact (((h.modify fun _ => by rfl).tick.modify fun _ => by rfl).tick :
      (((r.1.load a).1.heap.loadPage (r.1.load a).2).refPage (r.1.load a).2).NoneEvicted)
  · rfl

/-- The representative is no counter. -/
theorem quiet_represent (s : HierarchicalMemoryManager) (p : PageRef) :
    Ensures (s.represent p) fun s' => Quiet s s' :=
  .ite (fun _ => (Ensures.any _).bind fun _ _ => .ok (.of_eq (fun h => h) rfl)) fun _ =>
    .ok (.refl s)

/-- Whether an access evicts a page. -/
def evicts : Outcome ℤ → Bool
  | .fault (some _) => true
  | _ => false

/-- An access swaps out the page it evicts. -/
theorem swaps_access (s : HierarchicalMemoryManager) (order : List ℤ) (a : ℤ) :
    Ensures (s.access order a) fun r => ∃ v, Swaps s r.1 v ∧ (v.isSome = evicts r.2) := by
  refine .ite (fun _ => (swaps_pageFault s order a).bind fun r hr =>
    (quiet_represent r.1 r.2.1).bind fun s' hs' => .ok ⟨r.2.2, hr.trans hs', ?_⟩) fun _ => ?_
  · cases r.2.2 <;> rfl
  · refine (Ensures.any _).bind fun _ _ => (Ensures.any _).bind fun p _ => ?_
    have href : Quiet s { s with heap := s.heap.refPage p } := .of_eq (fun h =>
      ((h.modify fun _ => by rfl).tick : (s.heap.refPage p).NoneEvicted)) rfl
    exact (quiet_represent _ p).bind fun s' hs' => .ok ⟨none, href.trans hs', rfl⟩

/-- The page that a bounded chain evicts stays in memory. -/
theorem quiet_spill (s : HierarchicalMemoryManager) (e : Option PageRef) :
    Ensures (s.spill e) fun s' => Quiet s s' := by
  cases e with
  | none => exact .ok (.refl s)
  | some p =>
    exact (quiet_chainLink s _ p).bind fun r hr => .ok (hr.trans (quiet_assign r.2 p _))

/-- No page is counted as evicted by `link`. -/
theorem quiet_link (s : HierarchicalMemoryManager) (chain a : ℤ) :
    Ensures (s.link chain a) fun s' => Quiet s s' := by
  refine (Ensures.any _).bind fun p _ => ?_
  have hrest : ∀ s₁, Quiet s s₁ → Ensures ((s₁.assign p chain).chainLink chain p >>= fun r =>
      r.2.spill r.1) fun s' => Quiet s s' := fun s₁ h₁ =>
    (quiet_chainLink _ chain p).bind fun r hr => fun s' hs' =>
      ((h₁.trans (quiet_assign s₁ p chain)).trans hr).trans (quiet_spill r.2 r.1 s' hs')
  refine .ite (fun _ => hrest s (.refl s)) fun _ => .ite (fun _ => hrest _ (quiet_chainUnlink s _ _))
    fun _ => .ite (fun _ => ?_) fun _ => hrest s (.refl s)
  exact (Ensures.any _).bind fun id _ => hrest _ (quiet_chainUnlink s id _)

/-- Nor by `anchor`. -/
theorem quiet_anchor (s : HierarchicalMemoryManager) (chain a : ℤ) :
    Ensures (s.anchor chain a) fun s' => Quiet s s' := by
  refine (Ensures.any _).bind fun p _ => ?_
  have hrest : ∀ s₁, Quiet s s₁ → Ensures ((s₁.assign p chain).chainAnchor chain p >>= fun r =>
      r.2.spill r.1) fun s' => Quiet s s' := fun s₁ h₁ =>
    (quiet_chainAnchor _ chain p).bind fun r hr => fun s' hs' =>
      ((h₁.trans (quiet_assign s₁ p chain)).trans hr).trans (quiet_spill r.2 r.1 s' hs')
  refine .ite (fun _ => hrest _ (quiet_chainUnlink s _ _)) fun _ => .ite (fun _ => ?_) fun _ =>
    hrest s (.refl s)
  exact (Ensures.any _).bind fun id _ => hrest _ (quiet_chainUnlink s id _)

/-- Nor when it is hated. -/
theorem quiet_hatePage (s : HierarchicalMemoryManager) (p : Option PageRef) :
    Ensures (s.hatePage p) fun s' => Quiet s s' :=
  (Ensures.any _).bind fun q _ => (quiet_chainLink _ _ q).bind fun _ hr =>
    .ok ((quiet_assign s q _).trans hr)

/-- Nor by `unlink`. -/
theorem quiet_unlink (s : HierarchicalMemoryManager) (a : ℤ) :
    Ensures (s.unlink a) fun s' => Quiet s s' := by
  refine .ite (fun _ => (Ensures.any _).bind fun _ _ => (Ensures.any _).bind fun p _ =>
    (Ensures.any _).bind fun id _ => .ite (fun _ => ?_) fun _ => .ok (.refl s)) fun _ => .ok (.refl s)
  exact (quiet_chainLink _ _ p).bind fun _ hr =>
    .ok (((quiet_chainUnlink s id p).trans (quiet_assign _ p _)).trans hr)

/-- The pages of a broken chain stay in memory. -/
theorem quiet_breakMemoryChain (s : HierarchicalMemoryManager) (chain : ℤ) :
    Ensures (s.breakMemoryChain chain) fun s' => Quiet s s' := by
  intro s' heq
  obtain ⟨⟨pages, h, c⟩, hunchain, heq⟩ := bind_eq_ok heq
  have hset : Quiet s (s.setChain chain h c) := by
    refine .of_eq (fun hh => ?_) rfl
    rw [unchain] at hunchain
    split_ifs at hunchain
    obtain ⟨⟨h', pages'⟩, hfrom, hunchain⟩ := bind_eq_ok hunchain
    obtain ⟨-, hrest⟩ := Prod.mk.inj (Except.ok.inj hunchain)
    obtain ⟨rfl, -⟩ := Prod.mk.inj hrest
    exact unchainFrom_noneEvicted hh _ _ _ hfrom
  exact foldlM_invariant (I := Quiet s)
    (fun p _ b b' hb hstep => hb.trans (quiet_hatePage b p b' hstep)) hset heq

end HierarchicalMemoryManager

open HierarchicalMemoryManager

/-! ## Runs -/

/-- What has happened in a run. -/
@[ext] structure Tally where
  accesses : ℕ := 0
  faults : ℕ := 0
  evictions : ℕ := 0
  deriving DecidableEq, Repr

/-- Count the outcome of a call. -/
def Tally.record (t : Tally) : Option (Outcome ℤ) → Tally
  | none => t
  | some .hit => { t with accesses := t.accesses + 1 }
  | some (.fault none) => { t with accesses := t.accesses + 1, faults := t.faults + 1 }
  | some (.fault (some _)) => ⟨t.accesses + 1, t.faults + 1, t.evictions + 1⟩

/-- An outcome is an eviction or not. -/
theorem Tally.record_evictions (t : Tally) (o : Option (Outcome ℤ)) :
    (t.record o).evictions = t.evictions + if o.any evicts = true then 1 else 0 := by
  rcases o with _ | _ | _ | _ <;> rfl

/-- Without an access there is no outcome. -/
theorem Tally.record_accesses {t : Tally} {o : Option (Outcome ℤ)} (h : (t.record o).accesses = 0) :
    o = none ∧ t.accesses = 0 := by
  rcases o with _ | _ | _ | _
  · exact ⟨rfl, h⟩
  all_goals exact absurd h (Nat.succ_ne_zero _)

/-- The runs of a manager of capacity `n`, with their tallies. -/
def TalliedSystem (n : ℕ) : Transition (HierarchicalMemoryManager × Tally) Call where
  init x := ∃ clock draws, x = (.make n clock draws, {})
  step x call x' := (∀ chain, call.chain? = some chain → 3 ≤ chain ∧ chain < x.1.chainId) ∧
    ∃ order o, order.Perm x.1.usrChains ∧ call.exec order x.1 = .ok (x'.1, o) ∧
      x'.2 = x.2.record o

/-- Execute a call on a chain that exists, and count its outcome. -/
def tallyCall (x : HierarchicalMemoryManager × Tally) (call : Call) :
    Java (HierarchicalMemoryManager × Tally) :=
  if ∀ chain ∈ call.chain?, 3 ≤ chain ∧ chain < x.1.chainId then
    (call.exec x.1.usrChains x.1).map fun (s, o) => (s, x.2.record o)
  else .error .illegalArgument

/-- A call that has been executed is a step. -/
theorem step_of_tallyCall {n : ℕ} {x x' : HierarchicalMemoryManager × Tally} {call : Call}
    (h : tallyCall x call = .ok x') : (TalliedSystem n).step x call x' := by
  rw [tallyCall] at h
  split_ifs at h with hc
  obtain ⟨⟨s, o⟩, hexec, rfl⟩ := map_eq_ok h
  exact ⟨hc, x.1.usrChains, o, .refl _, hexec, rfl⟩

/-- An iteration of the loop of `summary`. -/
def HierarchicalMemoryManager.count (s : HierarchicalMemoryManager) (t : Tally) (p : PageRef) : Tally where
  accesses := t.accesses + (s.heap.page p).hit
  faults := t.faults + (s.heap.page p).miss
  evictions := t.evictions + (s.heap.page p).evicted

/-- The totals that `summary` computes, where the values of the map `swap` are iterated over. -/
def HierarchicalMemoryManager.summary (s : HierarchicalMemoryManager) (values : List PageRef) : Tally :=
  values.foldl s.count {}

/-- The values of the map `swap`, in some order. -/
def HierarchicalMemoryManager.SwapValues (s : HierarchicalMemoryManager) (values : List PageRef) :
    Prop :=
  ∃ keys : List ℤ, keys.Nodup ∧ (∀ a, a ∈ keys ↔ (s.swap a).isSome = true) ∧
    values = keys.filterMap s.swap

/-- What the runs keep: the pages have counted no eviction, and there is a page in the swap space only if
    one has been evicted. -/
structure Counted (x : HierarchicalMemoryManager × Tally) : Prop where
  noneEvicted : x.1.heap.NoneEvicted
  swap_eq_none : x.2.evictions = 0 → ∀ a, x.1.swap a = none
  finite : ∃ values, x.1.SwapValues values
  of_no_access : x.2.accesses = 0 → x.2.faults = 0 ∧ x.2.evictions = 0

/-- A call sends a page to the swap space if it evicts one. -/
theorem swaps_exec (s : HierarchicalMemoryManager) (order : List ℤ) (call : Call) :
    Ensures (call.exec order s) fun r => ∃ v, Swaps s r.1 v ∧ (v.isSome = r.2.any evicts) := by
  have hquiet : ∀ {x : Java HierarchicalMemoryManager}, Ensures x (Quiet s) →
      Ensures (x.map (·, (none : Option (Outcome ℤ))))
        fun r => ∃ v, Swaps s r.1 v ∧ (v.isSome = r.2.any evicts) := fun hx r heq => by
    obtain ⟨s', hs', rfl⟩ := map_eq_ok heq
    exact ⟨none, hx s' hs', rfl⟩
  have hadd : ∀ c, Quiet s (s.addChain c) := fun c => .of_eq (fun h => h) rfl
  cases call with
  | access a =>
    intro r heq
    obtain ⟨⟨s', o⟩, hs', rfl⟩ := map_eq_ok heq
    exact swaps_access s order a _ hs'
  | createMemoryChain policy => exact .ok ⟨none, hadd _, rfl⟩
  | createBoundedMemoryChain policy capacity => exact .ok ⟨none, hadd _, rfl⟩
  | createAnchoredMemoryChain policy capacity anchored => exact hquiet .error
  | link chain a => exact hquiet (quiet_link s chain a)
  | anchor chain a => exact hquiet (quiet_anchor s chain a)
  | unlink a => exact hquiet (quiet_unlink s a)
  | breakMemoryChain chain => exact hquiet (quiet_breakMemoryChain s chain)
  | releaseMemoryChain chain =>
    refine hquiet ((quiet_breakMemoryChain s chain).bind fun s' hs' => .ok ?_)
    exact hs'.trans (Quiet.of_eq (fun h => h) rfl)

namespace Counted

variable {n : ℕ} {s s' : HierarchicalMemoryManager} {t : Tally} {x x' : HierarchicalMemoryManager × Tally}

/-- A new manager has counted nothing. -/
theorem make (clock : LogicalClock) (draws : ℕ → ℕ) : Counted (.make n clock draws, {}) where
  noneEvicted _ := rfl
  swap_eq_none _ _ := rfl
  finite := ⟨[], [], List.nodup_nil, by simp [HierarchicalMemoryManager.make], rfl⟩
  of_no_access _ := ⟨rfl, rfl⟩

/-- The keys of the map are still finitely many when a page has been put to it. -/
theorem exists_keys {a : ℤ} {p : PageRef}
    (h : ∃ values, s.SwapValues values) (hs : s'.swap = Function.update s.swap a (some p)) :
    ∃ values, s'.SwapValues values := by
  obtain ⟨_, keys, hnodup, hmem, -⟩ := h
  have hiff : ∀ d, (s'.swap d).isSome = true ↔ d = a ∨ d ∈ keys := fun d => by
    rw [hs, Function.update_apply, hmem]
    split_ifs with hd <;> simp [hd]
  by_cases ha : a ∈ keys
  · refine ⟨_, keys, hnodup, fun d => ?_, rfl⟩
    rw [hiff, or_iff_right_of_imp]
    rintro rfl
    exact ha
  · refine ⟨_, a :: keys, List.nodup_cons.2 ⟨ha, hnodup⟩, fun d => ?_, rfl⟩
    rw [hiff, List.mem_cons]

/-- One call keeps the count. -/
theorem step {call : Call} (h : Counted x) (hst : (TalliedSystem n).step x call x') : Counted x' := by
  obtain ⟨s, t⟩ := x
  obtain ⟨s', t'⟩ := x'
  obtain ⟨-, order, o, -, hexec, rfl⟩ := hst
  obtain ⟨v, hv, hsome⟩ := swaps_exec s order call _ hexec
  have hquiet : v = none → ∀ a, s'.swap a = s.swap a := fun hv' a => by rw [hv.swap_eq hv']
  have hsome : v.isSome = o.any evicts := hsome
  have hevictions := t.record_evictions o
  rw [← hsome] at hevictions
  refine ⟨hv.noneEvicted h.noneEvicted, fun he a => ?_, ?_, fun ha => ?_⟩
  · have he : (t.record o).evictions = 0 := he
    rw [he] at hevictions
    obtain rfl : v = none := by
      cases v with
      | none => rfl
      | some p => cases hevictions
    change s'.swap a = none
    rw [hv.swap_eq rfl]
    exact h.swap_eq_none (Nat.add_eq_zero_iff.1 hevictions.symm).1 a
  · cases v with
    | none =>
      obtain ⟨values, keys, hnodup, hmem, -⟩ := h.finite
      exact ⟨_, keys, hnodup, fun a => by rw [hmem, hv.swap_eq rfl], rfl⟩
    | some p =>
      obtain ⟨a, ha⟩ := hv.swap_some p rfl
      exact exists_keys h.finite ha
  · obtain ⟨rfl, ha⟩ := Tally.record_accesses ha
    exact h.of_no_access ha

end Counted

/-- The pages count no eviction, so that the total is none. -/
theorem foldl_count_evictions {s : HierarchicalMemoryManager} (hs : s.heap.NoneEvicted)
    (values : List PageRef) (t : Tally) : (values.foldl s.count t).evictions = t.evictions := by
  induction values generalizing t with
  | nil => rfl
  | cons p values ih =>
    rw [List.foldl_cons, ih]
    exact congrArg (t.evictions + ·) (hs p)

/-- The invariant holds in every reachable state. -/
theorem Counted.of_reachable {n : ℕ} {x : HierarchicalMemoryManager × Tally}
    (hx : (TalliedSystem n).Reachable x) : Counted x := by
  refine hx.invariant (I := Counted) (fun x hx => ?_) fun _ _ _ hx _ hst => hx.step hst
  obtain ⟨clock, draws, rfl⟩ := hx
  exact .make clock draws

/-- The totals are those of the run if and only if no page has been accessed. -/
theorem summary_iff {n : ℕ} {s : HierarchicalMemoryManager} {t : Tally}
    (hs : (TalliedSystem n).Reachable (s, t)) :
    (∃ values, s.SwapValues values) ∧
      ∀ values, s.SwapValues values → (s.summary values = t ↔ t.accesses = 0) := by
  have h := Counted.of_reachable hs
  refine ⟨h.finite, fun values hvalues => ?_⟩
  -- Without evictions the swap space is empty.
  have hempty : t.evictions = 0 → s.summary values = {} := fun he => by
    obtain ⟨keys, -, hmem, rfl⟩ := hvalues
    obtain rfl : keys = [] := List.eq_nil_iff_forall_not_mem.2 fun a ha => by
      rw [hmem, h.swap_eq_none he] at ha
      cases ha
    rfl
  constructor
  · intro heq
    have he : t.evictions = 0 := heq ▸ foldl_count_evictions h.noneEvicted values {}
    rw [← heq, hempty he]
  · intro ha
    obtain ⟨hf, he⟩ := h.of_no_access ha
    rw [hempty he]
    exact (Tally.ext ha hf he).symm

/-- A page is evicted for another one. -/
theorem tallied_two : ∃ s, (TalliedSystem 1).Reachable (s, ⟨2, 2, 1⟩) := by
  have heq : (([.access 0, .access 1] : List Call).foldlM tallyCall
      (.make 1 {} fun _ => 0, {})).map (·.2) = .ok ⟨2, 2, 1⟩ := by
    rfl
  obtain ⟨⟨s, t⟩, hm, rfl⟩ := map_eq_ok heq
  exact ⟨s, .foldlM (fun _ _ _ => step_of_tallyCall) (fun _ _ _ => trivial)
    (.init ⟨{}, fun _ => 0, rfl⟩) hm⟩

/-- Two pages in a memory of one frame: the totals are not those of the summary. -/
theorem summary_iff_two : ∃ s, (TalliedSystem 1).Reachable (s, ⟨2, 2, 1⟩) ∧
    ∃ values, s.SwapValues values ∧ (s.summary values = ⟨2, 2, 1⟩ ↔ 2 = 0) := by
  obtain ⟨s, hs⟩ := tallied_two
  obtain ⟨⟨values, hvalues⟩, h⟩ := summary_iff hs
  exact ⟨s, hs, values, hvalues, h values hvalues⟩

/-- The eviction is not counted. -/
theorem summary_ne : ∃ s t, (TalliedSystem 1).Reachable (s, t) ∧ (∃ values, s.SwapValues values) ∧
    ∀ values, s.SwapValues values → s.summary values ≠ t := by
  obtain ⟨s, hs⟩ := tallied_two
  have h := Counted.of_reachable hs
  refine ⟨s, _, hs, h.finite, fun values _ heq => ?_⟩
  have he := foldl_count_evictions h.noneEvicted values {}
  have he' : (s.summary values).evictions = 0 := he
  rw [heq] at he'
  cases he'

end Mcpq.Hierarchical
